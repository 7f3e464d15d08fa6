import TypedLisp.Analysis.Basic
import TypedLisp.Code.Lower
import TypedLisp.Fault
import TypedLisp.Form.Reader
import TypedLisp.Typing.Infer
import TypedLisp.Value

/-!
# What comes of a form

A form that is evaluated gives a value or changes the environment; or it fails at one of the stages
from reading to running.
-/

namespace TypedLisp

/-- What a form did. -/
inductive Outcome where
  | value (v : Value) (ty : Ty)
  | defined (name : GlobalName) (ty : Ty)
  | declared (name : GlobalName) (ty : Ty)
  | dataType (name : GlobalName) (constructors : List GlobalName)
  | ns (name : String)

def Outcome.text : Outcome → String
  | .value v _ => v.text
  | .defined name ty => name.text ++ " : " ++ ty.text
  | .declared name ty => "(:: " ++ name.text ++ " " ++ ty.text ++ ")"
  | .dataType name constructors => " ".intercalate (name.text :: constructors.map (·.name))
  | .ns name => "ns " ++ name

/-- Why a typed form could not be run, or its run failed. -/
inductive RunError where
  | lower (e : LowerError)
  | noHostModule (module : GlobalName)
  | noHostFn (ref : HostRef)
  /-- More arguments than a call from outside can have. -/
  | tooManyArgs (found : Nat)
  | fault (f : Fault)
deriving DecidableEq, Repr

/-- The most arguments of a call from outside. -/
def maxInvokeArgs : Nat := 6

/-- The message of an error, with a given text for each local. -/
def LowerError.messageWith (label : Local → String) : LowerError → String
  | .outOfScope x => "internal consistency error: local " ++ label x ++ " is not in scope"
  | .definitionInside name =>
    "internal consistency error: definition of " ++ name.text ++ " in expression position"
  | .dataTypeInside name =>
    "internal consistency error: data type " ++ name.text ++ " in expression position"
  | .nsInside ns => "internal consistency error: ns " ++ ns ++ " in expression position"
  | .constructorArity name expected found r =>
    "[" ++ r.text ++ "] " ++ name.text ++ " takes " ++ toString expected ++ " arguments, got " ++
      toString found

/-- The message of an error, with a given text for each local. -/
def RunError.messageWith (label : Local → String) : RunError → String
  | .lower e => e.messageWith label
  | .noHostModule m => "internal consistency error: no host module " ++ m.text
  | .noHostFn ref =>
    "internal consistency error: no host function " ++ ref.text ++ " of " ++ toString ref.arity ++
      " arguments"
  | .tooManyArgs found =>
    "internal consistency error: host calls take at most " ++ toString maxInvokeArgs ++
      " arguments, got " ++ toString found
  | .fault f => f.message

def RunError.message (e : RunError) : String := e.messageWith Local.text

/-- Why evaluation failed. -/
inductive EvalError where
  | read (e : ReadError)
  | analysis (e : AnalysisError)
  | type (e : TypeError)
  | run (e : RunError)
  | unknownVar (name : String)
deriving DecidableEq, Repr

def EvalError.message : EvalError → String
  | .read e => e.message
  | .analysis e => e.message
  | .type e => e.message
  | .run e => e.message
  | .unknownVar name => "no such var: " ++ name

end TypedLisp
