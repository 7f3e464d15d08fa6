import TypedLisp.Env
import TypedLisp.Form

/-!
# What analysis of forms works with

Analysis turns forms into expressions, types and declarations. It takes new type variables and
locals from a `Supply` and stops at the first form it cannot accept.
-/

namespace TypedLisp

/-- The numbers that no type variable and no local has yet. -/
structure Supply where
  tyVar : TyVar := 0
  localId : Nat := 1
deriving DecidableEq, Repr

/-- Why a form cannot be accepted. -/
inductive AnalysisCause where
  | unresolved (sym : String)
  | unknownNamespace (ns : String)
  | ambiguousAlias (aliasName target : String)
  | ambiguousRefer (sym first second : String)
  | unknownHostModule (module : String)
  | unknownHostFn (module : GlobalName) (fn : String)
  /-- The form has not the shape it should have. -/
  | malformed (message : String)
deriving DecidableEq, Repr

/-- A cause and where it is. -/
structure AnalysisError where
  cause : AnalysisCause
  range : Range
deriving DecidableEq, Repr

def AnalysisCause.message : AnalysisCause → String
  | .unresolved sym => "unable to resolve symbol: " ++ sym
  | .unknownNamespace ns => "unknown namespace: " ++ ns
  | .ambiguousAlias a target =>
    "alias " ++ a ++ " clashes with existing namespace " ++ a ++ " (it points at " ++ target ++ ")"
  | .ambiguousRefer sym first second =>
    sym ++ " is referred from both " ++ first ++ " and " ++ second
  | .unknownHostModule m => "unknown host module: " ++ m
  | .unknownHostFn m f => "host module " ++ m.text ++ " has no function " ++ f
  | .malformed message => message

def AnalysisError.message (e : AnalysisError) : String :=
  "[" ++ e.range.text ++ "] " ++ e.cause.message

/-- Analysis that takes numbers from a supply. -/
abbrev Analysis := StateT Supply (Except AnalysisError)

/-- Stops at a form that has not the shape it should have. -/
def malformed {m : Type → Type} [MonadExceptOf AnalysisError m] {α : Type} (message : String)
    (range : Range) : m α :=
  throwThe AnalysisError ⟨.malformed message, range⟩

/-- Stops at a name that stands for nothing. -/
def unresolved {m : Type → Type} [MonadExceptOf AnalysisError m] {α : Type} (f : Form) : m α :=
  throwThe AnalysisError ⟨.unresolved f.text, f.range⟩

/-- The name that a form gives to what it binds: any symbol but `::`. -/
def bindingName (f : Form) : Except AnalysisError String :=
  match f with
  | .atom (.symbol name) r =>
    if name = "::" then malformed ("expected a symbol to bind, got " ++ f.describe) r else pure name
  | _ => malformed ("expected a symbol to bind, got " ++ f.describe) f.range

/-- A new local. -/
def newLocal (name : String) : Analysis Local := do
  let s ← get
  set { s with localId := s.localId + 1 }
  return ⟨name, s.localId⟩

end TypedLisp
