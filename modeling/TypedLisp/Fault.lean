/-!
# Faults

What can go wrong while code runs.
-/

namespace TypedLisp

/-- A fault. Kinds of values are given by the names that messages use. -/
inductive Fault where
  | unboundVar (name : String)
  | notAFunction (kind : String)
  | arity (name : String) (expected found : Nat)
  | wrongKind (expected found : String)
  /-- A value that cannot be passed in. -/
  | notEncodable (kind : String)
  | divideByZero
  | stackOverflow
  /-- The mark of a fault, where none is on record. -/
  | escaped
deriving DecidableEq, Repr

def Fault.message : Fault → String
  | .unboundVar name => "unbound var: " ++ name
  | .notAFunction kind => "not a function: " ++ kind
  | .arity name expected found =>
    "arity mismatch calling " ++ name ++ ": expected " ++ toString expected ++
      " arguments, got " ++ toString found
  | .wrongKind expected found => "expected " ++ expected ++ ", got " ++ found
  | .notEncodable kind => kind ++ " values cannot be passed in from the host"
  | .divideByZero => "division by zero"
  | .stackOverflow => "stack overflow"
  | .escaped => "fault value escaped without a recorded fault"

end TypedLisp
