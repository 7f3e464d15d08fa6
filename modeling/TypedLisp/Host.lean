import TypedLisp.Name

/-!
# The host's modules

Functions that the host offers to programs, in modules of a package. Their types are not given here:
a program ascribes one when it binds a name to such a function.
-/

namespace TypedLisp

/-- A function of the host. -/
inductive HostFn where
  | abs
  | max
  | min
  | quot
  | rem
  | length
  | upper
  | lower
  | trim
  | repeat
deriving DecidableEq, Repr

/-- The number of parameters. -/
def HostFn.arity : HostFn → Nat
  | .abs | .length | .upper | .lower | .trim => 1
  | .max | .min | .quot | .rem | .repeat => 2

/-- A named group of functions. -/
structure HostModule where
  name : GlobalName
  functions : List (String × HostFn)

/-- The package of the host's modules. -/
def hostPackage : String := "brj.host"

/-- All modules of the host. -/
def hostModules : List HostModule := [
  ⟨⟨hostPackage, "Math"⟩,
    [("abs", .abs), ("max", .max), ("min", .min), ("quot", .quot), ("rem", .rem)]⟩,
  ⟨⟨hostPackage, "Str"⟩,
    [("length", .length), ("upper", .upper), ("lower", .lower), ("trim", .trim),
      ("repeat", .repeat)]⟩]

/-- The module of a name. -/
def hostModule? (name : GlobalName) : Option HostModule :=
  hostModules.find? fun m => m.name = name

/-- The function of a name in a module. -/
def HostModule.function? (m : HostModule) (name : String) : Option HostFn :=
  m.functions.lookup name

/-- The function of a name in the module of a name. -/
def hostFn? (module : GlobalName) (name : String) : Option HostFn :=
  (hostModule? module).bind (·.function? name)

end TypedLisp
