import TypedLisp.Ty.Printer

/-!
# Built-in functions

The functions of the core namespace, with their names and types.
-/

namespace TypedLisp

/-- A function of the core namespace. -/
inductive Builtin where
  | add
  | sub
  | mul
  | eq
  | lt
  | gt
  | not
  | count
  | conj
  | str
  | concat
deriving DecidableEq, Repr

namespace Builtin

/-- All built-in functions, in the order in which they are defined. -/
def all : List Builtin := [.add, .sub, .mul, .eq, .lt, .gt, .not, .count, .conj, .str, .concat]

/-- The symbol of a built-in function. -/
def name : Builtin → String
  | .add => "+"
  | .sub => "-"
  | .mul => "*"
  | .eq => "="
  | .lt => "<"
  | .gt => ">"
  | .not => "not"
  | .count => "count"
  | .conj => "conj"
  | .str => "str"
  | .concat => "concat"

/-- The type of a built-in function, with a given type variable where it is polymorphic. -/
def ty (v : TyVar) : Builtin → Ty
  | .add | .sub | .mul => .fn [.int, .int] .int
  | .eq | .lt | .gt => .fn [.int, .int] .bool
  | .not => .fn [.bool] .bool
  | .count => .fn [.vector (.var v)] .int
  | .conj => .fn [.vector (.var v), .var v] (.vector (.var v))
  | .str => .fn [.var v] .str
  | .concat => .fn [.str, .str] .str

/-- The number of parameters. -/
def arity : Builtin → Nat
  | .not | .count | .str => 1
  | .add | .sub | .mul | .eq | .lt | .gt | .conj | .concat => 2

/-- The text of the type of a built-in function. -/
def signature (b : Builtin) : String := (b.ty 0).text

/-- The built-in function of a symbol. -/
def ofName? (s : String) : Option Builtin := all.find? fun b => b.name = s

end Builtin

end TypedLisp
