import TypedLisp.Name
import TypedLisp.Ty

/-!
# Vars and data types

A var is what a global name stands for: its types, its kind, and the cell in which running code
finds its value. A data type is a nominal sum; its constructors are vars as well.
-/

namespace TypedLisp

/-- A place that holds the value of a var. Code refers to the cell, not to the var. -/
structure Cell where
  id : Nat
  name : String
deriving DecidableEq, Repr

/-- What kind of thing a var is. -/
inductive VarKind where
  /-- Ascribed a type and not yet defined. -/
  | declared
  | value
  | fn (arity : Nat)
  | constructor (dataType : GlobalName) (arity : Nat)
  | builtin (arity : Nat)
  /-- Bound to a function of the host. -/
  | host (arity : Nat)
deriving DecidableEq, Repr

/-- What a global name stands for. -/
structure Var where
  name : GlobalName
  kind : VarKind
  cell : Cell
  declared : Option Ty := none
  inferred : Option Ty := none
deriving DecidableEq, Repr

namespace Var

/-- The declared type if there is one, otherwise the inferred type. -/
def visible (v : Var) : Option Ty := v.declared <|> v.inferred

/-- Whether the var is visibly a function. -/
def isFn (v : Var) : Bool := (v.visible.map Ty.isFn).getD false

/-- The number of fields, for a constructor. -/
def constructorArity? (v : Var) : Option Nat :=
  match v.kind with
  | .constructor _ n => some n
  | _ => none

end Var

/-! ## Data types -/

/-- A constructor of a data type: a plain value if it has no list of fields, otherwise a function of
its fields. -/
structure Constructor where
  name : GlobalName
  fields : Option (List Ty)
deriving DecidableEq, Repr

/-- The number of fields. -/
def Constructor.arity (c : Constructor) : Nat := (c.fields.map List.length).getD 0

/-- A nominal sum type with its parameters. -/
structure DataType where
  name : GlobalName
  params : List TyVar
  constructors : List Constructor
deriving DecidableEq, Repr

namespace DataType

/-- The type of the data type's values, applied to its own parameters if it has any. -/
def ty (d : DataType) : Ty :=
  if d.params.isEmpty then .data d.name.text
  else .applied (.data d.name.text) (d.params.map .var)

/-- The type of a constructor: the data type itself, or a function of the fields to it. -/
def constructorTy (d : DataType) (c : Constructor) : Ty :=
  match c.fields with
  | none => d.ty
  | some fields => .fn fields d.ty

end DataType

end TypedLisp
