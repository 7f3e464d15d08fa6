import TypedLisp.Env
import TypedLisp.Form

/-!
# Expressions

The tree of a form once its names are resolved. Every node has the range it was read from and an
annotation: nothing after analysis, its type after inference. Definitions and declarations are nodes
too, which stand only at the top.
-/

namespace TypedLisp

/-- What a node carries besides its parts. -/
structure Note (α : Type) where
  range : Range
  ann : α
deriving DecidableEq, Repr

/-- A literal. -/
inductive Literal where
  | bool (value : Bool)
  | int (value : Int64)
  | str (value : String)
deriving DecidableEq, Repr

/-- The kinds of collection. -/
inductive Collection where
  | vector
  | set
  | map
deriving DecidableEq, Repr

/-- A function of the host: its module, its name there, and its number of parameters. -/
structure HostRef where
  module : GlobalName
  fn : String
  arity : Nat
deriving DecidableEq, Repr

/-- The written form `package/Module.function`. -/
def HostRef.text (h : HostRef) : String := h.module.text ++ "." ++ h.fn

/-- A form that changes the environment and has no expression in it. -/
inductive Declaration where
  | ns (decl : NsDecl)
  /-- Ascribes a type to a name. -/
  | ascribe (name : GlobalName) (ty : Ty)
  | data (dataType : DataType)
  /-- Binds a name to a function of the host. -/
  | host (name : GlobalName) (ref : HostRef) (ty : Ty)
deriving DecidableEq, Repr

/-- An expression with annotations of type `α`. The items of a map are its keys and values in turn;
the bindings of `letIn` are in scope in the bindings after them and in the body. -/
inductive Expr (α : Type) where
  | literal (value : Literal) (note : Note α)
  | collection (kind : Collection) (items : List (Expr α)) (note : Note α)
  | localVar (x : Local) (note : Note α)
  | globalVar (v : Var) (note : Note α)
  | call (callee : Expr α) (args : List (Expr α)) (note : Note α)
  /-- A call of a var by its name. -/
  | callVar (v : Var) (args : List (Expr α)) (note : Note α)
  | letIn (bindings : List (Local × Expr α)) (body : Expr α) (note : Note α)
  | ite (test thenBranch elseBranch : Expr α) (note : Note α)
  | fn (params : List Local) (body : Expr α) (note : Note α)
  | define (name : GlobalName) (declared : Option Ty) (body : Expr α) (note : Note α)
  | declare (d : Declaration) (note : Note α)
deriving Repr

namespace Expr

variable {α β : Type}

/-- The range and the annotation of a node. -/
def note : Expr α → Note α
  | .literal _ n => n
  | .collection _ _ n => n
  | .localVar _ n => n
  | .globalVar _ n => n
  | .call _ _ n => n
  | .callVar _ _ n => n
  | .letIn _ _ n => n
  | .ite _ _ _ n => n
  | .fn _ _ n => n
  | .define _ _ _ n => n
  | .declare _ n => n

/-- The range of a node. -/
def range (e : Expr α) : Range := e.note.range

/-- The annotation of a node. -/
def ann (e : Expr α) : α := e.note.ann

end Expr

/-- A note with another annotation. -/
def Note.map {α β : Type} (f : α → β) (n : Note α) : Note β := ⟨n.range, f n.ann⟩

namespace Expr

variable {α β : Type}

mutual

/-- The expression with every annotation changed. -/
def map (f : α → β) : Expr α → Expr β
  | .literal v n => .literal v (n.map f)
  | .collection k es n => .collection k (mapAll f es) (n.map f)
  | .localVar x n => .localVar x (n.map f)
  | .globalVar v n => .globalVar v (n.map f)
  | .call c es n => .call (map f c) (mapAll f es) (n.map f)
  | .callVar v es n => .callVar v (mapAll f es) (n.map f)
  | .letIn bs b n => .letIn (mapBindings f bs) (map f b) (n.map f)
  | .ite t a b n => .ite (map f t) (map f a) (map f b) (n.map f)
  | .fn ps b n => .fn ps (map f b) (n.map f)
  | .define g d b n => .define g d (map f b) (n.map f)
  | .declare d n => .declare d (n.map f)

/-- The expressions with every annotation changed. -/
def mapAll (f : α → β) : List (Expr α) → List (Expr β)
  | [] => []
  | e :: es => map f e :: mapAll f es

/-- The bindings with every annotation changed. -/
def mapBindings (f : α → β) : List (Local × Expr α) → List (Local × Expr β)
  | [] => []
  | (x, e) :: bs => (x, map f e) :: mapBindings f bs

end

/-! ## Free locals -/

mutual

/-- The locals that an expression refers to and that are not among `bound`, as often as they
occur. -/
def freeLocals (bound : List Local) : Expr α → List Local
  | .literal _ _ => []
  | .collection _ es _ => freeLocalsAll bound es
  | .localVar x _ => if x ∈ bound then [] else [x]
  | .globalVar _ _ => []
  | .call c es _ => freeLocals bound c ++ freeLocalsAll bound es
  | .callVar _ es _ => freeLocalsAll bound es
  | .letIn bs b _ => freeLocalsLet bound bs ++ freeLocals (bs.map Prod.fst ++ bound) b
  | .ite t a b _ => freeLocals bound t ++ freeLocals bound a ++ freeLocals bound b
  | .fn ps b _ => freeLocals (ps ++ bound) b
  | .define _ _ b _ => freeLocals bound b
  | .declare _ _ => []

/-- The same for several expressions. -/
def freeLocalsAll (bound : List Local) : List (Expr α) → List Local
  | [] => []
  | e :: es => freeLocals bound e ++ freeLocalsAll bound es

/-- The same for bindings, each of which is bound in those after it. -/
def freeLocalsLet (bound : List Local) : List (Local × Expr α) → List Local
  | [] => []
  | (x, e) :: bs => freeLocals bound e ++ freeLocalsLet (x :: bound) bs

end

/-- The locals that an expression takes from outside, given the locals bound in it: by ascending
number, each once. -/
def closedOver (bound : List Local) (e : Expr α) : List Local := sortLocals (freeLocals bound e)

end Expr

end TypedLisp
