import TypedLisp.Expr

/-!
# Code

What an expression becomes before it runs. Types and ranges are gone, vars are read through their
cells, and a function lists the locals that it captures: its body refers only to its parameters, its
captures and what it binds itself.
-/

namespace TypedLisp

/-- Code for an expression. -/
inductive Code where
  | literal (value : Literal)
  /-- The items of a map are its keys and values in turn. -/
  | collection (kind : Collection) (items : List Code)
  /-- A local of the function that is running. -/
  | slot (x : Local)
  /-- What a cell holds. -/
  | load (cell : Cell)
  | call (callee : Code) (args : List Code)
  | letIn (bindings : List (Local × Code)) (body : Code)
  | ite (test thenBranch elseBranch : Code)
  | closure (params captures : List Local) (body : Code)
deriving Repr

instance : Inhabited Code := ⟨.literal (.bool false)⟩

/-! ## The cells that code reads -/

mutual

/-- The cells that a piece of code reads, those of its closures among them. -/
def Code.cells : Code → List Cell
  | .literal _ => []
  | .collection _ items => Code.cellsAll items
  | .slot _ => []
  | .load c => [c]
  | .call callee args => callee.cells ++ Code.cellsAll args
  | .letIn bindings body => Code.cellsBindings bindings ++ body.cells
  | .ite t a b => t.cells ++ a.cells ++ b.cells
  | .closure _ _ body => body.cells

/-- The same for several pieces of code. -/
def Code.cellsAll : List Code → List Cell
  | [] => []
  | c :: cs => c.cells ++ Code.cellsAll cs

/-- The same for bindings. -/
def Code.cellsBindings : List (Local × Code) → List Cell
  | [] => []
  | (_, c) :: bs => c.cells ++ Code.cellsBindings bs

end

/-! ## The closures of a unit of code -/

/-- What is known of a closure: the names of its parameters and of its captures. -/
structure ClosureInfo where
  params : List String
  captures : List String
deriving DecidableEq, Repr

/-- The order of all closures, given those of a body in order, each with the closures inside it: the
closures of the body first, then the contents of the last one, and so on back to the first one. -/
def closureOrder (direct : List (ClosureInfo × List ClosureInfo)) : List ClosureInfo :=
  direct.map Prod.fst ++ direct.reverse.flatMap Prod.snd

mutual

/-- The closures of a piece of code that are not inside other closures, each with the closures
inside it. -/
def Code.direct : Code → List (ClosureInfo × List ClosureInfo)
  | .literal _ => []
  | .collection _ items => Code.directAll items
  | .slot _ => []
  | .load _ => []
  | .call callee args => callee.direct ++ Code.directAll args
  | .letIn bindings body => Code.directBindings bindings ++ body.direct
  | .ite t a b => t.direct ++ a.direct ++ b.direct
  | .closure params captures body =>
    [(⟨params.map (·.name), captures.map (·.name)⟩, closureOrder body.direct)]

/-- The same for several pieces of code. -/
def Code.directAll : List Code → List (ClosureInfo × List ClosureInfo)
  | [] => []
  | c :: cs => c.direct ++ Code.directAll cs

/-- The same for bindings. -/
def Code.directBindings : List (Local × Code) → List (ClosureInfo × List ClosureInfo)
  | [] => []
  | (_, c) :: bs => c.direct ++ Code.directBindings bs

end

/-- The closures of a piece of code, in the order in which they are numbered. -/
def Code.closures (c : Code) : List ClosureInfo := closureOrder c.direct

end TypedLisp
