import TypedLisp.Code

/-!
# From expressions to code

`Expr.lower` is closure conversion. It refuses expressions that analysis and inference never make: a
local that is not in scope, a definition inside an expression, a constructor with a wrong number of
arguments.
-/

namespace TypedLisp

/-- Why an expression has no code. -/
inductive LowerError where
  | outOfScope (x : Local)
  | definitionInside (name : GlobalName)
  | dataTypeInside (name : GlobalName)
  | nsInside (ns : String)
  | constructorArity (name : GlobalName) (expected found : Nat) (range : Range)
deriving DecidableEq, Repr

/-- The error that a declaration inside an expression is. -/
def Declaration.inside : Declaration → LowerError
  | .ns d => .nsInside d.ns
  | .ascribe name _ => .definitionInside name
  | .data d => .dataTypeInside d.name
  | .host name _ _ => .definitionInside name

/-- A local that is in scope. -/
def lookupLocal (scope : List Local) (x : Local) : Except LowerError Local :=
  if x ∈ scope then .ok x else .error (.outOfScope x)

/-- A constructor called by its name takes as many arguments as it has fields. -/
def checkConstructor (v : Var) (found : Nat) (r : Range) : Except LowerError Unit :=
  match v.constructorArity? with
  | none => .ok ()
  | some expected =>
    if expected = found then .ok () else .error (.constructorArity v.name expected found r)

namespace Expr

variable {α : Type}

mutual

/-- The code of an expression, with the locals in scope. -/
def lower (scope : List Local) : Expr α → Except LowerError Code
  | .literal v _ => return .literal v
  | .collection kind items _ => return .collection kind (← lowerAll scope items)
  | .localVar x _ => return .slot (← lookupLocal scope x)
  | .globalVar v _ => return .load v.cell
  | .call callee args _ => return .call (← lower scope callee) (← lowerAll scope args)
  | .callVar v args n => do
    checkConstructor v args.length n.range
    return .call (.load v.cell) (← lowerAll scope args)
  | .letIn bindings body _ => do
    let code ← lowerBindings scope bindings
    return .letIn code (← lower (bindings.map Prod.fst ++ scope) body)
  | .ite test thenBranch elseBranch _ =>
    return .ite (← lower scope test) (← lower scope thenBranch) (← lower scope elseBranch)
  | .fn params body _ => do
    let captures ← (body.closedOver params).mapM (lookupLocal scope)
    return .closure params captures (← lower (params ++ captures) body)
  | .define name _ _ _ => throw (.definitionInside name)
  | .declare d _ => throw d.inside

/-- The code of some expressions, from left to right. -/
def lowerAll (scope : List Local) : List (Expr α) → Except LowerError (List Code)
  | [] => return []
  | e :: es => return (← lower scope e) :: (← lowerAll scope es)

/-- The code of bindings, each in scope in those after it. -/
def lowerBindings (scope : List Local) :
    List (Local × Expr α) → Except LowerError (List (Local × Code))
  | [] => return []
  | (x, e) :: bs => return (x, ← lower scope e) :: (← lowerBindings (x :: scope) bs)

end

end Expr

end TypedLisp
