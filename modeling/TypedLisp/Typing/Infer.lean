import TypedLisp.Expr
import TypedLisp.Ty.Instance
import TypedLisp.Ty.Printer
import TypedLisp.Typing.Demand

/-!
# Inference of types

`infer` finds a type for every node of an expression. It goes from the leaves to the root: every
node that puts expressions together solves the equations between their types and the demands they
make on shared locals, and applies the solution to all that is below it. A local bound by `let`
stands for its expression: each use has new variables in place of those of the expression's type and
of the demands it makes.
-/

namespace TypedLisp

/-- Why an expression has no type. -/
inductive TypeError where
  | unification (cause : UnifyError) (range : Range)
  /-- The declared type of a definition is no instance of the type it has. -/
  | ascription (name : GlobalName) (declared inferred : Ty) (range : Range)
deriving DecidableEq, Repr

def TypeError.message : TypeError → String
  | .unification cause r => "[" ++ r.text ++ "] " ++ cause.message
  | .ascription name declared inferred r =>
    "[" ++ r.text ++ "] " ++ name.text ++ " is declared as " ++ declared.text ++
      " but its definition has type " ++ inferred.text

/-- Inference, with the next new type variable. -/
abbrev Infer := StateT TyVar (Except TypeError)

/-- A typed expression and its demands. -/
structure Typing where
  expr : Expr Ty
  demands : Demands

/-- The type of a typed expression. -/
def Typing.ty (t : Typing) : Ty := t.expr.ann

/-- What a local bound by `let` stands for: a type, and the demands of the expression that has
it. -/
structure LetType where
  ty : Ty
  demands : Demands

/-- The locals bound by `let` that are in scope. -/
abbrev LetScope := List (Local × LetType)

/-- The typed expression under a substitution. -/
def Expr.apply (s : Subst) (e : Expr Ty) : Expr Ty := e.map (Ty.apply s)

namespace Infer

/-- A new type variable. -/
def fresh : Infer Ty := do
  let v ← get
  set (v + 1)
  return .var v

/-- The type of a use of a var. -/
def ofVar (v : Var) : Infer Ty :=
  match v.visible with
  | none => fresh
  | some t => do
    let (t, next) := t.instantiate (← get)
    set next
    return t

/-- The type of a use of a local bound by `let`, with the demands of that use. -/
def ofLet (b : LetType) : Infer LetType := do
  let next ← get
  let vs := sortVars (b.ty.vars ++ b.demands.vars)
  let s := Subst.fresh vs next
  set (next + vs.length)
  return ⟨b.ty.apply s, b.demands.apply s⟩

/-- Solves equations together with the demands of the parts of a node. -/
def solve (r : Range) (parts : List Demands) (equations : List Equation) :
    Infer (Demands × Subst) := do
  let (demands, agree, next) := Demands.union parts (← get)
  set next
  match unify (equations ++ agree) with
  | .ok s => return (demands.apply s, s)
  | .error e => throw (.unification e r)

/-- The type that a function needs its parameter to have. -/
def ofParam (demands : Demands) (x : Local) : Infer Ty :=
  match demands.lookup x with
  | some t => return t
  | none => fresh

end Infer

/-- The first of every two items. -/
def keys {α : Type} (items : List α) : List α := (pairs items).map Prod.fst

/-- The second of every two items. -/
def values {α : Type} (items : List α) : List α := (pairs items).map Prod.snd

/-- The type of a collection literal, made of new type variables; the equations that give the items
these types; and the demands of the items. For a map, all keys come before all values. -/
def collectionTy (kind : Collection) (items : List Typing) :
    Infer (Ty × List Equation × List Demands) := do
  match kind with
  | .vector =>
    let e ← Infer.fresh
    return (.vector e, items.map fun i => (e, i.ty), items.map (·.demands))
  | .set =>
    let e ← Infer.fresh
    return (.set e, items.map fun i => (e, i.ty), items.map (·.demands))
  | .map =>
    let k ← Infer.fresh
    let v ← Infer.fresh
    let keyEquations := (keys items).map fun i => (k, i.ty)
    let valueEquations := (values items).map fun i => (v, i.ty)
    return (.map k v, keyEquations ++ valueEquations,
      (keys items ++ values items).map (·.demands))

def Literal.ty : Literal → Ty
  | .bool _ => .bool
  | .int _ => .int
  | .str _ => .str

mutual

/-- The typing of an expression in the scope of some `let`s. -/
def inferIn (scope : LetScope) : Expr Unit → Infer Typing
  | .literal v n => return ⟨.literal v ⟨n.range, v.ty⟩, []⟩
  | .collection kind items n => do
    let items ← inferAll scope items
    let (t, equations, parts) ← collectionTy kind items
    let (demands, s) ← Infer.solve n.range parts equations
    return ⟨.collection kind (items.map (·.expr.apply s)) ⟨n.range, t.apply s⟩, demands⟩
  | .localVar x n =>
    match scope.lookup x with
    | some b => do
      let use ← Infer.ofLet b
      return ⟨.localVar x ⟨n.range, use.ty⟩, use.demands⟩
    | none => do
      let t ← Infer.fresh
      return ⟨.localVar x ⟨n.range, t⟩, [(x, t)]⟩
  | .globalVar v n => return ⟨.globalVar v ⟨n.range, ← Infer.ofVar v⟩, []⟩
  | .call callee args n => do
    let callee ← inferIn scope callee
    let args ← inferAll scope args
    let result ← Infer.fresh
    let (demands, s) ← Infer.solve n.range (callee.demands :: args.map (·.demands))
      [(callee.ty, .fn (args.map (·.ty)) result)]
    return ⟨.call (callee.expr.apply s) (args.map (·.expr.apply s)) ⟨n.range, result.apply s⟩,
      demands⟩
  | .callVar v args n => do
    let args ← inferAll scope args
    let result ← Infer.fresh
    let callee ← Infer.ofVar v
    let (demands, s) ← Infer.solve n.range (args.map (·.demands))
      [(callee, .fn (args.map (·.ty)) result)]
    return ⟨.callVar v (args.map (·.expr.apply s)) ⟨n.range, result.apply s⟩, demands⟩
  | .letIn bindings body n => do
    let (bindings, inner) ← inferBindings scope bindings
    let body ← inferIn inner body
    let (demands, s) ← Infer.solve n.range (bindings.map (·.2.demands) ++ [body.demands]) []
    return ⟨.letIn (bindings.map fun (x, b) => (x, b.expr.apply s)) (body.expr.apply s)
      ⟨n.range, body.ty.apply s⟩, demands.without (bindings.map Prod.fst)⟩
  | .ite test thenBranch elseBranch n => do
    let test ← inferIn scope test
    let thenBranch ← inferIn scope thenBranch
    let elseBranch ← inferIn scope elseBranch
    let result ← Infer.fresh
    let (demands, s) ← Infer.solve n.range [test.demands, thenBranch.demands, elseBranch.demands]
      [(test.ty, .bool), (result, thenBranch.ty), (result, elseBranch.ty)]
    return ⟨.ite (test.expr.apply s) (thenBranch.expr.apply s) (elseBranch.expr.apply s)
      ⟨n.range, result.apply s⟩, demands⟩
  | .fn params body n => do
    let body ← inferIn scope body
    let paramTys ← params.mapM (Infer.ofParam body.demands)
    return ⟨.fn params body.expr ⟨n.range, .fn paramTys body.ty⟩, body.demands.without params⟩
  | .define name declared body n => do
    let body ← inferIn scope body
    match declared with
    | none => pure ()
    | some d => if d.subtypeOf body.ty then pure () else throw (.ascription name d body.ty n.range)
    return ⟨.define name declared body.expr ⟨n.range, .effect⟩, body.demands⟩
  | .declare d n => return ⟨.declare d ⟨n.range, .effect⟩, []⟩

/-- The typings of some expressions, from left to right. -/
def inferAll (scope : LetScope) : List (Expr Unit) → Infer (List Typing)
  | [] => return []
  | e :: es => return (← inferIn scope e) :: (← inferAll scope es)

/-- The typings of bindings, and the scope after them. -/
def inferBindings (scope : LetScope) :
    List (Local × Expr Unit) → Infer (List (Local × Typing) × LetScope)
  | [] => return ([], scope)
  | (x, e) :: bs => do
    let t ← inferIn scope e
    let demands := t.demands.without [x]
    let (rest, inner) ← inferBindings ((x, ⟨t.ty, demands⟩) :: scope) bs
    return ((x, ⟨t.expr, demands⟩) :: rest, inner)

end

/-- A type for every node of an expression that stands at top level. -/
def infer (e : Expr Unit) : Infer (Expr Ty) := return (← inferIn [] e).expr

end TypedLisp
