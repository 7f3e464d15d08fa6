import TypedLisp.Proofs.Derivation
import TypedLisp.Proofs.Monads

/-!
# Inference with other orders of locals

Where expressions are put together, the demands on their locals are put together one local after the
other. Inference takes the locals by their first use; `inferInBy` takes them in any order at every
node, and what is proved of inference is proved of it. Whatever puts expressions of one scope
together types them one after the other and solves a `Join` (`inferInBy_former`).
-/

namespace TypedLisp

/-! ## Orders -/

/-- An order in which to take locals. -/
structure JoinOrder where
  arrange : List Local → List Local
  perm : ∀ xs, (arrange xs).Perm xs

namespace JoinOrder

/-- The order of first uses. -/
def firstUse : JoinOrder := ⟨id, fun _ => .refl _⟩

/-- The order of first uses, backwards. -/
def reversed : JoinOrder := ⟨List.reverse, List.reverse_perm⟩

end JoinOrder

/-- What is put together at a node: the demands of its parts, the equations between their types, and
the node before these are solved. -/
structure Join where
  parts : List Demands
  equations : List Equation
  node : Expr Ty

/-- The demands of a join put together in an order, and the equations that make them agree. -/
def Join.merged (j : Join) (order : JoinOrder) (next : TyVar) : Demands × List Equation × TyVar :=
  Demands.merge j.parts next (order.arrange (Demands.locals j.parts))

/-- Solves the equations of a join together with those that make its demands agree. -/
def Join.solve (j : Join) (order : JoinOrder) (r : Range) : Infer Typing := do
  let (demands, agree, next) := j.merged order (← get)
  set next
  match unify (j.equations ++ agree) with
  | .ok s => return ⟨j.node.apply s, demands.apply s⟩
  | .error e => throw (.unification e r)

section InferBy

variable {α : Type} (order : α → JoinOrder)

mutual

/-- The typing of an expression, where the annotation of a node gives the order of locals there. -/
def inferInBy (scope : LetScope) : Expr α → Infer Typing
  | .literal v n => return ⟨.literal v ⟨n.range, v.ty⟩, []⟩
  | .collection kind items n => do
    let items ← inferAllBy scope items
    let (t, equations, parts) ← collectionTy kind items
    Join.solve ⟨parts, equations, .collection kind (items.map (·.expr)) ⟨n.range, t⟩⟩
      (order n.ann) n.range
  | .localVar x n =>
    match scope.lookup x with
    | some b => do
      let use ← Infer.ofLet b
      return ⟨.localVar x ⟨n.range, use.ty⟩, use.demands⟩
    | none => do
      let t ← Infer.fresh
      return ⟨.localVar x ⟨n.range, t⟩, [(x, t)]⟩
  | .globalVar v n => return ⟨.globalVar v ⟨n.range, ← Infer.ofVar v⟩, []⟩
  | .call callee args n => do
    let callee ← inferInBy scope callee
    let args ← inferAllBy scope args
    let result ← Infer.fresh
    Join.solve ⟨callee.demands :: args.map (·.demands),
      [(callee.ty, .fn (args.map (·.ty)) result)],
      .call callee.expr (args.map (·.expr)) ⟨n.range, result⟩⟩ (order n.ann) n.range
  | .callVar v args n => do
    let args ← inferAllBy scope args
    let result ← Infer.fresh
    let callee ← Infer.ofVar v
    Join.solve ⟨args.map (·.demands), [(callee, .fn (args.map (·.ty)) result)],
      .callVar v (args.map (·.expr)) ⟨n.range, result⟩⟩ (order n.ann) n.range
  | .letIn bindings body n => do
    let (bindings, inner) ← inferBindingsBy scope bindings
    let body ← inferInBy inner body
    let t ← Join.solve ⟨bindings.map (·.2.demands) ++ [body.demands], [],
      .letIn (bindings.map fun (x, b) => (x, b.expr)) body.expr ⟨n.range, body.ty⟩⟩
      (order n.ann) n.range
    return ⟨t.expr, t.demands.without (bindings.map Prod.fst)⟩
  | .ite test thenBranch elseBranch n => do
    let test ← inferInBy scope test
    let thenBranch ← inferInBy scope thenBranch
    let elseBranch ← inferInBy scope elseBranch
    let result ← Infer.fresh
    Join.solve ⟨[test.demands, thenBranch.demands, elseBranch.demands],
      [(test.ty, .bool), (result, thenBranch.ty), (result, elseBranch.ty)],
      .ite test.expr thenBranch.expr elseBranch.expr ⟨n.range, result⟩⟩ (order n.ann) n.range
  | .fn params body n => do
    let body ← inferInBy scope body
    let paramTys ← params.mapM (Infer.ofParam body.demands)
    return ⟨.fn params body.expr ⟨n.range, .fn paramTys body.ty⟩, body.demands.without params⟩
  | .define name declared body n => do
    let body ← inferInBy scope body
    match declared with
    | none => pure ()
    | some d => if d.subtypeOf body.ty then pure () else throw (.ascription name d body.ty n.range)
    return ⟨.define name declared body.expr ⟨n.range, .effect⟩, body.demands⟩
  | .declare d n => return ⟨.declare d ⟨n.range, .effect⟩, []⟩

/-- The typings of some expressions, from left to right. -/
def inferAllBy (scope : LetScope) : List (Expr α) → Infer (List Typing)
  | [] => return []
  | e :: es => return (← inferInBy scope e) :: (← inferAllBy scope es)

/-- The typings of bindings, and the scope after them. -/
def inferBindingsBy (scope : LetScope) :
    List (Local × Expr α) → Infer (List (Local × Typing) × LetScope)
  | [] => return ([], scope)
  | (x, e) :: bs => do
    let t ← inferInBy scope e
    let demands := t.demands.without [x]
    let (rest, inner) ← inferBindingsBy ((x, ⟨t.ty, demands⟩) :: scope) bs
    return ((x, ⟨t.expr, demands⟩) :: rest, inner)

end

/-- A type for every node of an expression that stands at top level. -/
def inferBy (e : Expr α) : Infer (Expr Ty) := return (← inferInBy order [] e).expr

end InferBy

/-! ## Formers -/

/-- The type of what is put together from typed parts, before the equations are solved; these
equations; and the demands of the parts. -/
def Former.ty : Former → List Typing → Infer (Ty × List Equation × List Demands)
  | .collection kind, ts => collectionTy kind ts
  | .call, t :: ts => do
    let result ← Infer.fresh
    return (result, [(t.ty, .fn (ts.map (·.ty)) result)], (t :: ts).map (·.demands))
  | .callVar v, ts => do
    let result ← Infer.fresh
    let callee ← Infer.ofVar v
    return (result, [(callee, .fn (ts.map (·.ty)) result)], ts.map (·.demands))
  | .ite, [t, a, b] => do
    let result ← Infer.fresh
    return (result, [(t.ty, .bool), (result, a.ty), (result, b.ty)], [t, a, b].map (·.demands))
  | _, ts => collectionTy .vector ts

section Formers

variable {α : Type} {φ : Former}

theorem inferIn_former {es : List (Expr Unit)} (h : φ.Takes es.length) (scope : LetScope)
    (n : Note Unit) : inferIn scope (φ.expr es n) = (do
      let ts ← inferAll scope es
      let (t, equations, parts) ← φ.ty ts
      let (demands, s) ← Infer.solve n.range parts equations
      return ⟨φ.expr (ts.map (·.expr.apply s)) ⟨n.range, t.apply s⟩, demands⟩) := by
  cases φ with
  | collection kind => simp only [Former.expr, Former.ty, inferIn]
  | call =>
    obtain ⟨e, es, rfl⟩ := List.exists_cons_of_length_pos h
    simp only [Former.expr, Former.ty, inferIn, inferAll, bind_assoc, pure_bind, List.map_cons]
  | callVar v => simp only [Former.expr, Former.ty, inferIn, bind_assoc, pure_bind]
  | ite =>
    obtain ⟨t, a, b, rfl⟩ := List.length_eq_three.1 h
    simp only [Former.expr, Former.ty, inferIn, inferAll, bind_assoc, pure_bind, List.map_cons,
      List.map_nil]

theorem inferInBy_former (order : α → JoinOrder) {es : List (Expr α)} (h : φ.Takes es.length)
    (scope : LetScope) (n : Note α) : inferInBy order scope (φ.expr es n) = (do
      let ts ← inferAllBy order scope es
      let (t, equations, parts) ← φ.ty ts
      Join.solve ⟨parts, equations, φ.expr (ts.map (·.expr)) ⟨n.range, t⟩⟩ (order n.ann)
        n.range) := by
  cases φ with
  | collection kind => simp only [Former.expr, Former.ty, inferInBy]
  | call =>
    obtain ⟨e, es, rfl⟩ := List.exists_cons_of_length_pos h
    simp only [Former.expr, Former.ty, inferInBy, inferAllBy, bind_assoc, pure_bind, List.map_cons]
  | callVar v => simp only [Former.expr, Former.ty, inferInBy, bind_assoc, pure_bind]
  | ite =>
    obtain ⟨t, a, b, rfl⟩ := List.length_eq_three.1 h
    simp only [Former.expr, Former.ty, inferInBy, inferAllBy, bind_assoc, pure_bind, List.map_cons,
      List.map_nil]

end Formers

/-! ## First uses -/

section FirstUse

variable {α : Type}

theorem Join.solve_firstUse (j : Join) (r : Range) : j.solve .firstUse r = (do
    let (demands, s) ← Infer.solve r j.parts j.equations
    return ⟨j.node.apply s, demands⟩) := by
  unfold Join.solve Infer.solve
  simp only [bind_assoc]
  refine bind_congr fun k => bind_congr fun _ => ?_
  rw [show j.merged .firstUse k = Demands.union j.parts k from rfl]
  cases unify (j.equations ++ (Demands.union j.parts k).2.1) <;> rfl

theorem inferAllBy_firstUse_of {es : List (Expr α)}
    (h : ∀ e ∈ es, ∀ scope, inferInBy (fun _ => .firstUse) scope e = inferIn scope e.erase)
    (scope : LetScope) :
    inferAllBy (fun _ => .firstUse) scope es = inferAll scope (es.map Expr.erase) := by
  induction es with
  | nil => rfl
  | cons e es ih =>
    obtain ⟨he, hes⟩ := List.forall_mem_cons.1 h
    rw [inferAllBy, he, ih hes, List.map_cons, inferAll]

theorem inferBindingsBy_firstUse_of {bs : List (Local × Expr α)}
    (h : ∀ b ∈ bs, ∀ scope, inferInBy (fun _ => .firstUse) scope b.2 = inferIn scope b.2.erase)
    (scope : LetScope) : inferBindingsBy (fun _ => .firstUse) scope bs =
      inferBindings scope (bs.map fun b => (b.1, b.2.erase)) := by
  induction bs generalizing scope with
  | nil => rfl
  | cons b bs ih =>
    obtain ⟨hb, hbs⟩ := List.forall_mem_cons.1 h
    simp only [inferBindingsBy, hb, ih hbs, List.map_cons, inferBindings]

/-- **Inference takes the locals of every node by their first use.** -/
theorem inferInBy_firstUse (e : Expr α) (scope : LetScope) :
    inferInBy (fun _ => .firstUse) scope e = inferIn scope e.erase := by
  induction e using Expr.indFormer generalizing scope with
  | literal | globalVar | declare => rfl
  | localVar x n =>
    simp only [inferInBy, Expr.erase, Expr.map, inferIn]
    rfl
  | former φ es n hes ih =>
    rw [Expr.erase, Expr.map_former, inferIn_former (by simpa using hes), inferInBy_former _ hes,
      inferAllBy_firstUse_of ih]
    simp only [Join.solve_firstUse, Expr.apply, Expr.map_former, List.map_map]
    rfl
  | letIn bs e n ihbs ihe =>
    rw [Expr.erase, Expr.map, Expr.mapBindings_eq_map, inferIn, inferInBy,
      inferBindingsBy_firstUse_of ihbs]
    simp only [Join.solve_firstUse, Expr.apply, Expr.map, Expr.mapBindings_eq_map, List.map_map,
      ihe, bind_assoc, pure_bind]
    rfl
  | fn ps e n ih | define g d e n ih =>
    rw [Expr.erase, Expr.map, inferIn, inferInBy, ih]
    rfl

theorem inferBy_firstUse (e : Expr α) : inferBy (fun _ => .firstUse) e = infer e.erase := by
  rw [inferBy, inferInBy_firstUse, infer]

theorem inferIn_eq (scope : LetScope) (e : Expr Unit) :
    inferIn scope e = inferInBy (fun _ => .firstUse) scope e := by
  rw [inferInBy_firstUse]
  exact congrArg (inferIn scope) e.map_id.symm

end FirstUse

end TypedLisp
