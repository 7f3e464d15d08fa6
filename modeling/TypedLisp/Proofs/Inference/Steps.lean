import TypedLisp.Proofs.Demands
import TypedLisp.Proofs.Inference.Orders

/-!
# The steps of inference

What a successful run of each part of inference has done: the parts that make new variables, the
part that solves a join (`Join.Solved`), and the nodes of an expression. The expressions that a node
puts together are run one after the other, as by `inferAllBy`. Where a statement about runs is an
equivalence, it serves both to take a run apart and to show that there is one.
-/

namespace TypedLisp

variable {k k' : TyVar} {t : Ty}

/-! ## Keys and values -/

section Pairs

variable {α β : Type} {l : List α} {a : α}

theorem keys_map (f : α → β) (l : List α) : keys (l.map f) = (keys l).map f := by
  simp [keys, pairs_map]

theorem values_map (f : α → β) (l : List α) : values (l.map f) = (values l).map f := by
  simp [values, pairs_map]

theorem mem_of_mem_keys (h : a ∈ keys l) : a ∈ l := by
  obtain ⟨p, hp, rfl⟩ := List.mem_map.1 h
  exact (mem_of_mem_pairs hp).1

theorem mem_of_mem_values (h : a ∈ values l) : a ∈ l := by
  obtain ⟨p, hp, rfl⟩ := List.mem_map.1 h
  exact (mem_of_mem_pairs hp).2

theorem mem_keys_or_mem_values (hl : l.length % 2 = 0) (h : a ∈ l) :
    a ∈ keys l ∨ a ∈ values l := by
  unfold keys values
  fun_induction pairs l with
  | case1 k v rest ih =>
    have hrest : rest.length % 2 = 0 := by
      simp only [List.length_cons] at hl
      omega
    simp only [List.mem_cons] at h
    simp only [List.map_cons, List.mem_cons]
    rcases h with rfl | rfl | h
    · simp
    · simp
    · rcases ih hrest h with h | h <;> simp [h]
  | case2 l hne =>
    rcases l with _ | ⟨b, _ | ⟨c, l⟩⟩
    · simp at h
    · simp at hl
    · exact absurd rfl (hne b c l)

end Pairs

/-! ## New variables -/

/-- Whether a variable is from an interval. -/
def Between (k k' : Nat) (v : TyVar) : Prop := k ≤ v ∧ v < k'

theorem Between.mono {k₁ k₂ k₃ k₄ v : Nat} (h : Between k₂ k₃ v) (h₁ : k₁ ≤ k₂) (h₂ : k₃ ≤ k₄) :
    Between k₁ k₄ v :=
  ⟨Nat.le_trans h₁ h.1, Nat.lt_of_lt_of_le h.2 h₂⟩

theorem between_self (k : TyVar) : Between k (k + 1) k := ⟨Nat.le_refl _, Nat.lt_succ_self _⟩

section Below

variable {v : TyVar}

/-- The replacement that acts as one on the variables below a bound and as another on the rest. -/
def below (k : TyVar) (f g : TyVar → Ty) (v : TyVar) : Ty := if v < k then f v else g v

theorem below_of_lt (f g : TyVar → Ty) (h : v < k) : below k f g v = f v := if_pos h

theorem below_of_le (f g : TyVar → Ty) (h : k ≤ v) : below k f g v = g v :=
  if_neg (Nat.not_lt.2 h)

theorem below_self (k : TyVar) (f g : TyVar → Ty) : below k f g k = g k :=
  below_of_le f g (Nat.le_refl k)

end Below

theorem run_fresh : Infer.fresh.run k = .ok (t, k') ↔ t = .var k ∧ k' = k + 1 := by
  simp only [Infer.fresh, run_bind_eq_ok, run_get_eq_ok, run_set_eq_ok, run_pure_eq_ok]
  constructor
  · rintro ⟨_, _, ⟨rfl, rfl⟩, _, _, rfl, rfl, rfl⟩
    exact ⟨rfl, rfl⟩
  · rintro ⟨rfl, rfl⟩
    exact ⟨k, k, ⟨rfl, rfl⟩, ⟨⟩, k + 1, rfl, rfl, rfl⟩

theorem mem_freeVars {v : TyVar} : v ∈ t.freeVars ↔ v ∈ t.vars := by
  simp [Ty.freeVars]

theorem apply_fresh_vars {vs : List TyVar} {w : TyVar} (ht : t.vars ⊆ vs)
    (hw : w ∈ (t.apply (Subst.fresh vs k)).vars) : Between k (k + vs.length) w := by
  rw [Ty.apply_eq_bind, Ty.mem_vars_bind] at hw
  obtain ⟨v, hv, hw⟩ := hw
  exact Subst.mem_vars_toFun_fresh (ht hv) hw

/-- The type of a use of a var has new variables only, and the var may be used at it and at every
instance of it. -/
theorem run_ofVar {v : Var} (h : (Infer.ofVar v).run k = .ok (t, k')) :
    k ≤ k' ∧ (∀ w ∈ t.vars, Between k k' w) ∧ ∀ f : TyVar → Ty, v.Admits (t.bind f) := by
  unfold Infer.ofVar at h
  split at h
  · rename_i hv
    obtain ⟨rfl, rfl⟩ := run_fresh.1 h
    refine ⟨Nat.le_succ _, fun w hw => ?_, fun f u hu => by simp [hv] at hu⟩
    obtain rfl : w = k := by simpa [Ty.vars] using hw
    exact ⟨Nat.le_refl _, Nat.lt_succ_self _⟩
  · rename_i u hv
    simp only [run_bind_eq_ok, run_get_eq_ok, run_set_eq_ok, run_pure_eq_ok, Ty.instantiate] at h
    obtain ⟨_, _, ⟨rfl, rfl⟩, _, _, rfl, rfl, rfl⟩ := h
    refine ⟨Nat.le_add_right _ _, fun w hw => ?_, fun f u' hu' => ?_⟩
    · exact apply_fresh_vars (fun v hv => mem_freeVars.2 hv) hw
    · obtain rfl : u = u' := Option.some.inj (hv.symm.trans hu')
      rw [Ty.apply_eq_bind, Ty.bind_bind]
      exact Ty.instanceOf_bind u _

theorem exists_run_ofVar {v : Var} (h : v.Admits t) (k : TyVar) :
    ∃ u k' g, (Infer.ofVar v).run k = .ok (u, k') ∧ u.bind g = t := by
  unfold Infer.ofVar
  split
  · exact ⟨.var k, k + 1, fun _ => t, run_fresh.2 ⟨rfl, rfl⟩, rfl⟩
  · rename_i u hv
    obtain ⟨s, rfl⟩ := h u hv
    obtain ⟨g, hg⟩ := Subst.exists_bind_toFun_fresh u.freeVars k s.toFun
    refine ⟨u.apply (Subst.fresh u.freeVars k), k + u.freeVars.length, g, rfl, ?_⟩
    rw [Ty.apply_eq_bind, Ty.apply_eq_bind, Ty.bind_bind]
    exact Ty.bind_congr fun v hv => hg v (mem_freeVars.2 hv)

/-- The variables that a use of a local bound by `let` has made new. -/
def LetType.vars (b : LetType) : List TyVar := sortVars (b.ty.vars ++ b.demands.vars)

theorem run_ofLet {b u : LetType} : (Infer.ofLet b).run k = .ok (u, k') ↔
    u = ⟨b.ty.apply (Subst.fresh b.vars k), b.demands.apply (Subst.fresh b.vars k)⟩ ∧
      k' = k + b.vars.length := by
  simp only [Infer.ofLet, run_bind_eq_ok, run_get_eq_ok, run_set_eq_ok, run_pure_eq_ok]
  constructor
  · rintro ⟨_, _, ⟨rfl, rfl⟩, _, _, rfl, rfl, rfl⟩
    exact ⟨rfl, rfl⟩
  · rintro ⟨rfl, rfl⟩
    exact ⟨k, k, ⟨rfl, rfl⟩, ⟨⟩, _, rfl, rfl, rfl⟩

theorem run_ofParam {d : Demands} {x : Local} :
    (Infer.ofParam d x).run k = .ok (t, k') ↔
      d.lookup x = some t ∧ k' = k ∨ d.lookup x = none ∧ t = .var k ∧ k' = k + 1 := by
  unfold Infer.ofParam
  split
  · rename_i u hu
    rw [run_pure_eq_ok]
    simp [hu, eq_comm]
  · rename_i hu
    rw [run_fresh]
    simp [hu]

/-! ## Joins -/

/-- Whether a replacement makes the types of the locals of what is demanded of them. -/
def Demands.MetAt (d : Demands) (f : TyVar → Ty) (G : Local → Ty) : Prop :=
  ∀ z t, d.lookup z = some t → t.bind f = G z

theorem Demands.MetAt.congr {d : Demands} {f g : TyVar → Ty} {G : Local → Ty} (h : d.MetAt f G)
    (hg : ∀ v, d.Mentions v → g v = f v) : d.MetAt g G := fun z t ht => by
  rw [← h z t ht]
  exact Ty.bind_congr fun v hv => hg v ⟨z, t, ht, hv⟩

namespace Join

variable {j : Join} {order : JoinOrder} {r : Range} {k k' : TyVar} {t : Typing} {s : Subst}

theorem run_solve : (j.solve order r).run k = .ok (t, k') ↔ ∃ s,
    unify (j.equations ++ (j.merged order k).2.1) = .ok s ∧
      t = ⟨j.node.apply s, (j.merged order k).1.apply s⟩ ∧ k' = (j.merged order k).2.2 := by
  simp only [solve, run_bind_eq_ok, run_get_eq_ok, run_set_eq_ok]
  constructor
  · rintro ⟨_, _, ⟨rfl, rfl⟩, _, _, rfl, h⟩
    split at h
    · rename_i s hs
      obtain ⟨rfl, rfl⟩ := run_pure_eq_ok.1 h
      exact ⟨s, hs, rfl, rfl⟩
    · exact absurd h run_throw_ne_ok
  · rintro ⟨s, hs, rfl, rfl⟩
    refine ⟨k, k, ⟨rfl, rfl⟩, ⟨⟩, _, rfl, ?_⟩
    simp only [hs]
    rfl

theorem mem_arrange {x : Local} :
    x ∈ order.arrange (Demands.locals j.parts) ↔ ∃ d ∈ j.parts, ∃ t, d.lookup x = some t :=
  (order.perm _).mem_iff.trans Demands.mem_locals

/-- Whether a variable has a part in a join, or is new. -/
def Involved (j : Join) (k k' : TyVar) (v : TyVar) : Prop :=
  v ∈ Unify.vars j.equations ∨ Demands.NewOr j.parts k k' v

/-- What a substitution and a typing are to a join that they solve. -/
structure Solved (j : Join) (k k' : TyVar) (s : Subst) (t : Typing) : Prop where
  expr : t.expr = j.node.apply s
  le : k ≤ k'
  solves : Unify.Solves s.toFun j.equations
  fixes : ∀ v, ¬ j.Involved k k' v → s.toFun v = .var v
  vars : ∀ v w, w ∈ (s.toFun v).vars → w = v ∨ j.Involved k k' w
  mentions : ∀ w, t.demands.Mentions w → j.Involved k k' w
  /-- The demands of a part hold of the whole. -/
  lookup : ∀ d ∈ j.parts, ∀ x u, d.lookup x = some u → t.demands.lookup x = some (u.apply s)
  exists_lookup : ∀ x u, t.demands.lookup x = some u → ∃ d ∈ j.parts, ∃ w, d.lookup x = some w

theorem Solved.ty (h : j.Solved k k' s t) : t.ty = j.node.ann.apply s := by
  rw [Typing.ty, h.expr, Expr.apply, Expr.ann_map]

theorem exists_solved (h : (j.solve order r).run k = .ok (t, k')) : ∃ s, j.Solved k k' s t := by
  obtain ⟨s, hs, rfl, rfl⟩ := run_solve.1 h
  obtain ⟨hsolves, hagree⟩ := Unify.solves_append.1 (solves_unify hs)
  have hmem : ∀ v, v ∈ Unify.vars (j.equations ++ (j.merged order k).2.1) →
      j.Involved k (j.merged order k).2.2 v := fun v hv => by
    rw [Unify.vars_append, List.mem_append] at hv
    exact hv.imp_right fun hv => Demands.merge_vars (.inl hv)
  have hvars : ∀ v w, w ∈ (s.toFun v).vars → w = v ∨ j.Involved k (j.merged order k).2.2 w :=
    fun v w hw => (mem_vars_toFun_unify hs hw).imp_right (hmem w)
  refine ⟨s, rfl, Demands.le_merge _, hsolves, ?_, hvars, fun w hw => ?_, fun d hd x u hu => ?_,
    fun x u hu => ?_⟩
  · exact fun v hv => toFun_unify_of_not_mem hs fun hmem' => hv (hmem v hmem')
  · obtain ⟨v, hv, hw⟩ := Demands.mentions_apply hw
    rcases hvars v w hw with rfl | hw
    · exact .inr (Demands.merge_vars (.inr hv))
    · exact hw
  · obtain ⟨w, hw, hwt⟩ := Demands.lookup_merge hagree (mem_arrange.2 ⟨d, hd, u, hu⟩)
    refine Demands.lookup_apply_eq_some.2 ⟨w, hw, ?_⟩
    rw [Ty.apply_eq_bind, Ty.apply_eq_bind, hwt u (Demands.mem_on.2 ⟨d, hd, hu⟩)]
  · obtain ⟨w, hw, -⟩ := Demands.lookup_apply_eq_some.1 hu
    exact mem_arrange.1 (Demands.mem_of_lookup_merge hw)

/-- Whether all variables of a join are from an interval. -/
structure Within (j : Join) (k k' : TyVar) : Prop where
  parts : ∀ d ∈ j.parts, ∀ v, d.Mentions v → Between k k' v
  equations : ∀ v ∈ Unify.vars j.equations, Between k k' v
  node : ∀ a ∈ j.node.anns, ∀ v ∈ a.vars, Between k k' v

/-- If equations and demands can be met then the join is solved, and the solution is no more special
than the way in which they are met. -/
theorem Within.exists_run_solve {k₀ : TyVar} (h : j.Within k₀ k) {f : TyVar → Ty} {G : Local → Ty}
    (order : JoinOrder) (r : Range) (hf : Unify.Solves f j.equations)
    (hG : ∀ d ∈ j.parts, d.MetAt f G) :
    ∃ t k' g, (j.solve order r).run k = .ok (t, k') ∧
      t.expr.map (Ty.bind g) = j.node.map (Ty.bind f) ∧ t.demands.MetAt g G := by
  obtain ⟨g, hgf, hg, hgG⟩ := Demands.exists_solves_merge (order.arrange (Demands.locals j.parts))
    (fun d hd v hv => (h.parts d hd v hv).2) hG
  have hgeqs : Unify.Solves g j.equations := fun e he => by
    have hv : ∀ v, v ∈ e.1.vars ∨ v ∈ e.2.vars → g v = f v := fun v hv =>
      hgf v (h.equations v (Unify.mem_vars_iff.2 ⟨e, he, hv⟩)).2
    rw [Ty.bind_congr fun v h => hv v (.inl h), Ty.bind_congr fun v h => hv v (.inr h)]
    exact hf e he
  obtain ⟨s, hs, hgs⟩ := exists_unify (Unify.solves_append.2 ⟨hgeqs, hg⟩)
  refine ⟨_, _, g, run_solve.2 ⟨s, hs, rfl, rfl⟩, ?_, fun x u hu => ?_⟩
  · rw [Expr.apply, Expr.map_map]
    refine Expr.map_congr fun a ha => (hgs.bind_apply a).trans ?_
    exact Ty.bind_congr fun v hv => hgf v (h.node a ha v hv).2
  · obtain ⟨w, hw, rfl⟩ := Demands.lookup_apply_eq_some.1 hu
    rw [hgs.bind_apply, hgG x w hw]

end Join

/-! ## Nodes -/

section Nodes

variable {α : Type} {order : α → JoinOrder} {scope : LetScope} {k k' : TyVar}
variable {ts : List Typing} {e : Expr α} {es : List (Expr α)} {bs : List (Local × Expr α)}

theorem run_inferAll_nil :
    (inferAllBy order scope []).run k = .ok (ts, k') ↔ ts = [] ∧ k' = k := by
  rw [inferAllBy, run_pure_eq_ok]
  exact and_congr eq_comm eq_comm

theorem run_inferAll_cons :
    (inferAllBy order scope (e :: es)).run k = .ok (ts, k') ↔
      ∃ u us k₁, (inferInBy order scope e).run k = .ok (u, k₁) ∧
        (inferAllBy order scope es).run k₁ = .ok (us, k') ∧ ts = u :: us := by
  simp only [inferAllBy, run_bind_eq_ok, run_pure_eq_ok]
  constructor
  · rintro ⟨u, k₁, hu, us, _, hus, rfl, rfl⟩
    exact ⟨u, us, k₁, hu, hus, rfl⟩
  · rintro ⟨u, us, k₁, hu, hus, rfl⟩
    exact ⟨u, k₁, hu, us, k', hus, rfl, rfl⟩

theorem inferAll_length (h : (inferAllBy order scope es).run k = .ok (ts, k')) :
    ts.length = es.length := by
  induction es generalizing k ts with
  | nil =>
    obtain ⟨rfl, -⟩ := run_inferAll_nil.1 h
    rfl
  | cons e es ih =>
    obtain ⟨u, us, k₁, -, hus, rfl⟩ := run_inferAll_cons.1 h
    simp [ih hus]

theorem run_inferBindings_nil {r : List (Local × Typing) × LetScope} :
    (inferBindingsBy order scope []).run k = .ok (r, k') ↔ r = ([], scope) ∧ k' = k := by
  rw [inferBindingsBy, run_pure_eq_ok]
  exact and_congr eq_comm eq_comm

theorem run_inferBindings_cons {x : Local} {ts : List (Local × Typing)} {inner : LetScope} :
    (inferBindingsBy order scope ((x, e) :: bs)).run k = .ok ((ts, inner), k') ↔
      ∃ t us k₁, (inferInBy order scope e).run k = .ok (t, k₁) ∧
        (inferBindingsBy order ((x, ⟨t.ty, t.demands.without [x]⟩) :: scope) bs).run k₁ =
          .ok ((us, inner), k') ∧
        ts = (x, ⟨t.expr, t.demands.without [x]⟩) :: us := by
  simp only [inferBindingsBy, run_bind_eq_ok, run_pure_eq_ok]
  constructor
  · rintro ⟨t, k₁, ht, ⟨us, _⟩, _, hus, ⟨⟩, rfl⟩
    exact ⟨t, us, k₁, ht, hus, rfl⟩
  · rintro ⟨t, us, k₁, ht, hus, rfl⟩
    exact ⟨t, k₁, ht, (us, inner), k', hus, rfl, rfl⟩

variable {t : Typing} {n : Note α}

/-- The join of typed parts that are put together. -/
abbrev Former.join (φ : Former) (ts : List Typing) (τ : Ty) (eqs : List Equation)
    (parts : List Demands) (r : Range) : Join :=
  ⟨parts, eqs, φ.expr (ts.map (·.expr)) ⟨r, τ⟩⟩

theorem run_former {φ : Former} (h : φ.Takes es.length) :
    (inferInBy order scope (φ.expr es n)).run k = .ok (t, k') ↔
      ∃ ts k₁ τ eqs parts k₂, (inferAllBy order scope es).run k = .ok (ts, k₁) ∧
        φ.Takes ts.length ∧ (φ.ty ts).run k₁ = .ok ((τ, eqs, parts), k₂) ∧
        ((φ.join ts τ eqs parts n.range).solve (order n.ann) n.range).run k₂ = .ok (t, k') := by
  simp only [inferInBy_former _ h, run_bind_eq_ok]
  constructor
  · rintro ⟨ts, k₁, hts, ⟨τ, eqs, parts⟩, k₂, hτ, hs⟩
    exact ⟨ts, k₁, τ, eqs, parts, k₂, hts, inferAll_length hts ▸ h, hτ, hs⟩
  · rintro ⟨ts, k₁, τ, eqs, parts, k₂, hts, -, hτ, hs⟩
    exact ⟨ts, k₁, hts, (τ, eqs, parts), k₂, hτ, hs⟩

/-- The join of typed bindings and a typed body. -/
abbrev letJoin (ts : List (Local × Typing)) (u : Typing) (r : Range) : Join :=
  ⟨ts.map (·.2.demands) ++ [u.demands], [],
    .letIn (ts.map fun b => (b.1, b.2.expr)) u.expr ⟨r, u.ty⟩⟩

theorem run_letIn :
    (inferInBy order scope (.letIn bs e n)).run k = .ok (t, k') ↔
      ∃ ts inner k₁ u k₂ w, (inferBindingsBy order scope bs).run k = .ok ((ts, inner), k₁) ∧
        (inferInBy order inner e).run k₁ = .ok (u, k₂) ∧
        ((letJoin ts u n.range).solve (order n.ann) n.range).run k₂ = .ok (w, k') ∧
        t = ⟨w.expr, w.demands.without (ts.map Prod.fst)⟩ := by
  simp only [inferInBy, run_bind_eq_ok, run_pure_eq_ok]
  constructor
  · rintro ⟨⟨ts, inner⟩, k₁, hts, u, k₂, hu, w, _, hs, rfl, rfl⟩
    exact ⟨ts, inner, k₁, u, k₂, w, hts, hu, hs, rfl⟩
  · rintro ⟨ts, inner, k₁, u, k₂, w, hts, hu, hs, rfl⟩
    exact ⟨(ts, inner), k₁, hts, u, k₂, hu, w, k', hs, rfl, rfl⟩

theorem run_fn {ps : List Local} :
    (inferInBy order scope (.fn ps e n)).run k = .ok (t, k') ↔
      ∃ u k₁ ts, (inferInBy order scope e).run k = .ok (u, k₁) ∧
        (ps.mapM (Infer.ofParam u.demands)).run k₁ = .ok (ts, k') ∧
        t = ⟨.fn ps u.expr ⟨n.range, .fn ts u.ty⟩, u.demands.without ps⟩ := by
  simp only [inferInBy, run_bind_eq_ok, run_pure_eq_ok]
  constructor
  · rintro ⟨u, k₁, hu, ts, _, hts, rfl, rfl⟩
    exact ⟨u, k₁, ts, hu, hts, rfl⟩
  · rintro ⟨u, k₁, ts, hu, hts, rfl⟩
    exact ⟨u, k₁, hu, ts, k', hts, rfl, rfl⟩

theorem run_define {g : GlobalName} {declared : Option Ty} :
    (inferInBy order scope (.define g declared e n)).run k = .ok (t, k') ↔
      ∃ u, (inferInBy order scope e).run k = .ok (u, k') ∧
        (∀ d, declared = some d → d.subtypeOf u.ty = true) ∧
        t = ⟨.define g declared u.expr ⟨n.range, .effect⟩, u.demands⟩ := by
  simp only [inferInBy, run_bind_eq_ok]
  constructor
  · rintro ⟨u, k₁, hu, h⟩
    cases declared with
    | none =>
      obtain ⟨rfl, rfl⟩ := run_pure_eq_ok.1 h
      exact ⟨u, hu, by simp, rfl⟩
    | some d =>
      by_cases hd : d.subtypeOf u.ty = true
      · simp only [hd, if_true] at h
        obtain ⟨rfl, rfl⟩ := run_pure_eq_ok.1 h
        exact ⟨u, hu, by simpa using hd, rfl⟩
      · simp only [hd, Bool.false_eq_true, if_false] at h
        exact absurd h run_throw_ne_ok
  · rintro ⟨u, hu, hd, rfl⟩
    refine ⟨u, k', hu, ?_⟩
    cases declared with
    | none => rfl
    | some d =>
      simp only [hd d rfl, if_true]
      rfl

theorem run_inferBy {e : Expr α} {t : Expr Ty} : (inferBy order e).run k = .ok (t, k') ↔
    ∃ u, (inferInBy order [] e).run k = .ok (u, k') ∧ u.expr = t := by
  simp only [inferBy, run_bind_eq_ok, run_pure_eq_ok]
  constructor
  · rintro ⟨u, _, hu, rfl, rfl⟩
    exact ⟨u, hu, rfl⟩
  · rintro ⟨u, hu, rfl⟩
    exact ⟨u, k', hu, rfl, rfl⟩

end Nodes

/-! ## Collections -/

section Collections

variable {kind : Collection} {ts : List Typing} {k k' : TyVar} {τ : Ty} {eqs : List Equation}
  {parts : List Demands}
variable {f : TyVar → Ty}

theorem mem_vars_equations {v w : TyVar} :
    w ∈ Unify.vars (ts.map fun i => (Ty.var v, i.ty)) → w = v ∨ ∃ t ∈ ts, w ∈ t.ty.vars := by
  intro h
  obtain ⟨e, he, hw⟩ := Unify.mem_vars_iff.1 h
  obtain ⟨t, ht, rfl⟩ := List.mem_map.1 he
  rcases hw with hw | hw
  · exact .inl (by simpa [Ty.vars] using hw)
  · exact .inr ⟨t, ht, hw⟩

/-- The variables of the type of a collection are new, and those of the equations are new or of the
items. -/
theorem collectionTy_vars (h : (collectionTy kind ts).run k = .ok ((τ, eqs, parts), k')) :
    k ≤ k' ∧ (∀ v ∈ τ.vars, Between k k' v) ∧
      ∀ v ∈ Unify.vars eqs, Between k k' v ∨ ∃ t ∈ ts, v ∈ t.ty.vars := by
  have hk : Between k (k + 1) k := ⟨Nat.le_refl _, Nat.lt_succ_self _⟩
  cases kind with
  | vector | set =>
    obtain ⟨⟨⟩⟩ := h
    refine ⟨Nat.le_succ _, fun v hv => ?_, fun v hv => ?_⟩
    · obtain rfl : v = k := by simpa [Ty.vars] using hv
      exact hk
    · rcases mem_vars_equations hv with rfl | hv
      · exact .inl hk
      · exact .inr hv
  | map =>
    obtain ⟨⟨⟩⟩ := h
    have hk₀ : Between k (k + 1 + 1) k := hk.mono (Nat.le_refl _) (Nat.le_succ _)
    have hk₁ : Between k (k + 1 + 1) (k + 1) := ⟨Nat.le_succ _, Nat.lt_succ_self _⟩
    refine ⟨Nat.le_add_right k 2, fun v hv => ?_, fun v hv => ?_⟩
    · obtain rfl | rfl : v = k ∨ v = k + 1 := by simpa [Ty.vars] using hv
      · exact hk₀
      · exact hk₁
    · rw [Unify.vars_append, List.mem_append] at hv
      rcases hv with hv | hv
      · rcases mem_vars_equations hv with rfl | ⟨t, ht, hv⟩
        · exact .inl hk₀
        · exact .inr ⟨t, mem_of_mem_keys ht, hv⟩
      · rcases mem_vars_equations hv with rfl | ⟨t, ht, hv⟩
        · exact .inl hk₁
        · exact .inr ⟨t, mem_of_mem_values ht, hv⟩

theorem mem_collectionTy_parts (h : (collectionTy kind ts).run k = .ok ((τ, eqs, parts), k'))
    (heven : kind = .map → ts.length % 2 = 0) {d : Demands} :
    d ∈ parts ↔ d ∈ ts.map (·.demands) := by
  cases kind with
  | vector | set =>
    obtain ⟨⟨⟩⟩ := h
    rfl
  | map =>
    obtain ⟨⟨⟩⟩ := h
    simp only [List.mem_map, List.mem_append]
    constructor
    · rintro ⟨t, ht | ht, rfl⟩
      · exact ⟨t, mem_of_mem_keys ht, rfl⟩
      · exact ⟨t, mem_of_mem_values ht, rfl⟩
    · rintro ⟨t, ht, rfl⟩
      exact ⟨t, mem_keys_or_mem_values (heven rfl) ht, rfl⟩

theorem mem_of_mem_collectionTy_parts
    (h : (collectionTy kind ts).run k = .ok ((τ, eqs, parts), k')) {d : Demands} (hd : d ∈ parts) :
    d ∈ ts.map (·.demands) := by
  cases kind with
  | vector | set =>
    obtain ⟨⟨⟩⟩ := h
    exact hd
  | map =>
    obtain ⟨⟨⟩⟩ := h
    obtain ⟨t, ht, rfl⟩ := List.mem_map.1 hd
    rcases List.mem_append.1 ht with ht | ht
    · exact List.mem_map_of_mem (mem_of_mem_keys ht)
    · exact List.mem_map_of_mem (mem_of_mem_values ht)

theorem solves_equations {v : TyVar} :
    Unify.Solves f (ts.map fun i => (Ty.var v, i.ty)) ↔ ∀ t ∈ ts, t.ty.bind f = f v := by
  simp only [Unify.Solves, List.forall_mem_map, Ty.bind, eq_comm]

/-- A solution of the equations gives the collection and its items types that fit. -/
theorem collection_holds_of_solves (h : (collectionTy kind ts).run k = .ok ((τ, eqs, parts), k'))
    (hf : Unify.Solves f eqs) : kind.Holds (ts.map (·.ty.bind f)) (τ.bind f) := by
  cases kind with
  | vector | set =>
    obtain ⟨⟨⟩⟩ := h
    exact ⟨f k, rfl, List.forall_mem_map.2 (solves_equations.1 hf)⟩
  | map =>
    obtain ⟨⟨⟩⟩ := h
    obtain ⟨hkeys, hvalues⟩ := Unify.solves_append.1 hf
    refine ⟨f k, f (k + 1), rfl, ?_, ?_⟩
    · rw [keys_map]
      exact List.forall_mem_map.2 (solves_equations.1 hkeys)
    · rw [values_map]
      exact List.forall_mem_map.2 (solves_equations.1 hvalues)

/-- If a collection and its items can be given types that fit, then new variables can be chosen so
that the equations hold. -/
theorem exists_run_collectionTy {T : Ty} (hT : kind.Holds (ts.map (·.ty.bind f)) T)
    (hlt : ∀ t ∈ ts, ∀ v ∈ t.ty.vars, v < k) :
    ∃ τ eqs parts k' g, (collectionTy kind ts).run k = .ok ((τ, eqs, parts), k') ∧
      (∀ v < k, g v = f v) ∧ Unify.Solves g eqs ∧ τ.bind g = T := by
  cases kind with
  | vector | set =>
    obtain ⟨e, rfl, he⟩ := hT
    refine ⟨_, _, _, _, fun v => if v < k then f v else e, rfl, fun v hv => if_pos hv, ?_, ?_⟩
    · refine solves_equations.2 fun t ht => ?_
      rw [if_neg (Nat.lt_irrefl k), ← he _ (List.mem_map_of_mem ht)]
      exact Ty.bind_congr fun v hv => if_pos (hlt t ht v hv)
    · simp [Ty.bind]
  | map =>
    obtain ⟨a, b, rfl, ha, hb⟩ := hT
    rw [keys_map] at ha
    rw [values_map] at hb
    set g : TyVar → Ty := fun v => if v < k then f v else if v = k then a else b with hg
    have hgk : g k = a := by simp [hg]
    have hgk₁ : g (k + 1) = b := by
      simp [hg, show ¬ k + 1 < k from Nat.not_lt.2 (Nat.le_succ k)]
    have hgt : ∀ t ∈ ts, t.ty.bind g = t.ty.bind f := fun t ht =>
      Ty.bind_congr fun v hv => if_pos (hlt t ht v hv)
    refine ⟨_, _, _, _, g, rfl, fun v hv => if_pos hv, Unify.solves_append.2 ⟨?_, ?_⟩, ?_⟩
    · refine solves_equations.2 fun t ht => ?_
      rw [hgt t (mem_of_mem_keys ht), hgk]
      exact ha _ (List.mem_map_of_mem ht)
    · refine solves_equations.2 fun t ht => ?_
      rw [hgt t (mem_of_mem_values ht), hgk₁]
      exact hb _ (List.mem_map_of_mem ht)
    · simp only [Ty.bind, hgk, hgk₁]

end Collections

/-! ## Formers -/

namespace Former

variable {φ : Former} {ts : List Typing} {k k' : TyVar} {τ : Ty} {eqs : List Equation}
  {parts : List Demands} {f : TyVar → Ty}

/-- The variables of the type that is put together and of the equations are new or of the parts. -/
theorem ty_vars (hφ : φ.Takes ts.length) (h : (φ.ty ts).run k = .ok ((τ, eqs, parts), k')) :
    k ≤ k' ∧ ∀ v, v ∈ τ.vars ∨ v ∈ Unify.vars eqs →
      Between k k' v ∨ ∃ t ∈ ts.map (·.ty), v ∈ t.vars := by
  have hk : ∀ v, v = k → k < k' → Between k k' v := fun v hv hlt => by
    subst hv
    exact ⟨Nat.le_refl _, hlt⟩
  cases φ with
  | collection kind =>
    obtain ⟨hle, hτ, heqs⟩ := collectionTy_vars h
    refine ⟨hle, fun v hv => hv.elim (fun hv => .inl (hτ v hv)) fun hv => ?_⟩
    exact (heqs v hv).imp_right (by simp)
  | call =>
    obtain ⟨u, ts, rfl⟩ := List.exists_cons_of_length_pos hφ
    obtain ⟨⟨⟩⟩ := h
    refine ⟨Nat.le_succ _, fun v hv => ?_⟩
    obtain rfl | hv | ⟨t, ht, hv⟩ : v = k ∨ v ∈ u.ty.vars ∨ ∃ t ∈ ts, v ∈ t.ty.vars := by
      simp [Unify.vars, Ty.vars] at hv
      tauto
    · exact .inl (hk v rfl (Nat.lt_succ_self _))
    · exact .inr ⟨u.ty, by simp, hv⟩
    · exact .inr ⟨t.ty, by simpa using .inr ⟨t, ht, rfl⟩, hv⟩
  | callVar w =>
    simp only [ty, run_bind_eq_ok, run_pure_eq_ok, run_fresh] at h
    obtain ⟨_, _, ⟨rfl, rfl⟩, c, _, hc, ⟨⟩, rfl⟩ := h
    obtain ⟨hle, hcv, -⟩ := run_ofVar hc
    refine ⟨Nat.le_of_succ_le hle, fun v hv => ?_⟩
    obtain rfl | hv | ⟨t, ht, hv⟩ : v = k ∨ v ∈ c.vars ∨ ∃ t ∈ ts, v ∈ t.ty.vars := by
      simp [Unify.vars, Ty.vars] at hv
      tauto
    · exact .inl (hk v rfl hle)
    · exact .inl ((hcv v hv).mono (Nat.le_succ _) (Nat.le_refl _))
    · exact .inr ⟨t.ty, List.mem_map_of_mem ht, hv⟩
  | ite =>
    obtain ⟨u₁, u₂, u₃, rfl⟩ := List.length_eq_three.1 hφ
    obtain ⟨⟨⟩⟩ := h
    refine ⟨Nat.le_succ _, fun v hv => ?_⟩
    obtain rfl | hv : v = k ∨ v ∈ u₁.ty.vars ∨ v ∈ u₂.ty.vars ∨ v ∈ u₃.ty.vars := by
      simp [Unify.vars, Ty.vars] at hv
      tauto
    · exact .inl (hk v rfl (Nat.lt_succ_self _))
    · exact .inr (by simpa using hv)

theorem mem_parts (hφ : φ.Takes ts.length) (h : (φ.ty ts).run k = .ok ((τ, eqs, parts), k'))
    (heven : φ = .collection .map → ts.length % 2 = 0) {d : Demands} :
    d ∈ parts ↔ d ∈ ts.map (·.demands) := by
  cases φ with
  | collection kind => exact mem_collectionTy_parts h fun hk => heven (hk ▸ rfl)
  | call =>
    obtain ⟨u, ts, rfl⟩ := List.exists_cons_of_length_pos hφ
    obtain ⟨⟨⟩⟩ := h
    rfl
  | callVar w =>
    simp only [ty, run_bind_eq_ok, run_pure_eq_ok] at h
    obtain ⟨_, _, -, c, _, -, ⟨⟩, rfl⟩ := h
    rfl
  | ite =>
    obtain ⟨u₁, u₂, u₃, rfl⟩ := List.length_eq_three.1 hφ
    obtain ⟨⟨⟩⟩ := h
    rfl

theorem parts_subset (hφ : φ.Takes ts.length) (h : (φ.ty ts).run k = .ok ((τ, eqs, parts), k')) :
    parts ⊆ ts.map (·.demands) := fun d hd => by
  by_cases hmap : φ = .collection .map
  · subst hmap
    replace h : (collectionTy .map ts).run k = .ok ((τ, eqs, parts), k') := h
    exact mem_of_mem_collectionTy_parts h hd
  · exact (mem_parts hφ h fun hφ => absurd hφ hmap).1 hd

/-- A solution of the equations gives the whole and its parts types that fit. -/
theorem holds_of_solves (hφ : φ.Takes ts.length) (h : (φ.ty ts).run k = .ok ((τ, eqs, parts), k'))
    (hf : Unify.Solves f eqs) : φ.Holds (ts.map (·.ty.bind f)) (τ.bind f) := by
  cases φ with
  | collection kind => exact collection_holds_of_solves h hf
  | call =>
    obtain ⟨u, ts, rfl⟩ := List.exists_cons_of_length_pos hφ
    obtain ⟨⟨⟩⟩ := h
    simpa [Holds, Ty.bind, Function.comp_def] using hf
  | callVar w =>
    simp only [ty, run_bind_eq_ok, run_pure_eq_ok, run_fresh] at h
    obtain ⟨_, _, ⟨rfl, rfl⟩, c, _, hc, ⟨⟩, rfl⟩ := h
    have hadmits := (run_ofVar hc).2.2 f
    rw [hf _ (List.mem_singleton_self _)] at hadmits
    simpa [Holds, Ty.bind, Function.comp_def] using hadmits
  | ite =>
    obtain ⟨u₁, u₂, u₃, rfl⟩ := List.length_eq_three.1 hφ
    obtain ⟨⟨⟩⟩ := h
    simp only [Unify.solves_cons, Unify.solves_nil, and_true] at hf
    exact ⟨hf.1, hf.2.1.symm, hf.2.2.symm⟩

/-- If the whole and its parts can be given types that fit, then new variables can be chosen so that
the equations hold. -/
theorem exists_run_ty (hφ : φ.Takes ts.length) {T : Ty} (hT : φ.Holds (ts.map (·.ty.bind f)) T)
    (hlt : ∀ t ∈ ts, ∀ v ∈ t.ty.vars, v < k) :
    ∃ τ eqs parts k' g, (φ.ty ts).run k = .ok ((τ, eqs, parts), k') ∧ (∀ v < k, g v = f v) ∧
      Unify.Solves g eqs ∧ τ.bind g = T := by
  -- the first new variable stands for the type of the whole
  have hbelow : ∀ g : TyVar → Ty, ts.map (·.ty.bind (below k f g)) = ts.map (·.ty.bind f) := fun g =>
    List.map_congr_left fun t ht => Ty.bind_congr fun v hv => below_of_lt f g (hlt t ht v hv)
  have hself := below_self k f fun _ => T
  cases φ with
  | collection kind => exact exists_run_collectionTy hT hlt
  | call =>
    obtain ⟨u, ts, rfl⟩ := List.exists_cons_of_length_pos hφ
    refine ⟨_, _, _, _, below k f fun _ => T, rfl, fun v hv => below_of_lt f _ hv, ?_, hself⟩
    obtain ⟨hu, hts⟩ := List.cons.inj (hbelow fun _ => T)
    simp [Ty.bind, hu, hself, Function.comp_def, hts, show u.ty.bind f = .fn _ T from hT]
  | callVar w =>
    obtain ⟨u, k₂, g, hu, hg⟩ := exists_run_ofVar hT (k + 1)
    have hnew : ∀ v ∈ u.vars, below k f (below (k + 1) (fun _ => T) g) v = g v := fun v hv => by
      have hv := ((run_ofVar hu).2.1 v hv).1
      rw [below_of_le _ _ (Nat.le_of_succ_le hv), below_of_le _ _ hv]
    have hk : below k f (below (k + 1) (fun _ => T) g) k = T := by
      rw [below_self, below_of_lt _ _ (Nat.lt_succ_self _)]
    refine ⟨.var k, [(u, .fn (ts.map (·.ty)) (.var k))], ts.map (·.demands), k₂,
      below k f (below (k + 1) (fun _ => T) g), ?_, fun v hv => below_of_lt f _ hv, ?_, hk⟩
    · simp only [ty, run_bind_eq_ok, run_pure_eq_ok, run_fresh]
      exact ⟨_, _, ⟨rfl, rfl⟩, u, k₂, hu, rfl, rfl⟩
    · simp [Ty.bind, Ty.bind_congr hnew, hg, hk, Function.comp_def, hbelow]
  | ite =>
    obtain ⟨u₁, u₂, u₃, rfl⟩ := List.length_eq_three.1 hφ
    refine ⟨_, _, _, _, below k f fun _ => T, rfl, fun v hv => below_of_lt f _ hv, ?_, hself⟩
    obtain ⟨h₁, h₂, h₃⟩ : u₁.ty.bind f = .bool ∧ u₂.ty.bind f = T ∧ u₃.ty.bind f = T := hT
    have hts := hbelow fun _ => T
    simp only [List.map_cons, List.map_nil, List.cons.injEq, and_true] at hts
    simp [Ty.bind, hts, h₁, h₂, h₃, hself]

end Former

/-! ## Parameters -/

section Params

variable {d : Demands} {ps : List Local} {k k' : TyVar} {ts : List Ty}

theorem run_params_cons {p : Local} :
    ((p :: ps).mapM (Infer.ofParam d)).run k = .ok (ts, k') ↔
      ∃ u us k₁, (Infer.ofParam d p).run k = .ok (u, k₁) ∧
        (ps.mapM (Infer.ofParam d)).run k₁ = .ok (us, k') ∧ ts = u :: us := by
  simp only [List.mapM_cons, run_bind_eq_ok, run_pure_eq_ok]
  constructor
  · rintro ⟨u, k₁, hu, us, _, hus, rfl, rfl⟩
    exact ⟨u, us, k₁, hu, hus, rfl⟩
  · rintro ⟨u, us, k₁, hu, hus, rfl⟩
    exact ⟨u, k₁, hu, us, k', hus, rfl, rfl⟩

/-- The types of parameters are those that the body demands, or new variables. -/
theorem params_vars (h : (ps.mapM (Infer.ofParam d)).run k = .ok (ts, k')) :
    k ≤ k' ∧ ts.length = ps.length ∧
      ∀ t ∈ ts, ∀ v ∈ t.vars, Between k k' v ∨ d.Mentions v := by
  induction ps generalizing k ts with
  | nil =>
    obtain ⟨rfl, rfl⟩ := run_pure_eq_ok.1 h
    simp
  | cons p ps ih =>
    obtain ⟨u, us, k₁, hu, hus, rfl⟩ := run_params_cons.1 h
    obtain ⟨hle, hlen, hvars⟩ := ih hus
    rcases run_ofParam.1 hu with ⟨hp, rfl⟩ | ⟨-, rfl, rfl⟩
    · refine ⟨hle, by simp [hlen], List.forall_mem_cons.2 ⟨fun v hv => ?_, hvars⟩⟩
      exact .inr ⟨p, u, hp, hv⟩
    · refine ⟨Nat.le_trans (Nat.le_succ k) hle, by simp [hlen],
        List.forall_mem_cons.2 ⟨fun v hv => ?_, fun t ht v hv => ?_⟩⟩
      · obtain rfl : v = k := by simpa [Ty.vars] using hv
        exact .inl ⟨Nat.le_refl _, hle⟩
      · exact (hvars t ht v hv).imp_left fun h => h.mono (Nat.le_succ k) (Nat.le_refl _)

theorem lookup_params (h : (ps.mapM (Infer.ofParam d)).run k = .ok (ts, k')) {x : Local} {t : Ty}
    (hx : x ∈ ps) (ht : d.lookup x = some t) : (ps.zip ts).lookup x = some t := by
  induction ps generalizing k ts with
  | nil => simp at hx
  | cons p ps ih =>
    obtain ⟨u, us, k₁, hu, hus, rfl⟩ := run_params_cons.1 h
    rw [List.zip_cons_cons]
    by_cases hxp : x = p
    · subst hxp
      rcases run_ofParam.1 hu with ⟨hu, -⟩ | ⟨hnone, -⟩
      · rw [List.lookup_cons_self, ← hu, ht]
      · rw [ht] at hnone
        cases hnone
    · rw [lookup_cons_of_ne hxp]
      exact ih hus (by simpa [hxp] using hx)

/-- If parameters have types that the demands on them can be given, then new variables can be chosen
so that their inferred types become these. -/
theorem exists_run_params {f : TyVar → Ty} {Ts : List Ty} (hlen : Ts.length = ps.length)
    (hnodup : ps.Nodup) (hlt : ∀ v, d.Mentions v → v < k)
    (hd : ∀ x ∈ ps, ∀ t, d.lookup x = some t → (ps.zip Ts).lookup x = some (t.bind f)) :
    ∃ ts k' g, (ps.mapM (Infer.ofParam d)).run k = .ok (ts, k') ∧ (∀ v < k, g v = f v) ∧
      ts.map (Ty.bind g) = Ts := by
  induction ps generalizing k f Ts with
  | nil =>
    obtain rfl : Ts = [] := List.eq_nil_of_length_eq_zero hlen
    exact ⟨[], k, f, rfl, fun _ _ => rfl, rfl⟩
  | cons p ps ih =>
    obtain ⟨T, Ts, rfl⟩ := List.exists_cons_of_length_eq_add_one hlen
    obtain ⟨hp, hnodup⟩ := List.nodup_cons.1 hnodup
    have hlen : Ts.length = ps.length := by simpa using hlen
    have hd' : ∀ x ∈ ps, ∀ t, d.lookup x = some t → (ps.zip Ts).lookup x = some (t.bind f) :=
      fun x hx t ht => by
        have hxp : x ≠ p := fun h => hp (h ▸ hx)
        rw [← hd x (List.mem_cons_of_mem _ hx) t ht, List.zip_cons_cons, lookup_cons_of_ne hxp]
    cases hdp : d.lookup p with
    | some t =>
      obtain ⟨ts, k', g, hts, hgf, hg⟩ := ih hlen hnodup hlt hd'
      refine ⟨t :: ts, k', g, ?_, hgf, ?_⟩
      · exact run_params_cons.2 ⟨t, ts, k, run_ofParam.2 (.inl ⟨hdp, rfl⟩), hts, rfl⟩
      · have hT : T = t.bind f := by
          have := hd p List.mem_cons_self t hdp
          rwa [List.zip_cons_cons, List.lookup_cons_self, Option.some.injEq] at this
        rw [List.map_cons, hg, hT]
        exact congrArg (· :: Ts) (Ty.bind_congr fun v hv => hgf v (hlt v ⟨p, t, hdp, hv⟩))
    | none =>
      -- the parameter is not used, and its new variable stands for its type
      set f' : TyVar → Ty := fun v => if v = k then T else f v
      have hff' : ∀ v < k, f' v = f v := fun v hv => if_neg (Nat.ne_of_lt hv)
      obtain ⟨ts, k', g, hts, hgf, hg⟩ := ih (f := f') hlen hnodup
        (fun v hv => Nat.lt_succ_of_lt (hlt v hv)) (fun x hx t ht => by
          rw [hd' x hx t ht]
          exact congrArg some (Ty.bind_congr fun v hv => (hff' v (hlt v ⟨x, t, ht, hv⟩)).symm))
      refine ⟨.var k :: ts, k', g, ?_, fun v hv => ?_, ?_⟩
      · exact run_params_cons.2 ⟨_, ts, k + 1, run_ofParam.2 (.inr ⟨hdp, rfl, rfl⟩), hts, rfl⟩
      · exact (hgf v (Nat.lt_succ_of_lt hv)).trans (hff' v hv)
      · have hgk : g k = T := (hgf k (Nat.lt_succ_self k)).trans (if_pos rfl)
        rw [List.map_cons, hg, Ty.bind, hgk]

end Params

end TypedLisp
