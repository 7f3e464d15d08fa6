import TypedLisp.Proofs.Inference.Variables
import TypedLisp.Proofs.Runtime.Lowering

/-!
# The locals that a typing demands something of

A use of a parameter demands something of the parameter, and a use of a local bound by `let` demands
something of the locals that the expression of its binding does. A typing makes the demands of the
uses in its expression, no more and no less: they are on the locals that the free locals of the
expression lead to (**`inferInBy_isOn_iff`**). The types of the demands have no part in that.
-/

namespace TypedLisp

variable {α : Type} {order : α → JoinOrder} {scope : LetScope} {bound : List Local}
  {bs : List (Local × Expr α)}

/-- Whether something is demanded of a local. -/
def Demands.IsOn (d : Demands) (z : Local) : Prop := ∃ t, d.lookup z = some t

/-- Whether a use of a local demands something of another one. -/
def LetScope.LeadsTo (scope : LetScope) (y z : Local) : Prop :=
  match scope.lookup y with
  | some b => b.demands.IsOn z
  | none => z = y

/-- Whether the `let`s in scope are of bound locals, and demand something of bound locals only. -/
structure LetScope.Inside (scope : LetScope) (bound : List Local) : Prop where
  lets : ∀ y b, scope.lookup y = some b → y ∈ bound
  demands : ∀ y b, scope.lookup y = some b → ∀ z, b.demands.IsOn z → z ∈ bound

namespace Demands

variable {d : Demands} {z : Local}

theorem isOn_without {xs : List Local} : (d.without xs).IsOn z ↔ z ∉ xs ∧ d.IsOn z := by
  simp only [IsOn, lookup_without_eq_some, exists_and_left]

theorem isOn_apply {s : Subst} : (d.apply s).IsOn z ↔ d.IsOn z := by
  simp only [IsOn, lookup_apply_eq_some]
  exact ⟨fun ⟨_, u, hu, _⟩ => ⟨u, hu⟩, fun ⟨u, hu⟩ => ⟨_, u, hu, rfl⟩⟩

/-- A join that is solved demands something of the locals of which its parts do. -/
theorem isOn_of_solved {j : Join} {k k' : TyVar} {s : Subst} {t : Typing}
    (h : j.Solved k k' s t) : t.demands.IsOn z ↔ ∃ d ∈ j.parts, d.IsOn z :=
  ⟨fun ⟨u, hu⟩ => h.exists_lookup z u hu, fun ⟨d, hd, u, hu⟩ => ⟨_, h.lookup d hd z u hu⟩⟩

end Demands

namespace LetScope

variable {scope : LetScope} {bound : List Local}
variable {x z : Local}

theorem leadsTo_cons_self {b : LetType} : LeadsTo ((x, b) :: scope) x z ↔ b.demands.IsOn z := by
  simp [LeadsTo]

theorem leadsTo_cons_of_ne {y : Local} (h : y ≠ x) {b : LetType} :
    LeadsTo ((x, b) :: scope) y z ↔ scope.LeadsTo y z := by
  simp only [LeadsTo, lookup_cons_of_ne h]

namespace Inside

variable {y z : Local}

theorem lookup_eq_none (h : scope.Inside bound) (hy : y ∉ bound) : scope.lookup y = none := by
  cases hb : scope.lookup y with
  | none => rfl
  | some b => exact absurd (h.lets y b hb) hy

theorem mono (h : scope.Inside bound) {bound' : List Local} (hb : bound ⊆ bound') :
    scope.Inside bound' :=
  ⟨fun y b hy => hb (h.lets y b hy), fun y b hy z hz => hb (h.demands y b hy z hz)⟩

theorem mem_of_leadsTo (h : scope.Inside bound) (hy : y ∈ bound) (hz : scope.LeadsTo y z) :
    z ∈ bound := by
  unfold LeadsTo at hz
  split at hz
  · rename_i b hb
    exact h.demands y b hb z hz
  · exact hz ▸ hy

theorem leadsTo_iff_of_notMem (h : scope.Inside bound) (hy : y ∉ bound) :
    scope.LeadsTo y z ↔ z = y := by
  simp only [LeadsTo, h.lookup_eq_none hy]

theorem bind (h : scope.Inside bound) (x : Local) {b : LetType}
    (hb : ∀ z, b.demands.IsOn z → z ∈ bound) : Inside ((x, b) :: scope) (x :: bound) := by
  refine ⟨fun y b' hy => ?_, fun y b' hy z hz => ?_⟩
  · obtain ⟨rfl, -⟩ | ⟨-, hy⟩ := lookup_cons_eq_some.1 hy
    · exact List.mem_cons_self
    · exact List.mem_cons_of_mem _ (h.lets y b' hy)
  · obtain ⟨-, rfl⟩ | ⟨-, hy⟩ := lookup_cons_eq_some.1 hy
    · exact List.mem_cons_of_mem _ (hb z hz)
    · exact List.mem_cons_of_mem _ (h.demands y b' hy z hz)

end Inside

end LetScope

/-! ## Expressions -/

/-- Whether inference of an expression makes the demands of the uses in it. -/
def IsOnOf (order : α → JoinOrder) (e : Expr α) : Prop :=
  ∀ {scope : LetScope} {bound : List Local} {k k' : TyVar} {t : Typing},
    (inferInBy order scope e).run k = .ok (t, k') → e.Scoped bound → scope.Inside bound →
      ∀ z, t.demands.IsOn z ↔ ∃ y ∈ e.freeLocals [], scope.LeadsTo y z

theorem inferAllBy_isOn_of {es : List (Expr α)} (h : ∀ e ∈ es, IsOnOf order e) {k k' : TyVar}
    {ts : List Typing} (hts : (inferAllBy order scope es).run k = .ok (ts, k'))
    (hes : Expr.ScopedAll bound es) (hscope : scope.Inside bound) (z : Local) :
    (∃ d ∈ ts.map (·.demands), d.IsOn z) ↔
      ∃ y ∈ Expr.freeLocalsAll [] es, scope.LeadsTo y z := by
  induction es generalizing k ts with
  | nil =>
    obtain ⟨rfl, -⟩ := run_inferAll_nil.1 hts
    simp [Expr.freeLocalsAll]
  | cons e es ih =>
    obtain ⟨u, us, k₁, hu, hus, rfl⟩ := run_inferAll_cons.1 hts
    obtain ⟨he, htail⟩ := List.forall_mem_cons.1 h
    rw [List.map_cons, List.exists_mem_cons_iff, he hu hes.1 hscope z, ih htail hus hes.2,
      Expr.freeLocalsAll]
    simp only [List.mem_append, or_and_right, exists_or]

/-- What is known of the scope after bindings, and of the demands of the bindings. -/
structure BindingsLead (scope inner : LetScope) (bound : List Local)
    (bs : List (Local × Expr α)) (ts : List (Local × Typing)) : Prop where
  inside : inner.Inside ((bs.map Prod.fst).reverse ++ bound)
  names : ts.map Prod.fst = bs.map Prod.fst
  isOn : ∀ z, (∃ d ∈ ts.map (·.2.demands), d.IsOn z) ↔
    ∃ y ∈ Expr.freeLocalsLet [] bs, scope.LeadsTo y z
  /-- A new local leads to what the bindings make demands on. -/
  new : ∀ y ∈ bs.map Prod.fst, ∀ z, inner.LeadsTo y z →
    ∃ y' ∈ Expr.freeLocalsLet [] bs, scope.LeadsTo y' z
  old : ∀ y, y ∉ bs.map Prod.fst → ∀ z, inner.LeadsTo y z ↔ scope.LeadsTo y z

/-- The locals that lead somewhere from later bindings are those of these bindings, where the new
local stands for those of its own expression. -/
theorem exists_leadsTo_cons {x : Local} {e : Expr α} {b : LetType} {z : Local}
    (hb : b.demands.IsOn z ↔ ∃ y ∈ e.freeLocals [], scope.LeadsTo y z) :
    (b.demands.IsOn z ∨ ∃ y ∈ Expr.freeLocalsLet [] bs, LetScope.LeadsTo ((x, b) :: scope) y z) ↔
      ∃ y ∈ Expr.freeLocalsLet [] ((x, e) :: bs), scope.LeadsTo y z := by
  simp only [Expr.freeLocalsLet, List.mem_append, Expr.mem_freeLocalsLet_singleton]
  constructor
  · rintro (hz | ⟨y, hy, hz⟩)
    · obtain ⟨y, hy, hz⟩ := hb.1 hz
      exact ⟨y, .inl hy, hz⟩
    · by_cases hyx : y = x
      · subst hyx
        obtain ⟨y, hy, hz⟩ := hb.1 (LetScope.leadsTo_cons_self.1 hz)
        exact ⟨y, .inl hy, hz⟩
      · exact ⟨y, .inr ⟨hyx, hy⟩, (LetScope.leadsTo_cons_of_ne hyx).1 hz⟩
  · rintro ⟨y, hy | ⟨hyx, hy⟩, hz⟩
    · exact .inl (hb.2 ⟨y, hy, hz⟩)
    · exact .inr ⟨y, hy, (LetScope.leadsTo_cons_of_ne hyx).2 hz⟩

theorem inferBindingsBy_lead_of (h : ∀ b ∈ bs, IsOnOf order b.2) {inner : LetScope}
    {k k' : TyVar} {ts : List (Local × Typing)}
    (hts : (inferBindingsBy order scope bs).run k = .ok ((ts, inner), k'))
    (hbs : Expr.ScopedLet bound bs) (hscope : scope.Inside bound) :
    BindingsLead scope inner bound bs ts := by
  induction bs generalizing scope bound k ts with
  | nil =>
    obtain ⟨⟨⟩, -⟩ := run_inferBindings_nil.1 hts
    exact ⟨by simpa using hscope, rfl, by simp [Expr.freeLocalsLet], by simp, by simp⟩
  | cons b bs ih =>
    obtain ⟨x, e⟩ := b
    obtain ⟨t, us, k₁, ht, hus, rfl⟩ := run_inferBindings_cons.1 hts
    obtain ⟨hx, he, hbs⟩ := hbs
    obtain ⟨hoe, hobs⟩ := List.forall_mem_cons.1 h
    have hon := hoe ht he hscope
    have hbound : ∀ z, t.demands.IsOn z → z ∈ bound := fun z hz => by
      obtain ⟨y, hy, hz⟩ := (hon z).1 hz
      exact hscope.mem_of_leadsTo (he.freeLocals_subset hy) hz
    -- the new local is not bound yet, so nothing is taken from the demands
    have hwithout : ∀ z, (t.demands.without [x]).IsOn z ↔
        ∃ y ∈ e.freeLocals [], scope.LeadsTo y z := fun z => by
      rw [← hon z, Demands.isOn_without, and_iff_right_iff_imp, List.mem_singleton]
      exact fun hz hzx => hx (hzx ▸ hbound z hz)
    have hinside := hscope.bind x (b := ⟨t.ty, t.demands.without [x]⟩)
      fun z hz => hbound z (Demands.isOn_without.1 hz).2
    obtain ⟨hin, hnames, hison, hnew, hold⟩ := ih hobs hus hbs hinside
    refine ⟨by simpa using hin, by simp [hnames], fun z => ?_, fun y hy z hz => ?_,
      fun y hy z => ?_⟩
    · rw [List.map_cons, List.exists_mem_cons_iff, hison z]
      exact exists_leadsTo_cons (b := ⟨t.ty, _⟩) (hwithout z)
    · refine (exists_leadsTo_cons (x := x) (b := ⟨t.ty, _⟩) (hwithout z)).1 ?_
      by_cases hybs : y ∈ bs.map Prod.fst
      · exact .inr (hnew y hybs z hz)
      · obtain rfl : y = x := (List.mem_cons.1 hy).resolve_right hybs
        exact .inl (LetScope.leadsTo_cons_self.1 ((hold y hybs z).1 hz))
    · obtain ⟨hyx, hybs⟩ : y ≠ x ∧ y ∉ bs.map Prod.fst := by simpa using hy
      exact (hold y hybs z).trans (LetScope.leadsTo_cons_of_ne hyx)

/-- **A typing demands something of the locals that the free locals of its expression lead to.** -/
theorem inferInBy_isOn_iff (e : Expr α) : IsOnOf order e := by
  induction e using Expr.indFormer with
  | literal v n =>
    intro scope bound k k' t h _ _ z
    obtain ⟨rfl, rfl⟩ := run_pure_eq_ok.1 h
    simp [Demands.IsOn, Expr.freeLocals]
  | localVar x n =>
    intro scope bound k k' t h hx hscope z
    simp only [Expr.freeLocals, List.not_mem_nil, if_false, List.mem_singleton, exists_eq_left]
    unfold inferInBy at h
    split at h
    · rename_i b hb
      simp only [run_bind_eq_ok, run_pure_eq_ok, run_ofLet] at h
      obtain ⟨u, _, ⟨rfl, rfl⟩, rfl, rfl⟩ := h
      simp only [LetScope.LeadsTo, hb]
      exact Demands.isOn_apply
    · rename_i hnone
      simp only [run_bind_eq_ok, run_pure_eq_ok, run_fresh] at h
      obtain ⟨_, _, ⟨rfl, rfl⟩, rfl, rfl⟩ := h
      simp [Demands.IsOn, LetScope.LeadsTo, hnone, lookup_cons_eq_some]
  | globalVar v n =>
    intro scope bound k k' t h _ _ z
    simp only [inferInBy, run_bind_eq_ok, run_pure_eq_ok] at h
    obtain ⟨u, _, hu, rfl, rfl⟩ := h
    simp [Demands.IsOn, Expr.freeLocals]
  | former φ es n hφ ih =>
    intro scope bound k k' t h hes hscope z
    obtain ⟨ts, k₁, τ, eqs, parts, k₂, hts, hφ, hτ, hs⟩ := (run_former hφ).1 h
    obtain ⟨s, hs⟩ := Join.exists_solved hs
    obtain ⟨hes, heven⟩ := Expr.scoped_former.1 hes
    simp only [Demands.isOn_of_solved hs, φ.mem_parts hφ hτ (inferAll_length hts ▸ heven),
      Expr.freeLocals_former]
    exact inferAllBy_isOn_of ih hts hes hscope z
  | letIn bs e n ihbs ihe =>
    intro scope bound k k' t h hes hscope z
    obtain ⟨ts, inner, k₁, u, k₂, w, hts, hu, hs, rfl⟩ := run_letIn.1 h
    obtain ⟨s, hs⟩ := Join.exists_solved hs
    obtain ⟨hsbs, hse⟩ := hes
    obtain ⟨hinside, hnames, hison, hnew, hold⟩ := inferBindingsBy_lead_of ihbs hts hsbs hscope
    have hbody := ihe hu hse hinside z
    have hfree : ∀ y, y ∈ e.freeLocals (bs.map Prod.fst ++ []) ↔
        y ∉ bs.map Prod.fst ∧ y ∈ e.freeLocals [] := fun y => by
      rw [List.append_nil, Expr.mem_freeLocals]
    simp only [Demands.isOn_without, Demands.isOn_of_solved hs, hnames, Expr.freeLocals,
      List.mem_append, hfree, List.mem_singleton, or_and_right, exists_or, exists_eq_left, hison,
      hbody]
    constructor
    · rintro ⟨-, hz | ⟨y, hy, hz⟩⟩
      · exact .inl hz
      · by_cases hybs : y ∈ bs.map Prod.fst
        · exact .inl (hnew y hybs z hz)
        · exact .inr ⟨y, ⟨hybs, hy⟩, (hold y hybs z).1 hz⟩
    · -- what is demanded around the `let` is demanded of locals that are bound there
      have hout : z ∈ bound → z ∉ bs.map Prod.fst := fun hz hzbs => hsbs.not_mem hzbs hz
      rintro (⟨y, hy, hz⟩ | ⟨y, ⟨hybs, hy⟩, hz⟩)
      · exact ⟨hout (hscope.mem_of_leadsTo (hsbs.freeLocals_subset hy) hz), .inl ⟨y, hy, hz⟩⟩
      · have hy' : y ∈ bound := by simpa [hybs] using hse.freeLocals_subset hy
        exact ⟨hout (hscope.mem_of_leadsTo hy' hz), .inr ⟨y, hy, (hold y hybs z).2 hz⟩⟩
  | fn ps e n ih =>
    intro scope bound k k' t h hes hscope z
    obtain ⟨u, k₁, ts, hu, hts, rfl⟩ := run_fn.1 h
    obtain ⟨-, hps, he⟩ := hes
    have hbody := ih hu he (hscope.mono (List.subset_append_right ps bound)) z
    simp only [Demands.isOn_without, hbody, Expr.freeLocals, List.append_nil,
      Expr.mem_freeLocals e ps]
    constructor
    · rintro ⟨hz, y, hy, hyz⟩
      refine ⟨y, ⟨fun hyps => hz ?_, hy⟩, hyz⟩
      rwa [(hscope.leadsTo_iff_of_notMem (hps y hyps)).1 hyz]
    · rintro ⟨y, ⟨hyps, hy⟩, hyz⟩
      have hy' := (List.mem_append.1 (he.freeLocals_subset hy)).resolve_left hyps
      exact ⟨fun hz => hps z hz (hscope.mem_of_leadsTo hy' hyz), y, hy, hyz⟩
  | define => exact fun _ h => h.elim
  | declare => exact fun _ h => h.elim

/-! ## Bound locals -/

section Bound

variable {scope inner : LetScope} {bound : List Local} {k k' : TyVar}
variable {bs : List (Local × Expr α)} {ts : List (Local × Typing)}

theorem mem_of_isOn {e : Expr α} {t : Typing} (h : (inferInBy order scope e).run k = .ok (t, k'))
    (hs : e.Scoped bound) (hscope : scope.Inside bound) {z : Local} (hz : t.demands.IsOn z) :
    z ∈ bound := by
  obtain ⟨y, hy, hyz⟩ := (inferInBy_isOn_iff e h hs hscope z).1 hz
  exact hscope.mem_of_leadsTo (hs.freeLocals_subset hy) hyz

theorem inferBindingsBy_lead (h : (inferBindingsBy order scope bs).run k = .ok ((ts, inner), k'))
    (hbs : Expr.ScopedLet bound bs) (hscope : scope.Inside bound) :
    BindingsLead scope inner bound bs ts :=
  inferBindingsBy_lead_of (fun b _ => inferInBy_isOn_iff b.2) h hbs hscope

/-- The parts of a `let` demand something of locals that are bound around it. -/
theorem letIn_mem_of_isOn {e : Expr α} {k₁ : TyVar} {u : Typing}
    (hts : (inferBindingsBy order scope bs).run k = .ok ((ts, inner), k₁))
    (hu : (inferInBy order inner e).run k₁ = .ok (u, k')) (hbs : Expr.ScopedLet bound bs)
    (he : e.Scoped ((bs.map Prod.fst).reverse ++ bound)) (hscope : scope.Inside bound) {z : Local}
    (hz : ∃ d ∈ ts.map (·.2.demands) ++ [u.demands], d.IsOn z) : z ∈ bound := by
  obtain ⟨hinside, -, hison, hnew, hold⟩ := inferBindingsBy_lead hts hbs hscope
  have hlet : (∃ y ∈ Expr.freeLocalsLet [] bs, scope.LeadsTo y z) → z ∈ bound := by
    rintro ⟨y, hy, hyz⟩
    exact hscope.mem_of_leadsTo (hbs.freeLocals_subset hy) hyz
  obtain ⟨d, hd, hz⟩ := hz
  rcases List.mem_append.1 hd with hd | hd
  · exact hlet ((hison z).1 ⟨d, hd, hz⟩)
  · obtain rfl := List.mem_singleton.1 hd
    obtain ⟨y, hy, hyz⟩ := (inferInBy_isOn_iff e hu he hinside z).1 hz
    by_cases hybs : y ∈ bs.map Prod.fst
    · exact hlet (hnew y hybs z hyz)
    · have hy' : y ∈ bound := by simpa [hybs] using he.freeLocals_subset hy
      exact hscope.mem_of_leadsTo hy' ((hold y hybs z).1 hyz)

end Bound

end TypedLisp
