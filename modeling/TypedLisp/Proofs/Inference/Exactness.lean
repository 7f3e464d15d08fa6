import TypedLisp.Proofs.Inference.Completeness

/-!
# Typings describe the admitted types

Let the parameters have any types. Then inference succeeds on an expression that admits some type,
and the types that it admits are just those that the inferred type becomes when variables are
replaced so that the demands are met (**`inferInBy_exact`**). A local bound by `let` has a typing
too, which so describes the types at which it may be used (`LetScope.types_bind`).
-/

namespace TypedLisp

variable {order : Unit → JoinOrder} {k k₁ : TyVar} {f : TyVar → Ty} {G : Local → Ty}
  {ps bound : List Local} {scope : LetScope} {ts : List Typing}

/-- A join that is solved has met its equations and the demands of its parts before. -/
theorem Join.Solved.met {j : Join} {k' : TyVar} {s : Subst} {t : Typing} (h : j.Solved k k' s t)
    (hmet : t.demands.MetAt f G) : Unify.Solves (s.followedBy f) j.equations ∧
      t.ty.bind f = j.node.ann.bind (s.followedBy f) ∧
      ∀ d ∈ j.parts, d.MetAt (s.followedBy f) G := by
  refine ⟨h.solves.followedBy f, ?_, fun d hd z u hu => ?_⟩
  · rw [h.ty, Ty.bind_followedBy]
  · rw [Ty.bind_followedBy]
    exact hmet z _ (h.lookup d hd z u hu)

/-- Whether the typing of an expression describes the types that it admits. -/
def ExactOf (order : Unit → JoinOrder) (e : Expr Unit) : Prop :=
  ∀ {scope : LetScope} {bound : List Local} (G : Local → Ty) (k : TyVar) (T : Ty),
    e.Scoped bound → scope.Inside bound → (e.Admits (scope.types G) T ↔
      ∃ t k' f, (inferInBy order scope e).run k = .ok (t, k') ∧ t.ty.bind f = T ∧
        t.demands.MetAt f G)

theorem Finds.exists_run {e : Expr Unit} {d : Expr Ty} (h : Finds order scope G e k d) :
    ∃ t k' f, (inferInBy order scope e).run k = .ok (t, k') ∧ t.ty.bind f = d.ann ∧
      t.demands.MetAt f G := by
  obtain ⟨t, k', f, ht, hexpr, hmet⟩ := h
  exact ⟨t, k', f, ht, Typing.ty_bind hexpr, hmet⟩

theorem inferAllBy_exact_of {es : List (Expr Unit)} (h : ∀ e ∈ es, ExactOf order e) (G : Local → Ty)
    (k : TyVar) (Ts : List Ty) (hes : Expr.ScopedAll bound es) (hscope : scope.Inside bound) :
    Expr.AdmitsAll (scope.types G) es Ts ↔
      ∃ ts k' f, (inferAllBy order scope es).run k = .ok (ts, k') ∧ ts.map (·.ty.bind f) = Ts ∧
        ∀ d ∈ ts.map (·.demands), d.MetAt f G := by
  induction es generalizing k Ts with
  | nil =>
    constructor
    · rintro rfl
      exact ⟨[], k, .var, run_inferAll_nil.2 ⟨rfl, rfl⟩, rfl, by simp⟩
    · rintro ⟨ts, k', f, hts, htys, -⟩
      obtain ⟨rfl, -⟩ := run_inferAll_nil.1 hts
      exact htys.symm
  | cons e es ih =>
    obtain ⟨he, htail⟩ := List.forall_mem_cons.1 h
    constructor
    · rintro ⟨T, Ts, rfl, hT, hTs⟩
      obtain ⟨t, k₁, f, ht, rfl, hmet⟩ := (he G k T hes.1 hscope).1 hT
      obtain ⟨ts, k', g, hts, rfl, hmets⟩ := (ih htail k₁ Ts hes.2).1 hTs
      have hr := inferInBy_ranges _ ht
      have hrs := inferAllBy_ranges hts
      have hlow : ∀ v, Between k k₁ v → below k₁ f g v = f v := fun v hv => below_of_lt f g hv.2
      have hhigh : ∀ v, Between k₁ k' v → below k₁ f g v = g v := fun v hv =>
        below_of_le f g hv.1
      refine ⟨t :: ts, k', below k₁ f g, run_inferAll_cons.2 ⟨t, ts, k₁, ht, hts, rfl⟩, ?_,
        List.forall_mem_cons.2 ⟨hr.metAt_congr hlow (List.mem_singleton_self _) hmet,
          fun d hd => hrs.metAt_congr hhigh hd (hmets d hd)⟩⟩
      rw [List.map_cons, hr.bind_congr hlow t.ty t.expr.ann_mem_anns]
      exact congrArg (_ :: ·) (List.map_congr_left fun u hu =>
        hrs.bind_congr hhigh u.ty (tys_subset ts (List.mem_map_of_mem hu)))
    · rintro ⟨ts, k', f, hts, htys, hmet⟩
      obtain ⟨u, us, k₁, hu, hus, rfl⟩ := run_inferAll_cons.1 hts
      obtain ⟨hmetu, hmets⟩ := List.forall_mem_cons.1 hmet
      refine ⟨u.ty.bind f, _, htys.symm, ?_, ?_⟩
      · exact (he G k _ hes.1 hscope).2 ⟨u, k₁, f, hu, rfl, hmetu⟩
      · exact (ih htail k₁ _ hes.2).2 ⟨us, k', f, hus, rfl, hmets⟩

/-- A local bound by `let` may be used at the types that its expression admits. -/
theorem LetScope.types_bind {e : Expr Unit} (he : ExactOf order e) {k' : TyVar} {t : Typing}
    (ht : (inferInBy order scope e).run k = .ok (t, k')) (hs : e.Scoped bound) (hscope : scope.Inside bound)
    {x : Local} (hx : x ∉ bound) (G : Local → Ty) :
    types ((x, ⟨t.ty, t.demands.without [x]⟩) :: scope) G =
      (scope.types G).bind x (e.Admits (scope.types G)) := by
  have hlookup : ∀ z, (t.demands.without [x]).lookup z = t.demands.lookup z := fun z => by
    by_cases hz : z = x
    · have hnone : ¬ t.demands.IsOn z := fun hon => hx (hz ▸ mem_of_isOn ht hs hscope hon)
      rw [Demands.lookup_without_of_mem (by simp [hz])]
      exact (Option.eq_none_iff_forall_ne_some.2 fun w hw => hnone ⟨w, hw⟩).symm
    · exact Demands.lookup_without_of_not_mem (by simpa using hz)
  funext y T
  by_cases hy : y = x
  · subst hy
    simp only [types, List.lookup_cons_self, LocalTypes.bind_self]
    rw [he G k T hs hscope]
    simp only [LetType.Instances, Demands.MetAt, hlookup, ht]
    refine propext ⟨?_, ?_⟩
    · rintro ⟨f, hT, hmet⟩
      exact ⟨t, k', f, rfl, hT, hmet⟩
    · rintro ⟨u, _, f, ⟨⟩, hT, hmet⟩
      exact ⟨f, hT, hmet⟩
  · rw [LocalTypes.bind_of_ne hy]
    simp only [types, lookup_cons_of_ne hy]

theorem inferBindingsBy_exact_of {bs : List (Local × Expr Unit)}
    (h : ∀ b ∈ bs, ExactOf order b.2) (G : Local → Ty) (k : TyVar) (Γ : LocalTypes) (hbs : Expr.ScopedLet bound bs)
    (hscope : scope.Inside bound) :
    Expr.Binds (scope.types G) bs Γ ↔
      ∃ ts inner k' f, (inferBindingsBy order scope bs).run k = .ok ((ts, inner), k') ∧
        inner.types G = Γ ∧ ∀ d ∈ ts.map (·.2.demands), d.MetAt f G := by
  induction bs generalizing scope bound k with
  | nil =>
    constructor
    · rintro rfl
      exact ⟨[], scope, k, .var, run_inferBindings_nil.2 ⟨rfl, rfl⟩, rfl, by simp⟩
    · rintro ⟨ts, inner, k', f, hts, hΓ, -⟩
      obtain ⟨⟨⟩, -⟩ := run_inferBindings_nil.1 hts
      exact hΓ.symm
  | cons b bs ih =>
    obtain ⟨x, e⟩ := b
    obtain ⟨he, htail⟩ := List.forall_mem_cons.1 h
    obtain ⟨hx, hse, hsbs⟩ := hbs
    have hbind : ∀ {t : Typing} {k₁ : TyVar}, (inferInBy order scope e).run k = .ok (t, k₁) →
        (Expr.Binds ((scope.types G).bind x (e.Admits (scope.types G))) bs Γ ↔
          ∃ ts inner k' f, (inferBindingsBy order
            ((x, ⟨t.ty, t.demands.without [x]⟩) :: scope) bs).run k₁ = .ok ((ts, inner), k') ∧
              inner.types G = Γ ∧ ∀ d ∈ ts.map (·.2.demands), d.MetAt f G) := fun {t k₁} ht => by
      have hinside := hscope.bind x (b := ⟨t.ty, t.demands.without [x]⟩) fun z hz =>
        mem_of_isOn ht hse hscope (Demands.isOn_without.1 hz).2
      rw [← LetScope.types_bind he ht hse hscope hx]
      exact ih htail k₁ hsbs hinside
    constructor
    · rintro ⟨⟨T, hT⟩, hrest⟩
      obtain ⟨t, k₁, f, ht, -, hmet⟩ := (he G k T hse hscope).1 hT
      obtain ⟨ts, inner, k', g, hts, hΓ, hmets⟩ := (hbind ht).1 hrest
      have hr := (inferInBy_ranges _ ht).without [x]
      have hrs := inferBindingsBy_ranges hts
      refine ⟨(x, ⟨t.expr, t.demands.without [x]⟩) :: ts, inner, k', below k₁ f g,
        run_inferBindings_cons.2 ⟨t, ts, k₁, ht, hts, rfl⟩, hΓ,
        List.forall_mem_cons.2 ⟨?_, fun d hd => ?_⟩⟩
      · have hmet' : (t.demands.without [x]).MetAt f G := fun z w hw =>
          hmet z w (Demands.lookup_without_eq_some.1 hw).2
        exact hmet'.congr fun v hv => below_of_lt f g (hr.demands _ (by simp) v hv).2
      · exact (hmets d hd).congr fun v hv => below_of_le f g (hrs.demands d hd v hv).1
    · rintro ⟨ts, inner, k', f, hts, hΓ, hmet⟩
      obtain ⟨t, us, k₁, ht, hus, rfl⟩ := run_inferBindings_cons.1 hts
      obtain ⟨hmett, hmets⟩ := List.forall_mem_cons.1 hmet
      refine ⟨⟨t.ty.bind f, ?_⟩, (hbind ht).2 ⟨us, inner, k', f, hus, hΓ, hmets⟩⟩
      -- the demands without the new local are all demands
      have hself : LetScope.types ((x, ⟨t.ty, t.demands.without [x]⟩) :: scope) G x
          (t.ty.bind f) := by
        simp only [LetScope.types, List.lookup_cons_self]
        exact ⟨f, rfl, hmett⟩
      rwa [LetScope.types_bind he ht hse hscope hx, LocalTypes.bind_self] at hself

/-- **The typing of an expression describes the types that it admits**: it is found if there are
some, and then they are what its type becomes by replacements that meet its demands. -/
theorem inferInBy_exact (e : Expr Unit) : ExactOf order e := by
  induction e using Expr.indFormer with
  | literal v n =>
    intro scope bound G k T _ _
    constructor
    · rintro rfl
      exact (finds_literal v k).exists_run
    · rintro ⟨t, k', f, h, rfl, -⟩
      obtain ⟨rfl, rfl⟩ := run_pure_eq_ok.1 h
      exact v.ty_bind f
  | localVar x n =>
    intro scope bound G k T _ _
    constructor
    · exact fun hT => (finds_localVar hT k).exists_run
    · rintro ⟨t, k', f, h, rfl, hmet⟩
      simp only [Expr.Admits, LetScope.types]
      unfold inferInBy at h
      cases hx : scope.lookup x with
      | some b =>
        simp only [hx, run_bind_eq_ok, run_pure_eq_ok, run_ofLet] at h
        obtain ⟨u, _, ⟨rfl, rfl⟩, rfl, rfl⟩ := h
        refine ⟨(Subst.fresh b.vars k).followedBy f, Ty.bind_followedBy .., fun z w hw => ?_⟩
        rw [Ty.bind_followedBy]
        exact hmet z _ (Demands.lookup_apply_eq_some.2 ⟨w, hw, rfl⟩)
      | none =>
        simp only [hx, run_bind_eq_ok, run_pure_eq_ok, run_fresh] at h
        obtain ⟨_, _, ⟨rfl, rfl⟩, rfl, rfl⟩ := h
        exact hmet x (.var k) List.lookup_cons_self
  | globalVar v n =>
    intro scope bound G k T _ _
    constructor
    · exact fun hT => (finds_globalVar hT k).exists_run
    · rintro ⟨t, k', f, h, rfl, -⟩
      simp only [inferInBy, run_bind_eq_ok, run_pure_eq_ok] at h
      obtain ⟨u, _, hu, rfl, rfl⟩ := h
      exact (run_ofVar hu).2.2 f
  | former φ es n hφ ih =>
    intro scope bound G k T hs hscope
    obtain ⟨hes, heven⟩ := Expr.scoped_former.1 hs
    rw [Expr.admits_former hφ]
    constructor
    · rintro ⟨Ts, hTs, hholds⟩
      obtain ⟨ts, k₁, f, hts, rfl, hmet⟩ := (inferAllBy_exact_of ih G k Ts hes hscope).1 hTs
      have hrun := (finds_former (n := n) hφ hts hmet hholds).exists_run
      rwa [Expr.ann_former] at hrun
    · rintro ⟨t, k', f, h, rfl, hmet⟩
      obtain ⟨ts, k₁, τ, eqs, parts, k₂, hts, hφ, hτ, hs⟩ := (run_former hφ).1 h
      obtain ⟨s, hs⟩ := Join.exists_solved hs
      obtain ⟨hsolves, hty, hmets⟩ := hs.met hmet
      rw [hty, Expr.ann_former]
      refine ⟨_, (inferAllBy_exact_of ih G k _ hes hscope).2 ⟨ts, k₁, _, hts, rfl, fun d hd => ?_⟩,
        φ.holds_of_solves hφ hτ hsolves⟩
      exact hmets d ((φ.mem_parts hφ hτ (inferAll_length hts ▸ heven)).2 hd)
  | letIn bs e n ihbs ihe =>
    intro scope bound G k T hs hscope
    obtain ⟨hsbs, hse⟩ := hs
    constructor
    · rintro ⟨Γ, hΓ, hT⟩
      obtain ⟨ts, inner, k₁, f, hts, rfl, hmets⟩ :=
        (inferBindingsBy_exact_of ihbs G k Γ hsbs hscope).1 hΓ
      obtain ⟨u, k₂, g, hu, rfl, hmet⟩ :=
        (ihe G k₁ T hse (inferBindingsBy_lead hts hsbs hscope).inside).1 hT
      exact (finds_letIn hts hu hmets hmet).exists_run
    · rintro ⟨t, k', f, h, rfl, hmet⟩
      obtain ⟨ts, inner, k₁, u, k₂, w, hts, hu, hs, rfl⟩ := run_letIn.1 h
      obtain ⟨s, hs⟩ := Join.exists_solved hs
      obtain ⟨hinside, hnames, -, -, -⟩ := inferBindingsBy_lead hts hsbs hscope
      have hwmet : w.demands.MetAt f G := fun z u' hu' => by
        have hz := letIn_mem_of_isOn hts hu hsbs hse hscope
          ((Demands.isOn_of_solved hs).1 ⟨u', hu'⟩)
        refine hmet z u' (Demands.lookup_without_eq_some.2 ⟨fun hzbs => ?_, hu'⟩)
        exact hsbs.not_mem (hnames ▸ hzbs) hz
      obtain ⟨-, hty, hmet⟩ := hs.met hwmet
      obtain ⟨hmets, hmetu⟩ := List.forall_mem_append.1 hmet
      refine ⟨inner.types G, ?_, ?_⟩
      · exact (inferBindingsBy_exact_of ihbs G k _ hsbs hscope).2
          ⟨ts, inner, k₁, _, hts, rfl, hmets⟩
      · exact (ihe G k₁ _ hse hinside).2
          ⟨u, k₂, _, hu, hty.symm, hmetu _ (List.mem_singleton_self _)⟩
  | fn ps e n ih =>
    intro scope bound G k T hs hscope
    obtain ⟨hnodup, hps, hse⟩ := hs
    have hinside := hscope.mono (List.subset_append_right ps bound)
    constructor
    · rintro ⟨Ts, R, rfl, hlen, hR⟩
      rw [← LetScope.types_enter hscope hps] at hR
      obtain ⟨u, k₁, f, hu, rfl, hmet⟩ := (ih _ k R hse hinside).1 hR
      exact (finds_fn hnodup hlen hu hmet).exists_run
    · rintro ⟨t, k', f, h, rfl, hmet⟩
      obtain ⟨u, k₁, ts, hu, hts, rfl⟩ := run_fn.1 h
      obtain ⟨-, hlen, -⟩ := params_vars hts
      refine ⟨ts.map (Ty.bind f), u.ty.bind f, ?_, by simpa using hlen, ?_⟩
      · show Ty.bind f (.fn ts u.ty) = _
        rw [Ty.bind, Ty.bindAll_eq_map]
      · rw [← LetScope.types_enter hscope hps]
        refine (ih _ k _ hse hinside).2 ⟨u, k₁, f, hu, rfl, fun z w hw => ?_⟩
        by_cases hz : z ∈ ps
        · have hzip : ps.zip (ts.map (Ty.bind f)) = (ps.zip ts).map fun e => (e.1, e.2.bind f) := by
            rw [List.zip_map_right]
            rfl
          rw [enterTypes, hzip, lookup_map_snd, lookup_params hts hz hw]
          rfl
        · rw [enterTypes_of_notMem hz]
          exact hmet z w (Demands.lookup_without_eq_some.2 ⟨hz, hw⟩)
  | define => exact fun _ _ _ h => h.elim
  | declare => exact fun _ _ _ h => h.elim

end TypedLisp
