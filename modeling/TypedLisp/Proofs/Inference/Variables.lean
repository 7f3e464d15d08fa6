import TypedLisp.Proofs.Inference.Steps

/-!
# The variables of a typing

The variables of a typing, in the types at its nodes and in its demands, are among those made in its
run (`inferInBy_ranges`). So the typings of expressions that are run one after the other share none.
-/

namespace TypedLisp

variable {α : Type} {order : α → JoinOrder} {es : List (Expr α)} {scope inner : LetScope}
  {k k' : TyVar} {ts : List Typing} {bs : List (Local × Expr α)}

/-- Whether the variables of types and demands are from an interval. -/
structure Ranges (tys : List Ty) (ds : List Demands) (k k' : TyVar) : Prop where
  le : k ≤ k'
  tys : ∀ t ∈ tys, ∀ v ∈ t.vars, Between k k' v
  demands : ∀ d ∈ ds, ∀ v, d.Mentions v → Between k k' v

namespace Ranges

variable {tys tys' : List Ty} {ds ds' : List Demands} {k k₁ k₂ k₃ : TyVar}

theorem nil (k : TyVar) : Ranges [] [] k k := ⟨Nat.le_refl _, by simp, by simp⟩

theorem append (h : Ranges tys ds k k₁) (h' : Ranges tys' ds' k₁ k₂) :
    Ranges (tys ++ tys') (ds ++ ds') k k₂ := by
  refine ⟨Nat.le_trans h.le h'.le, fun t ht v hv => ?_, fun d hd v hv => ?_⟩
  · rcases List.mem_append.1 ht with ht | ht
    · exact (h.tys t ht v hv).mono (Nat.le_refl _) h'.le
    · exact (h'.tys t ht v hv).mono h.le (Nat.le_refl _)
  · rcases List.mem_append.1 hd with hd | hd
    · exact (h.demands d hd v hv).mono (Nat.le_refl _) h'.le
    · exact (h'.demands d hd v hv).mono h.le (Nat.le_refl _)

theorem without {d : Demands} (h : Ranges tys [d] k k₁) (xs : List Local) :
    Ranges tys [d.without xs] k k₁ :=
  ⟨h.le, h.tys, by simpa using fun v hv => h.demands d (by simp) v hv.of_without⟩

theorem bind_congr (h : Ranges tys ds k k₁) {f g : TyVar → Ty}
    (hg : ∀ v, Between k k₁ v → g v = f v) : ∀ t ∈ tys, t.bind g = t.bind f := fun t ht =>
  Ty.bind_congr fun v hv => hg v (h.tys t ht v hv)

theorem metAt_congr (h : Ranges tys ds k k₁) {f g : TyVar → Ty} {G : Local → Ty}
    (hg : ∀ v, Between k k₁ v → g v = f v) {d : Demands} (hd : d ∈ ds) (hf : d.MetAt f G) :
    d.MetAt g G :=
  hf.congr fun v hv => hg v (h.demands d hd v hv)

end Ranges

/-! ## Joins -/

section Joins

variable {k k₁ k₂ k₃ : TyVar} {ts : List Typing}

theorem Join.Within.ranges {j : Join} (h : j.Within k k₂) (hk : k ≤ k₂) {s : Subst} {t : Typing}
    (hs : j.Solved k₂ k₃ s t) : Ranges t.expr.anns [t.demands] k k₃ := by
  have involved : ∀ v, j.Involved k₂ k₃ v → Between k k₃ v := by
    rintro v (hv | hv | ⟨d, hd, hv⟩)
    · exact (h.equations v hv).mono (Nat.le_refl _) hs.le
    · exact Between.mono hv hk (Nat.le_refl _)
    · exact (h.parts d hd v hv).mono (Nat.le_refl _) hs.le
  refine ⟨Nat.le_trans hk hs.le, ?_, by simpa using fun v hv => involved v (hs.mentions v hv)⟩
  rw [hs.expr, Expr.apply, Expr.anns_map, List.forall_mem_map]
  intro a ha w hw
  rw [Ty.apply_eq_bind, Ty.mem_vars_bind] at hw
  obtain ⟨v, hv, hw⟩ := hw
  rcases hs.vars v w hw with rfl | hw
  · exact (h.node a ha w hv).mono (Nat.le_refl _) hs.le
  · exact involved w hw

theorem Typing.ty_subset (t : Typing) : [t.ty] ⊆ t.expr.anns :=
  List.cons_subset.2 ⟨t.expr.ann_mem_anns, List.nil_subset _⟩

theorem tys_subset (ts : List Typing) : ts.map (·.ty) ⊆ ts.flatMap (·.expr.anns) := fun _ ht => by
  obtain ⟨t, hmem, rfl⟩ := List.mem_map.1 ht
  exact List.mem_flatMap.2 ⟨t, hmem, t.expr.ann_mem_anns⟩

theorem Former.within {φ : Former} (hφ : φ.Takes ts.length)
    (hr : Ranges (ts.flatMap (·.expr.anns)) (ts.map (·.demands)) k k₁) {τ : Ty}
    {eqs : List Equation} {parts : List Demands}
    (hτ : (φ.ty ts).run k₁ = .ok ((τ, eqs, parts), k₂)) (r : Range) :
    (φ.join ts τ eqs parts r).Within k k₂ := by
  obtain ⟨hle, hvars⟩ := φ.ty_vars hφ hτ
  have hnew : ∀ v, v ∈ τ.vars ∨ v ∈ Unify.vars eqs → Between k k₂ v := fun v hv => by
    rcases hvars v hv with hv | ⟨t, ht, hv⟩
    · exact hv.mono hr.le (Nat.le_refl _)
    · exact (hr.tys t (tys_subset ts ht) v hv).mono (Nat.le_refl _) hle
  refine ⟨fun d hd v hv => ?_, fun v hv => hnew v (.inr hv), ?_⟩
  · exact (hr.demands d (φ.parts_subset hφ hτ hd) v hv).mono (Nat.le_refl _) hle
  · rw [Expr.anns_former, List.flatMap_map]
    exact List.forall_mem_cons.2 ⟨fun v hv => hnew v (.inl hv),
      fun a ha v hv => (hr.tys a ha v hv).mono (Nat.le_refl _) hle⟩

theorem letJoin_within {ts : List (Local × Typing)} {u : Typing}
    (hts : Ranges (ts.flatMap (·.2.expr.anns)) (ts.map (·.2.demands)) k k₁)
    (hu : Ranges u.expr.anns [u.demands] k₁ k₂) (r : Range) : (letJoin ts u r).Within k k₂ := by
  have hr := hts.append hu
  refine ⟨hr.demands, by simp [Unify.vars], ?_⟩
  rw [Expr.anns, Expr.annsLet_eq_flatMap, List.flatMap_map]
  exact List.forall_mem_cons.2
    ⟨hr.tys u.ty (List.mem_append_right _ u.expr.ann_mem_anns), hr.tys⟩

end Joins

/-! ## Expressions -/

/-- Whether inference of an expression leaves only variables that it made. -/
def RangesOf (order : α → JoinOrder) (e : Expr α) : Prop :=
  ∀ {scope : LetScope} {k k' : TyVar} {t : Typing}, (inferInBy order scope e).run k = .ok (t, k') →
    Ranges t.expr.anns [t.demands] k k'

theorem inferAllBy_ranges_of (h : ∀ e ∈ es, RangesOf order e)
    (hts : (inferAllBy order scope es).run k = .ok (ts, k')) :
    Ranges (ts.flatMap (·.expr.anns)) (ts.map (·.demands)) k k' := by
  induction es generalizing k ts with
  | nil =>
    obtain ⟨rfl, rfl⟩ := run_inferAll_nil.1 hts
    exact .nil _
  | cons e es ih =>
    obtain ⟨u, us, k₁, hu, hus, rfl⟩ := run_inferAll_cons.1 hts
    obtain ⟨he, hes⟩ := List.forall_mem_cons.1 h
    exact (he hu).append (ih hes hus)

theorem inferBindingsBy_ranges_of (h : ∀ b ∈ bs, RangesOf order b.2) {ts : List (Local × Typing)}
    (hts : (inferBindingsBy order scope bs).run k = .ok ((ts, inner), k')) :
    Ranges (ts.flatMap (·.2.expr.anns)) (ts.map (·.2.demands)) k k' := by
  induction bs generalizing scope k ts with
  | nil =>
    obtain ⟨⟨⟩, rfl⟩ := run_inferBindings_nil.1 hts
    exact .nil _
  | cons b bs ih =>
    obtain ⟨x, e⟩ := b
    obtain ⟨t, us, k₁, ht, hus, rfl⟩ := run_inferBindings_cons.1 hts
    obtain ⟨he, hbs⟩ := List.forall_mem_cons.1 h
    exact ((he ht).without [x]).append (ih hbs hus)

/-- **The variables of a typing are made in its run.** -/
theorem inferInBy_ranges (e : Expr α) : RangesOf order e := by
  induction e using Expr.indFormer with
  | literal v n =>
    intro scope k k' t h
    obtain ⟨rfl, rfl⟩ := run_pure_eq_ok.1 h
    refine ⟨Nat.le_refl _, ?_, by simp [Demands.Mentions]⟩
    cases v <;> simp [Expr.anns, Literal.ty, Ty.vars]
  | localVar x n =>
    intro scope k k' t h
    unfold inferInBy at h
    split at h
    · rename_i b hb
      simp only [run_bind_eq_ok, run_pure_eq_ok, run_ofLet] at h
      obtain ⟨u, _, ⟨rfl, rfl⟩, rfl, rfl⟩ := h
      simp only [Expr.anns]
      refine ⟨Nat.le_add_right _ _, ?_, ?_⟩
      · simp only [List.mem_singleton, forall_eq]
        exact fun v hv => apply_fresh_vars (fun w hw => by simp [LetType.vars, hw]) hv
      · simp only [List.mem_singleton, forall_eq]
        intro v hv
        obtain ⟨w, hw, hv⟩ := Demands.mentions_apply hv
        exact Subst.mem_vars_toFun_fresh (by simp [LetType.vars, hw.mem_vars]) hv
    · simp only [run_bind_eq_ok, run_pure_eq_ok, run_fresh] at h
      obtain ⟨_, _, ⟨rfl, rfl⟩, rfl, rfl⟩ := h
      refine ⟨Nat.le_succ _, by simp [Expr.anns, Ty.vars, between_self], ?_⟩
      simp only [List.mem_singleton, forall_eq]
      intro v hv
      rcases Demands.mentions_cons hv with hv | ⟨_, _, hv, -⟩
      · obtain rfl : v = k := by simpa [Ty.vars] using hv
        exact between_self v
      · cases hv
  | globalVar v n =>
    intro scope k k' t h
    simp only [inferInBy, run_bind_eq_ok, run_pure_eq_ok] at h
    obtain ⟨u, _, hu, rfl, rfl⟩ := h
    obtain ⟨hle, hv, -⟩ := run_ofVar hu
    exact ⟨hle, by simpa [Expr.anns] using hv, by simp [Demands.Mentions]⟩
  | former φ es n hφ ih =>
    intro scope k k' t h
    obtain ⟨ts, k₁, τ, eqs, parts, k₂, hts, hφ, hτ, hs⟩ := (run_former hφ).1 h
    obtain ⟨s, hs⟩ := Join.exists_solved hs
    have hr := inferAllBy_ranges_of ih hts
    exact (φ.within hφ hr hτ n.range).ranges (Nat.le_trans hr.le (φ.ty_vars hφ hτ).1) hs
  | letIn bs e n ihbs ihe =>
    intro scope k k' t h
    obtain ⟨ts, inner, k₁, u, k₂, w, hts, hu, hs, rfl⟩ := run_letIn.1 h
    obtain ⟨s, hs⟩ := Join.exists_solved hs
    have hr := inferBindingsBy_ranges_of ihbs hts
    exact ((letJoin_within hr (ihe hu) n.range).ranges (Nat.le_trans hr.le (ihe hu).le) hs).without _
  | fn ps e n ih =>
    intro scope k k' t h
    obtain ⟨u, k₁, ts, hu, hts, rfl⟩ := run_fn.1 h
    obtain ⟨hle, htys, hds⟩ := ih hu
    obtain ⟨hle', -, hvars⟩ := params_vars hts
    simp only [List.mem_singleton, forall_eq] at hds
    have htys' : ∀ a ∈ u.expr.anns, ∀ v ∈ a.vars, Between k k' v := fun a ha v hv =>
      (htys a ha v hv).mono (Nat.le_refl _) hle'
    refine ⟨Nat.le_trans hle hle', List.forall_mem_cons.2 ⟨fun v hv => ?_, htys'⟩, ?_⟩
    · obtain ⟨t, ht, hv⟩ | hv : (∃ t ∈ ts, v ∈ t.vars) ∨ v ∈ u.ty.vars := by
        simpa [Ty.vars] using hv
      · rcases hvars t ht v hv with hv | hv
        · exact hv.mono hle (Nat.le_refl _)
        · exact (hds v hv).mono (Nat.le_refl _) hle'
      · exact htys' _ u.expr.ann_mem_anns v hv
    · simp only [List.mem_singleton, forall_eq]
      exact fun v hv => (hds v hv.of_without).mono (Nat.le_refl _) hle'
  | define g declared e n ih =>
    intro scope k k' t h
    obtain ⟨u, hu, -, rfl⟩ := run_define.1 h
    exact ⟨(ih hu).le, List.forall_mem_cons.2 ⟨by simp [Ty.vars], (ih hu).tys⟩, (ih hu).demands⟩
  | declare d n =>
    intro scope k k' t h
    obtain ⟨rfl, rfl⟩ := run_pure_eq_ok.1 h
    exact ⟨Nat.le_refl _, by simp [Expr.anns, Ty.vars], by simp [Demands.Mentions]⟩

theorem inferAllBy_ranges (h : (inferAllBy order scope es).run k = .ok (ts, k')) :
    Ranges (ts.flatMap (·.expr.anns)) (ts.map (·.demands)) k k' :=
  inferAllBy_ranges_of (fun e _ => inferInBy_ranges e) h

theorem inferBindingsBy_ranges {ts : List (Local × Typing)}
    (h : (inferBindingsBy order scope bs).run k = .ok ((ts, inner), k')) :
    Ranges (ts.flatMap (·.2.expr.anns)) (ts.map (·.2.demands)) k k' :=
  inferBindingsBy_ranges_of (fun b _ => inferInBy_ranges b.2) h

end TypedLisp
