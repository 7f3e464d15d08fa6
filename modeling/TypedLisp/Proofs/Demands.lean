import TypedLisp.Proofs.Unification

/-!
# Putting demands together

`Demands.merge` gives each of some locals one demand, and equations that make it agree with the
demands it comes from. A solution of the equations makes all demands on a local the same
(`lookup_merge`), and if the parts can be given some types then the whole can
(`exists_solves_merge`).
-/

namespace TypedLisp

namespace Demands

variable {d : Demands} {x : Local} {t w : Ty} {xs : List Local} {v : TyVar} {f : TyVar → Ty}
  {G : Local → Ty}

/-- Whether a type variable occurs in the demand on some local. -/
def Mentions (d : Demands) (v : TyVar) : Prop := ∃ x t, d.lookup x = some t ∧ v ∈ t.vars

theorem lookup_apply (s : Subst) (d : Demands) (x : Local) :
    (d.apply s).lookup x = (d.lookup x).map (Ty.apply s) :=
  lookup_map_snd (Ty.apply s) d x

theorem lookup_apply_eq_some {s : Subst} :
    (d.apply s).lookup x = some t ↔ ∃ u, d.lookup x = some u ∧ u.apply s = t := by
  simp [lookup_apply]

theorem lookup_without_of_mem (h : x ∈ xs) : (d.without xs).lookup x = none :=
  lookup_filter_of_neg (p := fun y => decide (y ∉ xs)) (by simpa using h) d

theorem lookup_without_of_not_mem (h : x ∉ xs) : (d.without xs).lookup x = d.lookup x :=
  lookup_filter_of_pos (p := fun y => decide (y ∉ xs)) (by simpa using h) d

theorem lookup_without_eq_some :
    (d.without xs).lookup x = some t ↔ x ∉ xs ∧ d.lookup x = some t := by
  by_cases h : x ∈ xs
  · simp [lookup_without_of_mem h, h]
  · simp [lookup_without_of_not_mem h, h]

theorem mentions_apply {s : Subst} {w : TyVar} (h : (d.apply s).Mentions w) :
    ∃ v, d.Mentions v ∧ w ∈ (s.toFun v).vars := by
  obtain ⟨x, t, ht, hw⟩ := h
  obtain ⟨u, hu, rfl⟩ := lookup_apply_eq_some.1 ht
  rw [Ty.apply_eq_bind, Ty.mem_vars_bind] at hw
  obtain ⟨v, hv, hw⟩ := hw
  exact ⟨v, ⟨x, u, hu, hv⟩, hw⟩

theorem Mentions.of_without (h : (d.without xs).Mentions v) : d.Mentions v := by
  obtain ⟨x, t, ht, hv⟩ := h
  exact ⟨x, t, (lookup_without_eq_some.1 ht).2, hv⟩

theorem Mentions.mem_vars (h : d.Mentions v) : v ∈ d.vars := by
  obtain ⟨x, t, ht, hv⟩ := h
  exact List.mem_flatMap.2 ⟨(x, t), mem_of_lookup ht, hv⟩

/-! ## The demands on one local -/

variable {ds : List Demands} {x : Local} {next : TyVar}

theorem mem_on : t ∈ on ds x ↔ ∃ d ∈ ds, d.lookup x = some t := by
  simp [on]

theorem mem_locals : x ∈ locals ds ↔ ∃ d ∈ ds, ∃ t, d.lookup x = some t := by
  rw [locals, List.mem_eraseDups, List.mem_map]
  constructor
  · rintro ⟨e, he, rfl⟩
    obtain ⟨d, hd, he⟩ := List.mem_flatten.1 he
    exact ⟨d, hd, exists_lookup_of_mem_keys (List.mem_map_of_mem he)⟩
  · rintro ⟨d, hd, t, ht⟩
    exact ⟨(x, t), List.mem_flatten.2 ⟨d, hd, mem_of_lookup ht⟩, rfl⟩

/-! ## One local after another -/

theorem merge_cons_of_single (h : on ds x = [t]) (xs : List Local) :
    merge ds next (x :: xs) =
      ((x, t) :: (merge ds next xs).1, (merge ds next xs).2.1, (merge ds next xs).2.2) := by
  simp [merge, h]

theorem merge_cons_of_many (h : ∀ t, on ds x ≠ [t]) (xs : List Local) :
    merge ds next (x :: xs) =
      ((x, .var next) :: (merge ds (next + 1) xs).1,
        (on ds x).map (fun t => (.var next, t)) ++ (merge ds (next + 1) xs).2.1,
        (merge ds (next + 1) xs).2.2) := by
  rw [merge]
  split
  · rename_i t ht
    exact absurd ht (h t)
  · rfl

theorem le_merge (xs : List Local) : next ≤ (merge ds next xs).2.2 := by
  induction xs generalizing next with
  | nil => exact Nat.le_refl _
  | cons x xs ih =>
    by_cases h : ∃ t, on ds x = [t]
    · obtain ⟨t, ht⟩ := h
      rw [merge_cons_of_single ht]
      exact ih
    · rw [merge_cons_of_many (by simpa using h)]
      exact Nat.le_trans (Nat.le_succ _) ih

theorem lookup_merge (hf : Unify.Solves f (merge ds next xs).2.1) (hx : x ∈ xs) :
    ∃ w, (merge ds next xs).1.lookup x = some w ∧ ∀ t ∈ on ds x, w.bind f = t.bind f := by
  induction xs generalizing next with
  | nil => simp at hx
  | cons y xs ih =>
    by_cases h : ∃ t, on ds y = [t]
    · obtain ⟨t, ht⟩ := h
      rw [merge_cons_of_single ht] at hf ⊢
      by_cases hxy : x = y
      · subst hxy
        exact ⟨t, List.lookup_cons_self, fun u hu => by simp_all⟩
      · obtain ⟨w, hw, hwt⟩ := ih hf (by simpa [hxy] using hx)
        exact ⟨w, by simpa only [lookup_cons_of_ne hxy] using hw, hwt⟩
    · rw [merge_cons_of_many (by simpa using h)] at hf ⊢
      obtain ⟨hy, hrest⟩ := Unify.solves_append.1 hf
      by_cases hxy : x = y
      · subst hxy
        exact ⟨.var next, List.lookup_cons_self,
          fun u hu => hy (.var next, u) (List.mem_map.2 ⟨u, hu, rfl⟩)⟩
      · obtain ⟨w, hw, hwt⟩ := ih hrest (by simpa [hxy] using hx)
        exact ⟨w, by simpa only [lookup_cons_of_ne hxy] using hw, hwt⟩

theorem mem_of_lookup_merge (h : (merge ds next xs).1.lookup x = some w) : x ∈ xs := by
  induction xs generalizing next with
  | nil => simp [merge] at h
  | cons y xs ih =>
    by_cases hxy : x = y
    · simp [hxy]
    · refine List.mem_cons_of_mem _ ?_
      by_cases hy : ∃ t, on ds y = [t]
      · obtain ⟨t, ht⟩ := hy
        rw [merge_cons_of_single ht, lookup_cons_of_ne hxy] at h
        exact ih h
      · rw [merge_cons_of_many (by simpa using hy), lookup_cons_of_ne hxy] at h
        exact ih h

theorem mentions_cons (h : Mentions ((x, t) :: d) v) : v ∈ t.vars ∨ d.Mentions v := by
  obtain ⟨y, u, hu, hv⟩ := h
  rcases lookup_cons_eq_some.1 hu with ⟨-, rfl⟩ | ⟨-, hu⟩
  · exact .inl hv
  · exact .inr ⟨y, u, hu, hv⟩

theorem mentions_of_mem_on (ht : t ∈ on ds x) (hv : v ∈ t.vars) : ∃ d ∈ ds, d.Mentions v := by
  obtain ⟨d, hd, ht⟩ := mem_on.1 ht
  exact ⟨d, hd, x, t, ht, hv⟩

/-- Whether a variable is new or occurs in one of the demands put together. -/
def NewOr (ds : List Demands) (next next' : Nat) (v : TyVar) : Prop :=
  (next ≤ v ∧ v < next') ∨ ∃ d ∈ ds, d.Mentions v

theorem NewOr.mono {next₁ next₂ next' v : Nat} (h : NewOr ds next₂ next' v) (hn : next₁ ≤ next₂) :
    NewOr ds next₁ next' v :=
  h.imp_left fun h => ⟨Nat.le_trans hn h.1, h.2⟩

theorem merge_vars (h : v ∈ Unify.vars (merge ds next xs).2.1 ∨ (merge ds next xs).1.Mentions v) :
    NewOr ds next (merge ds next xs).2.2 v := by
  induction xs generalizing next with
  | nil =>
    rcases h with h | ⟨x, t, ht, -⟩
    · simp [merge, Unify.vars] at h
    · simp [merge] at ht
  | cons y xs ih =>
    by_cases hy : ∃ t, on ds y = [t]
    · obtain ⟨t, ht⟩ := hy
      rw [merge_cons_of_single ht] at h ⊢
      rcases h with h | h
      · exact ih (.inl h)
      · rcases mentions_cons h with h | h
        · exact .inr (mentions_of_mem_on (x := y) (by simp [ht]) h)
        · exact ih (.inr h)
    · rw [merge_cons_of_many (by simpa using hy)] at h ⊢
      have hlt : next < (merge ds (next + 1) xs).2.2 := le_merge xs
      have hnew : NewOr ds next (merge ds (next + 1) xs).2.2 next := .inl ⟨Nat.le_refl _, hlt⟩
      rcases h with h | h
      · rw [Unify.vars_append, List.mem_append] at h
        rcases h with h | h
        · obtain ⟨e, he, hv⟩ := Unify.mem_vars_iff.1 h
          obtain ⟨t, ht, rfl⟩ := List.mem_map.1 he
          rcases hv with hv | hv
          · obtain rfl : v = next := by simpa [Ty.vars] using hv
            exact hnew
          · exact .inr (mentions_of_mem_on ht hv)
        · exact (ih (.inl h)).mono (Nat.le_succ _)
      · rcases mentions_cons h with h | h
        · obtain rfl : v = next := by simpa [Ty.vars] using h
          exact hnew
        · exact (ih (.inr h)).mono (Nat.le_succ _)

/-- If the locals have types that the demands can be given, then new variables can be chosen so that
the demands put together have these types and the equations hold. -/
theorem exists_solves_merge (xs : List Local) (hlt : ∀ d ∈ ds, ∀ v, d.Mentions v → v < next)
    (hG : ∀ d ∈ ds, ∀ x t, d.lookup x = some t → t.bind f = G x) :
    ∃ g : TyVar → Ty, (∀ v < next, g v = f v) ∧ Unify.Solves g (merge ds next xs).2.1 ∧
      ∀ x w, (merge ds next xs).1.lookup x = some w → w.bind g = G x := by
  induction xs generalizing next f with
  | nil => exact ⟨f, fun _ _ => rfl, by simp [merge], by simp [merge]⟩
  | cons y xs ih =>
    by_cases hy : ∃ t, on ds y = [t]
    · obtain ⟨t, ht⟩ := hy
      obtain ⟨g, hgf, hg, hgG⟩ := ih hlt hG
      rw [merge_cons_of_single ht]
      refine ⟨g, hgf, hg, fun x w hw => ?_⟩
      rcases lookup_cons_eq_some.1 hw with ⟨rfl, rfl⟩ | ⟨-, hw⟩
      · obtain ⟨d, hd, hdt⟩ := mem_on.1 (ht ▸ List.mem_singleton_self t)
        rw [← hG d hd _ _ hdt]
        exact Ty.bind_congr fun v hv => hgf v (hlt d hd v ⟨_, _, hdt, hv⟩)
      · exact hgG x w hw
    · -- the new variable stands for the type of `y`
      set f' : TyVar → Ty := fun v => if v = next then G y else f v
      have hlt' : ∀ d ∈ ds, ∀ v, d.Mentions v → v < next + 1 := fun d hd v hv =>
        Nat.lt_succ_of_lt (hlt d hd v hv)
      have hG' : ∀ d ∈ ds, ∀ x t, d.lookup x = some t → t.bind f' = G x := fun d hd x t ht => by
        rw [← hG d hd x t ht]
        refine Ty.bind_congr fun v hv => if_neg ?_
        exact Nat.ne_of_lt (hlt d hd v ⟨x, t, ht, hv⟩)
      obtain ⟨g, hgf, hg, hgG⟩ := ih hlt' hG'
      have hgn : g next = G y := (hgf next (Nat.lt_succ_self _)).trans (if_pos rfl)
      rw [merge_cons_of_many (by simpa using hy)]
      refine ⟨g, fun v hv => ?_, Unify.solves_append.2 ⟨fun e he => ?_, hg⟩, fun x w hw => ?_⟩
      · exact (hgf v (Nat.lt_succ_of_lt hv)).trans (if_neg (Nat.ne_of_lt hv))
      · obtain ⟨t, ht, rfl⟩ := List.mem_map.1 he
        obtain ⟨d, hd, hdt⟩ := mem_on.1 ht
        rw [Ty.bind, hgn, ← hG' d hd y t hdt]
        exact Ty.bind_congr fun v hv => (hgf v (hlt' d hd v ⟨y, t, hdt, hv⟩)).symm
      · rcases lookup_cons_eq_some.1 hw with ⟨rfl, rfl⟩ | ⟨-, hw⟩
        · exact hgn
        · exact hgG x w hw

theorem le_union : next ≤ (union ds next).2.2 := le_merge _

end Demands

end TypedLisp
