import TypedLisp.Proofs.Renaming

/-!
# Alpha-equivalence as a bijection of variables

**Types are alpha-equivalent exactly if a bijection between their free variables makes one of the
other** (`alphaEquivalent_bijective`). The same renaming can be threaded through many pairs of types
(`Ty.pairUpEach`). An instance with new variables is alpha-equivalent to the type it is made from,
and shares no variable with any type made before it (`Ty.History`).
-/

namespace TypedLisp

/-- The renaming of variables by a function, as a substitution. -/
def Subst.renaming (f : TyVar → TyVar) (vs : List TyVar) : Subst :=
  Subst.ofFun (fun v => .var (f v)) vs

namespace Ty

variable {f : TyVar → TyVar} {t : Ty} {v next : TyVar} {ps : List (Ty × Ty)} {ts : List Ty}

/-! ## One renaming for many pairs -/

/-- Whether each of the pairs agrees with its variables paired up. One renaming goes on from pair to
pair, with the variables paired so far, also past pairs that disagree. -/
def pairUpEach (r : Renaming) : List (Ty × Ty) → List Bool
  | [] => []
  | (a, b) :: ps => (pairUp r a b).1 :: pairUpEach (pairUp r a b).2 ps

/-- The free variables of the left sides. -/
def leftVars (ps : List (Ty × Ty)) : List TyVar := ps.flatMap fun p => p.1.freeVars

/-- The free variables of the right sides. -/
def rightVars (ps : List (Ty × Ty)) : List TyVar := ps.flatMap fun p => p.2.freeVars

@[simp] theorem mem_leftVars :
    v ∈ leftVars ps ↔ ∃ p ∈ ps, v ∈ p.1.vars := by simp [leftVars, freeVars]

@[simp] theorem mem_rightVars :
    v ∈ rightVars ps ↔ ∃ p ∈ ps, v ∈ p.2.vars := by simp [rightVars, freeVars]

theorem pairUpEach_all_iff (r : Renaming) (ps : List (Ty × Ty)) :
    (∀ ok ∈ pairUpEach r ps, ok = true) ↔
      (pairUpAll r (ps.map Prod.fst) (ps.map Prod.snd)).1 = true := by
  induction ps generalizing r with
  | nil => simp [pairUpEach, pairUpAll]
  | cons p ps ih =>
    obtain ⟨a, b⟩ := p
    rcases hab : pairUp r a b with ⟨_ | _, r'⟩
    · simp [pairUpEach, pairUpAll, hab]
    · simpa only [pairUpEach, List.map_cons, pairUpAll, hab, List.forall_mem_cons, true_and]
        using ih r'

/-- A function that makes the right sides of the left ones has the variables of the right sides as
its values. -/
theorem image_leftVars (h : ∀ p ∈ ps, p.1.bind (fun v => .var (f v)) = p.2) :
    f '' {v | v ∈ leftVars ps} = {v | v ∈ rightVars ps} := by
  ext w
  simp only [Set.mem_image, Set.mem_ofPred_eq, mem_leftVars, mem_rightVars]
  constructor
  · rintro ⟨v, ⟨p, hp, hv⟩, rfl⟩
    exact ⟨p, hp, h p hp ▸ mem_vars_bind.2 ⟨v, hv, List.mem_singleton_self _⟩⟩
  · rintro ⟨p, hp, hw⟩
    obtain ⟨v, hv, hw⟩ := mem_vars_bind.1 (h p hp ▸ hw)
    exact ⟨v, ⟨p, hp, hv⟩, (List.mem_singleton.1 hw).symm⟩

theorem apply_renaming_leftVars {p : Ty × Ty} (hp : p ∈ ps) :
    p.1.apply (Subst.renaming f (leftVars ps)) = p.1.bind fun v => .var (f v) :=
  apply_ofFun fun _ hv => mem_leftVars.2 ⟨p, hp, hv⟩

theorem pairUpEach_bijective (ps : List (Ty × Ty)) : (∀ ok ∈ pairUpEach {} ps, ok = true) ↔
    ∃ f : TyVar → TyVar, Set.BijOn f {v | v ∈ leftVars ps} {v | v ∈ rightVars ps} ∧
      ∀ p ∈ ps, p.1.apply (Subst.renaming f (leftVars ps)) = p.2 := by
  have hleft : {v | ∃ t ∈ ps.map Prod.fst, v ∈ t.vars} = {v | v ∈ leftVars ps} := by
    ext v; simp
  rw [pairUpEach_all_iff]
  constructor
  · intro h
    obtain ⟨f, hf, hmap⟩ := exists_injOn_of_pairUpAll h
    have hbind : ∀ p ∈ ps, p.1.bind (fun v => .var (f v)) = p.2 := by
      simpa [List.map_map, List.map_inj_left] using hmap
    rw [hleft] at hf
    exact ⟨f, image_leftVars hbind ▸ hf.bijOn_image, fun p hp =>
      (apply_renaming_leftVars hp).trans (hbind p hp)⟩
  · rintro ⟨f, hf, happly⟩
    have hmap : (ps.map Prod.fst).map (bind fun v => .var (f v)) = ps.map Prod.snd := by
      rw [List.map_map]
      exact List.map_congr_left fun p hp => (apply_renaming_leftVars hp).symm.trans (happly p hp)
    rw [← hmap]
    exact pairUpAll_of_injOn (hleft ▸ hf.injOn)

/-! ## New variables from one counter -/

/-- The histories of types made with new variables counted up: the number of the next variable, and
the types made so far. A new variable is a type, any variables made before can be put together to
types, and a type made before can be given new variables. -/
inductive History : TyVar → List Ty → Prop
  | start (next : TyVar) : History next []
  | fresh {next : TyVar} {ts : List Ty} : History next ts → History (next + 1) (.var next :: ts)
  | build {next : TyVar} {ts : List Ty} (t : Ty) : History next ts →
      (∀ v ∈ t.vars, ∃ u ∈ ts, v ∈ u.vars) → History next (t :: ts)
  | instantiate {next : TyVar} {ts : List Ty} {t : Ty} : History next ts → t ∈ ts →
      History (t.instantiate next).2 ((t.instantiate next).1 :: ts)

theorem vars_instantiate (h : v ∈ (t.instantiate next).1.vars) :
    next ≤ v ∧ v < (t.instantiate next).2 := by
  rw [instantiate, apply_eq_bind] at h
  obtain ⟨w, hw, hv⟩ := mem_vars_bind.1 h
  exact Subst.mem_vars_toFun_fresh (mem_sortVars.2 hw) hv

theorem History.lt (h : History next ts) : ∀ t ∈ ts, ∀ v ∈ t.vars, v < next := by
  induction h with
  | start next => simp
  | fresh _ ih =>
    refine List.forall_mem_cons.2 ⟨by simp [vars], fun t ht v hv => ?_⟩
    exact Nat.lt_succ_of_lt (ih t ht v hv)
  | build t _ hvars ih =>
    refine List.forall_mem_cons.2 ⟨fun v hv => ?_, ih⟩
    obtain ⟨u, hu, hv⟩ := hvars v hv
    exact ih u hu v hv
  | instantiate _ _ ih =>
    refine List.forall_mem_cons.2 ⟨fun v hv => (vars_instantiate hv).2, fun t ht v hv => ?_⟩
    exact Nat.lt_add_right _ (ih t ht v hv)

theorem exists_toFun_fresh_freeVars (h : v ∈ t.vars) (next : TyVar) :
    ∃ i, t.freeVars[i]? = some v ∧ (Subst.fresh t.freeVars next).toFun v = .var (next + i) := by
  obtain ⟨i, -, hi, hf⟩ := Subst.exists_toFun_fresh 
    (mem_sortVars.2 h : v ∈ t.freeVars) next
  exact ⟨i, hi, hf⟩

theorem alphaEquivalent_instantiate (t : Ty) (next : TyVar) :
    t.alphaEquivalent (t.instantiate next).1 = true := by
  refine alphaEquivalent_iff.2 ⟨fun v => ((Subst.fresh t.freeVars next).toFun v).varOr v, ?_, ?_⟩
  · intro x hx y hy hxy
    obtain ⟨i, hi, hfi⟩ := exists_toFun_fresh_freeVars hx next
    obtain ⟨j, hj, hfj⟩ := exists_toFun_fresh_freeVars hy next
    obtain rfl : i = j := by simpa [hfi, hfj, varOr] using hxy
    exact Option.some.inj (hi.symm.trans hj)
  · rw [instantiate, apply_eq_bind]
    refine bind_congr fun v hv => ?_
    obtain ⟨i, -, hi⟩ := exists_toFun_fresh_freeVars hv next
    simp only [hi, varOr]

theorem History.notMem_instantiate (h : History next ts) {u : Ty} (hu : u ∈ ts)
    (hv : v ∈ (t.instantiate next).1.freeVars) : v ∉ u.freeVars := by
  intro hvu
  have hge := (vars_instantiate (mem_sortVars.1 hv)).1
  have hlt := h.lt u hu v (mem_sortVars.1 hvu)
  exact absurd hlt (Nat.not_lt.2 hge)

/-- **Alpha-equivalence is a bijection of the free variables**: of two types, or of many pairs of
types at once. So it is an equivalence, and a type is alpha-equivalent to each of its instances with
new variables, which are new to all types made so far. -/
theorem alphaEquivalent_bijective :
    (∀ a b : Ty, a.alphaEquivalent b = true ↔
      ∃ f : TyVar → TyVar, Set.BijOn f {v | v ∈ a.freeVars} {v | v ∈ b.freeVars} ∧
        a.apply (Subst.renaming f a.freeVars) = b) ∧
    Equivalence (fun a b : Ty => a.alphaEquivalent b = true) ∧
    (∀ (next : TyVar) (ts : List Ty) (t : Ty), History next ts → t ∈ ts →
      t.alphaEquivalent (t.instantiate next).1 = true ∧
        ∀ u ∈ ts, ∀ v ∈ (t.instantiate next).1.freeVars, v ∉ u.freeVars) ∧
    ∀ ps : List (Ty × Ty), (∀ ok ∈ pairUpEach {} ps, ok = true) ↔
      ∃ f : TyVar → TyVar, Set.BijOn f {v | v ∈ leftVars ps} {v | v ∈ rightVars ps} ∧
        ∀ p ∈ ps, p.1.apply (Subst.renaming f (leftVars ps)) = p.2 := by
  refine ⟨fun a b => ?_, ⟨alphaEquivalent_refl, alphaEquivalent_symm, alphaEquivalent_trans⟩,
    fun next ts t h ht => ⟨alphaEquivalent_instantiate t next, fun u hu v hv =>
      h.notMem_instantiate hu hv⟩, pairUpEach_bijective⟩
  have heach : a.alphaEquivalent b = true ↔ ∀ ok ∈ pairUpEach {} [(a, b)], ok = true := by
    simp [pairUpEach, alphaEquivalent]
  rw [heach, pairUpEach_bijective]
  simp [leftVars, rightVars]

/-- Two variables made, a type built of them and given new variables: the instance of that instance
is new to all four, and the pairs `a b`, `b a` agree at once although `a a` would not join them. -/
theorem alphaEquivalent_bijective_swap :
    (let t : Ty := .map (.var 0) (.var 1)
      let ts : List Ty := [.map (.var 2) (.var 3), t, .var 1, .var 0]
      ∀ u ∈ ts, ∀ v ∈ ((Ty.map (.var 2) (.var 3)).instantiate 4).1.freeVars, v ∉ u.freeVars) ∧
    (∃ f : TyVar → TyVar, Set.BijOn f {v | v ∈ leftVars [(.var 0, .var 1), (.var 1, .var 0)]}
        {v | v ∈ rightVars [(.var 0, .var 1), (.var 1, .var 0)]} ∧
      ∀ p ∈ [(Ty.var 0, Ty.var 1), (.var 1, .var 0)],
        p.1.apply (Subst.renaming f (leftVars [(.var 0, .var 1), (.var 1, .var 0)])) = p.2) ∧
    ¬ ∃ f : TyVar → TyVar,
      Set.BijOn f {v | v ∈ leftVars [(.var 0, .var 1), (.var 1, .var 0), (.var 0, .var 0)]}
        {v | v ∈ rightVars [(.var 0, .var 1), (.var 1, .var 0), (.var 0, .var 0)]} ∧
      ∀ p ∈ [(Ty.var 0, Ty.var 1), (.var 1, .var 0), (.var 0, .var 0)],
        p.1.apply (Subst.renaming f
          (leftVars [(.var 0, .var 1), (.var 1, .var 0), (.var 0, .var 0)])) = p.2 := by
  obtain ⟨-, -, hnew, hall⟩ := alphaEquivalent_bijective
  have hist : History 2 [.map (.var 0) (.var 1), .var 1, .var 0] :=
    .build _ (.fresh (.fresh (.start 0))) (by decide)
  exact ⟨(hnew 4 _ _ (hist.instantiate (List.mem_cons_self ..)) (List.mem_cons_self ..)).2,
    (hall _).1 (by decide), fun h => absurd ((hall _).2 h) (by decide)⟩

end Ty

end TypedLisp
