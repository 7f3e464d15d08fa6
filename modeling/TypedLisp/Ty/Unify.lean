import TypedLisp.Ty.Subst

/-!
# Unification

`unify` looks for a substitution that makes both sides of every equation the same. It works on a
list of equations: an equation of a variable is solved for it everywhere, an equation of types with
the same head is replaced by the equations of their parts, and an equation of equal types is
dropped. Every such `step` makes the list smaller (`step_smaller`): the number of distinct variables
goes down, or it stays and the size of the types goes down.
-/

namespace TypedLisp

/-- Two types that should be the same. -/
abbrev Equation := Ty × Ty

/-- Why equations have no solution. -/
inductive UnifyError where
  | mismatch (left right : Ty)
  | circular (v : TyVar) (t : Ty)
deriving DecidableEq, Repr

namespace Unify

/-- Equations that are left, and the substitution found so far. -/
structure Problem where
  solved : Subst
  todo : List Equation

/-- What becomes of a problem after one step. -/
inductive Step where
  | done (s : Subst)
  | failed (e : UnifyError)
  | next (p : Problem)

/-- The equations of the parts of two types that have the same head. -/
def parts? : Ty → Ty → Option (List Equation)
  | .vector a, .vector b => some [(a, b)]
  | .set a, .set b => some [(a, b)]
  | .map k v, .map k' v' => some [(k, k'), (v, v')]
  | .fn ps r, .fn ps' r' =>
    if ps.length = ps'.length then some (ps.zip ps' ++ [(r, r')]) else none
  | .applied b as, .applied b' as' =>
    if as.length = as'.length then some (as.zip as' ++ [(b, b')]) else none
  | _, _ => none

/-- Replaces a variable on both sides of an equation. -/
def Equation.replace (v : TyVar) (t : Ty) (e : Equation) : Equation :=
  (e.1.apply [(v, t)], e.2.apply [(v, t)])

/-- Deals with the first equation. -/
def step : Problem → Step
  | ⟨s, []⟩ => .done s
  | ⟨s, (left, right) :: rest⟩ =>
    if left = right then .next ⟨s, rest⟩
    else match left, right with
      | .var v, t =>
        if t.occurs v then .failed (.circular v t)
        else .next ⟨s.compose [(v, t)], rest.map (Equation.replace v t)⟩
      | t, .var v => .next ⟨s, (.var v, t) :: rest⟩
      | t, u =>
        match parts? t u with
        | some eqs => .next ⟨s, eqs ++ rest⟩
        | none => .failed (.mismatch t u)

/-! ## Every step makes the problem smaller -/

/-- The variables of some equations. -/
def vars : List Equation → List TyVar
  | [] => []
  | e :: es => e.1.vars ++ e.2.vars ++ vars es

/-- The number of nodes in some equations. -/
def size : List Equation → Nat
  | [] => 0
  | e :: es => e.1.size + e.2.size + size es

/-- An equation with its variable on the right still has to be turned round. -/
def turn : List Equation → Nat
  | (.var _, _) :: _ => 0
  | (_, .var _) :: _ => 1
  | _ => 0

/-- The number of distinct variables in some equations. -/
def varCount (es : List Equation) : Nat := (sortVars (vars es)).length

/-- The size of some equations, where one that has to be turned round counts for a bit more. -/
def weight (es : List Equation) : Nat := 2 * size es + turn es

theorem length_le_of_subset : ∀ {as bs : List TyVar}, as.Nodup → as ⊆ bs → as.length ≤ bs.length
  | [], _, _, _ => Nat.zero_le _
  | a :: as, bs, hn, hs => by
    have ha : a ∈ bs := hs List.mem_cons_self
    have hn' := List.nodup_cons.1 hn
    have hsub : as ⊆ bs.erase a := fun x hx => by
      have hne : x ≠ a := fun h => hn'.1 (h ▸ hx)
      exact (List.mem_erase_of_ne hne).2 (hs (List.mem_cons_of_mem _ hx))
    have hlen := length_le_of_subset hn'.2 hsub
    have hpos : 0 < bs.length := List.length_pos_of_mem ha
    rw [List.length_erase_of_mem ha] at hlen
    simp only [List.length_cons]
    omega

theorem varCount_le {es es' : List Equation} (h : vars es ⊆ vars es') :
    varCount es ≤ varCount es' :=
  length_le_of_subset (nodup_sortVars _) fun _ hx => mem_sortVars.2 (h (mem_sortVars.1 hx))

theorem varCount_lt {es es' : List Equation} {v : TyVar} (h : vars es ⊆ vars es')
    (hv : v ∈ vars es') (hv' : v ∉ vars es) : varCount es < varCount es' := by
  have hn : (v :: sortVars (vars es)).Nodup :=
    List.nodup_cons.2 ⟨fun hm => hv' (mem_sortVars.1 hm), nodup_sortVars _⟩
  refine length_le_of_subset hn fun x hx => mem_sortVars.2 ?_
  rcases List.mem_cons.1 hx with rfl | hx
  · exact hv
  · exact h (mem_sortVars.1 hx)

theorem vars_append (es es' : List Equation) : vars (es ++ es') = vars es ++ vars es' := by
  induction es with
  | nil => rfl
  | cons e es ih => simp [vars, ih]

theorem size_append (es es' : List Equation) : size (es ++ es') = size es + size es' := by
  induction es with
  | nil => simp [size]
  | cons e es ih => simp [size, ih]; omega

theorem turn_le (es : List Equation) : turn es ≤ 1 := by
  unfold turn
  split <;> omega

theorem mem_vars_iff {v : TyVar} {es : List Equation} :
    v ∈ vars es ↔ ∃ e ∈ es, v ∈ e.1.vars ∨ v ∈ e.2.vars := by
  induction es with
  | nil => simp [vars]
  | cons e es ih => simp [vars, ih, or_assoc]

theorem size_zip_le : ∀ as bs : List Ty, size (as.zip bs) ≤ Ty.sizeAll as + Ty.sizeAll bs
  | [], _ => by simp [size]
  | _ :: _, [] => by simp [size]
  | a :: as, b :: bs => by
    have ih := size_zip_le as bs
    simp only [List.zip_cons_cons, size, Ty.sizeAll]
    omega

theorem mem_parts? {t u : Ty} {es : List Equation} (h : parts? t u = some es) :
    ∀ e ∈ es, e.1 ∈ t.parts ∧ e.2 ∈ u.parts := by
  have hzip : ∀ {as bs : List Ty} {e : Equation}, e ∈ as.zip bs → e.1 ∈ as ∧ e.2 ∈ bs :=
    fun {as bs e} he => List.of_mem_zip he
  unfold parts? at h
  split at h <;> (try split at h) <;> cases h <;> grind [Ty.parts]

theorem vars_parts? {t u : Ty} {es : List Equation} (h : parts? t u = some es) :
    vars es ⊆ t.vars ++ u.vars := by
  intro x hx
  obtain ⟨e, he, hx⟩ := mem_vars_iff.1 hx
  obtain ⟨hl, hr⟩ := mem_parts? h e he
  rw [List.mem_append, Ty.mem_vars_node (Ty.ne_var_of_mem_parts hl),
    Ty.mem_vars_node (Ty.ne_var_of_mem_parts hr)]
  exact hx.imp (⟨_, hl, ·⟩) (⟨_, hr, ·⟩)

theorem size_parts? {t u : Ty} {es : List Equation} (h : parts? t u = some es) :
    size es + 2 ≤ t.size + u.size := by
  unfold parts? at h
  split at h
  · cases h; simp [size, Ty.size]; omega
  · cases h; simp [size, Ty.size]; omega
  · cases h; simp [size, Ty.size]; omega
  · rename_i ps r ps' r'
    split at h
    · cases h
      have := size_zip_le ps ps'
      simp only [size_append, size, Ty.size]
      omega
    · cases h
  · rename_i b as b' as'
    split at h
    · cases h
      have := size_zip_le as as'
      simp only [size_append, size, Ty.size]
      omega
    · cases h
  · cases h

theorem mem_vars_replace {v x : TyVar} {t : Ty} (es : List Equation)
    (hx : x ∈ vars (es.map (Equation.replace v t))) : x ∈ t.vars ∨ (x ≠ v ∧ x ∈ vars es) := by
  obtain ⟨_, hmem, hx⟩ := mem_vars_iff.1 hx
  obtain ⟨e, he, rfl⟩ := List.mem_map.1 hmem
  rw [mem_vars_iff]
  rcases hx with hx | hx
  · exact (Ty.mem_vars_apply_single e.1 hx).imp_right fun h => ⟨h.1, e, he, .inl h.2⟩
  · exact (Ty.mem_vars_apply_single e.2 hx).imp_right fun h => ⟨h.1, e, he, .inr h.2⟩

/-- The order by which problems get smaller. -/
def Smaller (p q : Problem) : Prop :=
  Prod.Lex (· < ·) (· < ·) (varCount p.todo, weight p.todo) (varCount q.todo, weight q.todo)

theorem smaller_of_weight {p q : Problem} (hv : vars p.todo ⊆ vars q.todo)
    (hw : weight p.todo < weight q.todo) : Smaller p q := by
  rcases Nat.lt_or_eq_of_le (varCount_le hv) with h | h
  · exact .left _ _ h
  · unfold Smaller
    rw [h]
    exact .right _ hw

/-- Every step that leaves something to do makes the problem smaller. -/
theorem step_smaller {p q : Problem} (h : step p = .next q) : Smaller q p := by
  unfold step at h
  split at h
  · cases h
  · rename_i s left right rest
    split at h
    · -- equal sides
      cases h
      refine smaller_of_weight (fun x hx => by simp [vars, hx]) ?_
      have := left.size_pos
      have := turn_le rest
      simp only [weight, size]
      omega
    · rename_i hne
      split at h
      · -- a variable on the left
        rename_i v
        split at h
        · cases h
        · rename_i hocc
          cases h
          have hv : v ∉ right.vars := fun hm => hocc (Ty.occurs_iff.2 hm)
          refine .left _ _ (varCount_lt (v := v) (fun x hx => ?_) (by simp [vars, Ty.vars]) ?_)
          · rcases mem_vars_replace rest hx with hx | hx <;> simp [vars, hx]
          · intro hx
            rcases mem_vars_replace rest hx with hx | hx
            · exact hv hx
            · exact hx.1 rfl
      · -- a variable on the right
        rename_i v hleft
        cases h
        refine smaller_of_weight (fun x hx => ?_) ?_
        · simp only [vars, List.mem_append] at hx ⊢
          rcases hx with (hx | hx) | hx <;> simp [hx]
        · have : turn ((left, .var v) :: rest) = 1 := by
            unfold turn
            split
            · rename_i heq; cases heq; exact absurd rfl (hleft _)
            · rfl
            · rename_i hno; exact absurd rfl (hno _ _ _)
          rw [weight, weight, this]
          simp only [size, turn]
          omega
      · -- two heads
        split at h
        · rename_i eqs heqs
          cases h
          refine smaller_of_weight (fun x hx => ?_) ?_
          · simp only [vars_append, List.mem_append] at hx
            simp only [vars, List.mem_append]
            refine hx.imp_left fun hx => ?_
            exact List.mem_append.1 (vars_parts? heqs hx)
          · have := size_parts? heqs
            have := turn_le (eqs ++ rest)
            simp only [weight, size, size_append]
            omega
        · cases h

/-- Steps until nothing is left to do. -/
def solve (p : Problem) : Except UnifyError Subst :=
  match _h : step p with
  | .done s => .ok s
  | .failed e => .error e
  | .next q => solve q
termination_by (varCount p.todo, weight p.todo)
decreasing_by exact step_smaller _h

end Unify

/-- A substitution that solves all the equations, or the reason why there is none. -/
def unify (equations : List Equation) : Except UnifyError Subst :=
  Unify.solve ⟨[], equations⟩

end TypedLisp
