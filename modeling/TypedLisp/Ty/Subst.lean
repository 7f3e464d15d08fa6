import TypedLisp.Ty

/-!
# Substitutions

A finite map from type variables to types, as a list of bindings of which the first one for a
variable counts. `Subst.compose` is one substitution after another.
-/

namespace TypedLisp

/-- A finite map from type variables to types. -/
abbrev Subst := List (TyVar × Ty)

namespace Ty

mutual

/-- The type with its variables replaced at once. -/
def apply (s : Subst) : Ty → Ty
  | .bool => .bool
  | .str => .str
  | .int => .int
  | .effect => .effect
  | .vector e => .vector (apply s e)
  | .set e => .set (apply s e)
  | .map k v => .map (apply s k) (apply s v)
  | .fn ps r => .fn (applyAll s ps) (apply s r)
  | .var v => (s.lookup v).getD (.var v)
  | .data n => .data n
  | .applied b as => .applied (apply s b) (applyAll s as)

/-- The types with their variables replaced at once. -/
def applyAll (s : Subst) : List Ty → List Ty
  | [] => []
  | t :: ts => apply s t :: applyAll s ts

end

theorem applyAll_eq_map (s : Subst) (ts : List Ty) : applyAll s ts = ts.map (apply s) := by
  induction ts with
  | nil => rfl
  | cons t ts ih => simp [applyAll, ih]

theorem parts_apply (s : Subst) {t : Ty} (ht : ∀ v, t ≠ .var v) :
    (t.apply s).parts = t.parts.map (apply s) := by
  cases t with
  | var v => exact absurd rfl (ht v)
  | _ => simp [apply, parts, applyAll_eq_map]

theorem apply_ne_var (s : Subst) {t : Ty} (ht : ∀ v, t ≠ .var v) (v : TyVar) :
    t.apply s ≠ .var v := by
  cases t with
  | var v => exact absurd rfl (ht v)
  | _ => simp [apply]

/-- Replacing `v` by `r` leaves the other variables and those of `r`. -/
theorem mem_vars_apply_single {v x : TyVar} {r : Ty} (t : Ty) :
    x ∈ (apply [(v, r)] t).vars → x ∈ r.vars ∨ (x ≠ v ∧ x ∈ t.vars) := by
  induction t using indParts with
  | var w =>
    by_cases h : w = v
    · subst h
      simpa [apply, List.lookup_cons] using Or.inl
    · have hw : (w == v) = false := by simpa using h
      simp only [apply, List.lookup_cons, List.lookup_nil, hw, Option.getD_none, vars,
        List.mem_singleton]
      rintro rfl
      exact Or.inr ⟨h, rfl⟩
  | node t ht ih =>
    rw [mem_vars_node (apply_ne_var _ ht), parts_apply _ ht, mem_vars_node ht]
    rintro ⟨_, hq, hx⟩
    obtain ⟨p, hp, rfl⟩ := List.mem_map.1 hq
    exact (ih p hp hx).imp_right fun h => ⟨h.1, p, hp, h.2⟩

end Ty

namespace Subst

/-- The substitution `second` after `first`: it acts on what `first` puts in place of variables,
and on the variables that `first` leaves alone. -/
def compose (first second : Subst) : Subst :=
  first.map (fun (v, t) => (v, t.apply second)) ++
    second.filter fun (v, _) => (first.lookup v).isNone

/-- The bindings by ascending variable. -/
def sorted (s : Subst) : Subst :=
  s.mergeSort fun a b => a.1 ≤ b.1

end Subst

end TypedLisp
