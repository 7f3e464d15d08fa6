/-!
# Types

The types of the language, their variables and their size. Nominal types are named by the text of
the data type's symbol; `applied` gives a type its arguments.
-/

namespace TypedLisp

/-- A type variable. -/
abbrev TyVar := Nat

/-- A type. -/
inductive Ty where
  | bool
  | str
  | int
  /-- The type of a form that changes the environment. -/
  | effect
  | vector (elem : Ty)
  | set (elem : Ty)
  | map (key value : Ty)
  | fn (params : List Ty) (result : Ty)
  | var (v : TyVar)
  | data (name : String)
  | applied (base : Ty) (args : List Ty)
deriving Repr, Inhabited

namespace Ty

/-! ## Equality -/

mutual

/-- Whether two types are the same. -/
def beq : Ty → Ty → Bool
  | .bool, .bool => true
  | .str, .str => true
  | .int, .int => true
  | .effect, .effect => true
  | .vector a, .vector b => beq a b
  | .set a, .set b => beq a b
  | .map k v, .map k' v' => beq k k' && beq v v'
  | .fn ps r, .fn ps' r' => beqAll ps ps' && beq r r'
  | .var v, .var v' => v == v'
  | .data n, .data n' => n == n'
  | .applied b as, .applied b' as' => beq b b' && beqAll as as'
  | _, _ => false

/-- Whether two lists of types are the same. -/
def beqAll : List Ty → List Ty → Bool
  | [], [] => true
  | t :: ts, t' :: ts' => beq t t' && beqAll ts ts'
  | _, _ => false

end

mutual

theorem beq_iff_eq : ∀ a b : Ty, beq a b = true ↔ a = b
  | .bool, b => by cases b <;> simp [beq]
  | .str, b => by cases b <;> simp [beq]
  | .int, b => by cases b <;> simp [beq]
  | .effect, b => by cases b <;> simp [beq]
  | .vector a, b => by cases b <;> simp [beq, beq_iff_eq a]
  | .set a, b => by cases b <;> simp [beq, beq_iff_eq a]
  | .map k v, b => by cases b <;> simp [beq, beq_iff_eq k, beq_iff_eq v]
  | .fn ps r, b => by cases b <;> simp [beq, beqAll_iff_eq ps, beq_iff_eq r]
  | .var v, b => by cases b <;> simp [beq]
  | .data n, b => by cases b <;> simp [beq]
  | .applied c as, b => by cases b <;> simp [beq, beq_iff_eq c, beqAll_iff_eq as]

theorem beqAll_iff_eq : ∀ as bs : List Ty, beqAll as bs = true ↔ as = bs
  | [], bs => by cases bs <;> simp [beqAll]
  | a :: as, bs => by cases bs <;> simp [beqAll, beq_iff_eq a, beqAll_iff_eq as]

end

instance : DecidableEq Ty := fun a b => decidable_of_iff _ (beq_iff_eq a b)

/-! ## Variables and size -/

mutual

/-- The variables of a type from left to right, as often as they occur. -/
def vars : Ty → List TyVar
  | .bool | .str | .int | .effect | .data _ => []
  | .vector e => e.vars
  | .set e => e.vars
  | .map k v => k.vars ++ v.vars
  | .fn ps r => varsAll ps ++ r.vars
  | .var v => [v]
  | .applied b as => b.vars ++ varsAll as

/-- The variables of some types from left to right. -/
def varsAll : List Ty → List TyVar
  | [] => []
  | t :: ts => t.vars ++ varsAll ts

end

/-- Whether a variable occurs in a type. -/
def occurs (v : TyVar) (t : Ty) : Bool := t.vars.contains v

mutual

/-- The number of nodes of a type. -/
def size : Ty → Nat
  | .bool | .str | .int | .effect | .data _ | .var _ => 1
  | .vector e => e.size + 1
  | .set e => e.size + 1
  | .map k v => k.size + v.size + 1
  | .fn ps r => sizeAll ps + r.size + 1
  | .applied b as => b.size + sizeAll as + 1

/-- The number of nodes of some types. -/
def sizeAll : List Ty → Nat
  | [] => 0
  | t :: ts => t.size + sizeAll ts

end

theorem size_pos (t : Ty) : 0 < t.size := by cases t <;> simp [size]

theorem varsAll_eq_flatMap (ts : List Ty) : varsAll ts = ts.flatMap vars := by
  induction ts with
  | nil => rfl
  | cons t ts ih => simp [varsAll, ih]

theorem occurs_iff {v : TyVar} {t : Ty} : t.occurs v = true ↔ v ∈ t.vars := by simp [occurs]

/-! ## Parts -/

/-- Induction on types in which the parts of a function and of an applied type are lists. -/
@[induction_eliminator]
theorem ind {motive : Ty → Prop} (bool : motive .bool) (str : motive .str) (int : motive .int)
    (effect : motive .effect) (vector : ∀ e, motive e → motive (.vector e))
    (set : ∀ e, motive e → motive (.set e))
    (map : ∀ k v, motive k → motive v → motive (.map k v))
    (fn : ∀ ps r, (∀ p ∈ ps, motive p) → motive r → motive (.fn ps r))
    (var : ∀ v, motive (.var v)) (data : ∀ n, motive (.data n))
    (applied : ∀ b as, motive b → (∀ a ∈ as, motive a) → motive (.applied b as)) (t : Ty) :
    motive t :=
  @Ty.rec motive (fun ts => ∀ t ∈ ts, motive t) bool str int effect
    vector set map fn var data applied (by simp)
    (fun _ _ ht hts => List.forall_mem_cons.2 ⟨ht, hts⟩) t

/-- The types that a type is put together from. -/
def parts : Ty → List Ty
  | .vector e | .set e => [e]
  | .map k v => [k, v]
  | .fn ps r => ps ++ [r]
  | .applied b as => b :: as
  | _ => []

/-- Induction on types in which all types but variables are one case. -/
theorem indParts {motive : Ty → Prop} (var : ∀ v, motive (.var v))
    (node : ∀ t, (∀ v, t ≠ .var v) → (∀ p ∈ t.parts, motive p) → motive t) (t : Ty) :
    motive t := by
  induction t with
  | var v => exact var v
  | _ => exact node _ nofun (by simp_all [parts, or_imp])

theorem vars_node {t : Ty} (ht : ∀ v, t ≠ .var v) : t.vars = t.parts.flatMap vars := by
  cases t with
  | var v => exact absurd rfl (ht v)
  | _ => simp [vars, parts, varsAll_eq_flatMap]

theorem mem_vars_node {t : Ty} (ht : ∀ v, t ≠ .var v) {v : TyVar} :
    v ∈ t.vars ↔ ∃ p ∈ t.parts, v ∈ p.vars := by
  rw [vars_node ht, List.mem_flatMap]

theorem ne_var_of_mem_parts {t p : Ty} (h : p ∈ t.parts) (v : TyVar) : t ≠ .var v := by
  rintro rfl
  cases h

theorem size_lt_of_mem_parts {t p : Ty} (h : p ∈ t.parts) : p.size < t.size := by
  have hall : ∀ {ts : List Ty}, p ∈ ts → p.size ≤ sizeAll ts := fun {ts} hp => by
    induction ts with
    | nil => cases hp
    | cons t ts ih => grind [sizeAll]
  cases t <;> simp only [parts, List.mem_cons, List.mem_append, List.not_mem_nil, or_false] at h <;>
    simp only [size] <;> grind [size_pos]

/-- Whether the type is that of functions. -/
def isFn : Ty → Bool
  | .fn _ _ => true
  | _ => false

end Ty

/-! ## Sets of variables -/

/-- Adds a variable to an ascending list, once. -/
def insertVar (v : TyVar) : List TyVar → List TyVar
  | [] => [v]
  | w :: ws =>
    if v < w then v :: w :: ws
    else if v = w then w :: ws
    else w :: insertVar v ws

/-- The variables of a list in ascending order, each once. -/
def sortVars (vs : List TyVar) : List TyVar := vs.foldr insertVar []

theorem mem_insertVar {v x : TyVar} {ws : List TyVar} :
    x ∈ insertVar v ws ↔ x = v ∨ x ∈ ws := by
  induction ws with
  | nil => simp [insertVar]
  | cons w ws ih =>
    unfold insertVar
    split
    · simp
    · split
      · simp_all
      · simp only [List.mem_cons, ih]
        exact or_left_comm

@[simp] theorem mem_sortVars {x : TyVar} {vs : List TyVar} : x ∈ sortVars vs ↔ x ∈ vs := by
  induction vs with
  | nil => simp [sortVars]
  | cons v vs ih => simpa [sortVars, mem_insertVar] using or_congr_right ih

theorem pairwise_insertVar {v : TyVar} {ws : List TyVar} (h : ws.Pairwise (· < ·)) :
    (insertVar v ws).Pairwise (· < ·) := by
  induction ws with
  | nil => simp [insertVar]
  | cons w ws ih =>
    have hw := List.pairwise_cons.1 h
    unfold insertVar
    split
    · rename_i hv
      refine List.pairwise_cons.2 ⟨fun x hx => ?_, h⟩
      rcases List.mem_cons.1 hx with rfl | hx
      · exact hv
      · exact Nat.lt_trans hv (hw.1 x hx)
    · split
      · exact h
      · rename_i hlt hne
        refine List.pairwise_cons.2 ⟨fun x hx => ?_, ih hw.2⟩
        rcases mem_insertVar.1 hx with rfl | hx
        · exact Nat.lt_of_le_of_ne (Nat.le_of_not_lt hlt) (Ne.symm hne)
        · exact hw.1 x hx

theorem pairwise_sortVars (vs : List TyVar) : (sortVars vs).Pairwise (· < ·) := by
  induction vs with
  | nil => simp [sortVars]
  | cons v vs ih => exact pairwise_insertVar ih

theorem nodup_sortVars (vs : List TyVar) : (sortVars vs).Nodup :=
  (pairwise_sortVars vs).imp fun h => Nat.ne_of_lt h

/-- The free variables of a type, ascending. -/
def Ty.freeVars (t : Ty) : List TyVar := sortVars t.vars

end TypedLisp
