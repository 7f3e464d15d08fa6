import Mathlib.Data.List.Forall2

/-!
# Orders by labels and parts

Values have parts that are values, and objects refer to other objects. Both are compared by what a
node has besides its parts, its `Label`, and then by the parts from left to right, down to some
depth (`Branching.compareTo`). To each depth this is a total preorder. Nodes that correspond to one
another, and whose parts do so in turn, compare alike (`Branching.compareTo_rel`).
-/

namespace TypedLisp

variable {α β : Type} {cmp : α → α → Ordering} {cmp' : β → β → Ordering}

theorem transCmp_comap (cmp : β → β → Ordering) [Std.TransCmp cmp] (f : α → β) :
    Std.TransCmp fun a b => cmp (f a) (f b) where
  eq_swap := Std.OrientedCmp.eq_swap
  isLE_trans := Std.TransCmp.isLE_trans

/-! ## Lists -/

theorem compareLex_map (cmp : α → α → Ordering) {f : α → β} {xs ys : List α}
    (h : ∀ x ∈ xs, ∀ y ∈ ys, cmp' (f x) (f y) = cmp x y) :
    (xs.map f).compareLex cmp' (ys.map f) = xs.compareLex cmp ys := by
  induction xs generalizing ys with
  | nil => cases ys <;> rfl
  | cons x xs ih =>
    cases ys with
    | nil => rfl
    | cons y ys =>
      have hrest := ih fun u hu w hw =>
        h u (List.mem_cons_of_mem _ hu) w (List.mem_cons_of_mem _ hw)
      simp only [List.map_cons, List.compareLex, hrest,
        h x (List.mem_cons_self ..) y (List.mem_cons_self ..)]

theorem compareLex_congr {cmp' : α → α → Ordering} {xs ys : List α}
    (h : ∀ x ∈ xs, ∀ y, cmp' x y = cmp x y) : xs.compareLex cmp' ys = xs.compareLex cmp ys := by
  have hmap : (xs.map id).compareLex cmp' (ys.map id) = xs.compareLex cmp ys :=
    compareLex_map cmp fun x hx y _ => h x hx y
  simpa using hmap

theorem eq_of_compareLex {xs ys : List α} (h : ∀ x ∈ xs, ∀ y, cmp x y = .eq → x = y)
    (heq : xs.compareLex cmp ys = .eq) : xs = ys := by
  induction xs generalizing ys with
  | nil =>
    cases ys with
    | nil => rfl
    | cons y ys => cases heq
  | cons x xs ih =>
    obtain ⟨hx, hxs⟩ := List.forall_mem_cons.1 h
    cases ys with
    | nil => cases heq
    | cons y ys =>
      rw [List.compareLex_cons_cons, Ordering.then_eq_eq] at heq
      rw [hx y heq.1, ih hxs heq.2]

/-- Whether a relation between orderings goes over to those of one order after another. -/
structure Sequential (S : Ordering → Ordering → Prop) : Prop where
  refl : ∀ o, S o o
  andThen : ∀ {a a' b b'}, S a a' → S b b' → S (a.then b) (a'.then b')

theorem Sequential.eq : Sequential (· = ·) := ⟨fun _ => rfl, fun ha hb => ha ▸ hb ▸ rfl⟩

theorem compareLex_rel {S : Ordering → Ordering → Prop} (hS : Sequential S) {R Q : α → β → Prop}
    (hcmp : ∀ x u y v, R x u → Q y v → S (cmp x y) (cmp' u v)) {xs ys : List α} {us vs : List β}
    (hx : List.Forall₂ R xs us) (hy : List.Forall₂ Q ys vs) :
    S (xs.compareLex cmp ys) (us.compareLex cmp' vs) := by
  induction hx generalizing ys vs with
  | nil =>
    cases hy with
    | nil => exact hS.refl .eq
    | cons _ _ => exact hS.refl .lt
  | cons hxu _ ih =>
    cases hy with
    | nil => exact hS.refl .gt
    | cons hyv hys =>
      rw [List.compareLex_cons_cons, List.compareLex_cons_cons]
      exact hS.andThen (hcmp _ _ _ _ hxu hyv) (ih hys)

/-! ## Labels -/

/-- What a node has besides its parts. -/
structure Label where
  kind : Nat
  flag : Bool := false
  number : Int64 := 0
  name : String := ""
  constructor : String := ""
  arity : Nat := 0

namespace Label

/-- The lexicographic order of labels. -/
def compare : Label → Label → Ordering :=
  compareLex (compareOn kind) <| compareLex (compareOn flag) <| compareLex (compareOn number) <|
    compareLex (compareOn name) <| compareLex (compareOn constructor) (compareOn arity)

instance : Std.TransCmp compare :=
  inferInstanceAs (Std.TransCmp (compareLex _ (compareLex _ (compareLex _ (compareLex _
    (compareLex _ _))))))

theorem compare_eq (l l' : Label) : compare l l' =
    (Ord.compare l.kind l'.kind).then ((Ord.compare l.flag l'.flag).then
      ((Ord.compare l.number l'.number).then ((Ord.compare l.name l'.name).then
        ((Ord.compare l.constructor l'.constructor).then (Ord.compare l.arity l'.arity))))) := rfl

theorem compare_eq_eq {l l' : Label} : compare l l' = .eq ↔ l = l' := by
  cases l
  cases l'
  simp only [compare_eq, Ordering.then_eq_eq, Std.LawfulEqCmp.compare_eq_iff_eq, mk.injEq]

end Label

/-! ## Nodes -/

/-- Nodes with labels, and with parts that come in groups. -/
structure Branching (α : Type) where
  label : α → Label
  groups : α → List (List α)

namespace Branching

variable (T : Branching α) {U : Branching β}

/-- The order of nodes by labels, then by parts, down to a depth. -/
def compareTo : Nat → α → α → Ordering
  | 0 => fun _ _ => .eq
  | n + 1 => compareLex (fun x y => (T.label x).compare (T.label y)) fun x y =>
      (T.groups x).compareLex (List.compareLex (compareTo n)) (T.groups y)

/-- **To each depth the order of nodes is a total preorder.** -/
instance (n : Nat) : Std.TransCmp (T.compareTo n) := by
  induction n with
  | zero => exact { eq_swap := rfl, isLE_trans := fun _ _ => rfl }
  | succ n ih =>
    have := transCmp_comap Label.compare T.label
    have := transCmp_comap (List.compareLex (List.compareLex (T.compareTo n))) T.groups
    exact inferInstanceAs (Std.TransCmp (compareLex _ _))

variable {T}

/-- **Nodes that correspond to one another compare alike**, to each depth at which they still
correspond and any greater one. -/
theorem compareTo_rel {S : Ordering → Ordering → Prop} (hS : Sequential S)
    {R Q : Nat → α → β → Prop} (hzero : ∀ x u, ¬R 0 x u)
    (hlabel : ∀ {n x u y v}, R (n + 1) x u → Q (n + 1) y v →
      S ((T.label x).compare (T.label y)) ((U.label u).compare (U.label v)))
    (hgroups : ∀ {n x u}, R (n + 1) x u →
      List.Forall₂ (List.Forall₂ (R n)) (T.groups x) (U.groups u))
    (hgroups' : ∀ {n x u}, Q (n + 1) x u →
      List.Forall₂ (List.Forall₂ (Q n)) (T.groups x) (U.groups u))
    {n m : Nat} (hnm : n ≤ m) {x y : α} {u v : β} (hx : R n x u) (hy : Q n y v) :
    S (T.compareTo n x y) (U.compareTo m u v) := by
  induction n generalizing m x y u v with
  | zero => exact absurd hx (hzero x u)
  | succ n ih =>
    obtain ⟨m, rfl⟩ := Nat.exists_eq_add_of_le' (Nat.lt_of_lt_of_le (Nat.succ_pos n) hnm)
    have hpart : ∀ x u y v, R n x u → Q n y v → S (T.compareTo n x y) (U.compareTo m u v) :=
      fun _ _ _ _ => ih (Nat.le_of_succ_le_succ hnm)
    have hgroup : ∀ xs us ys vs, List.Forall₂ (R n) xs us → List.Forall₂ (Q n) ys vs →
        S (xs.compareLex (T.compareTo n) ys) (us.compareLex (U.compareTo m) vs) :=
      fun _ _ _ _ => compareLex_rel hS hpart
    exact hS.andThen (hlabel hx hy) (compareLex_rel hS hgroup (hgroups hx) (hgroups' hy))

end Branching

end TypedLisp
