import TypedLisp.Proofs.NodeOrder
import TypedLisp.Value

/-!
# The order of values

The order of values is a linear order: it is oriented and transitive, and only equal values compare
as equal. Values are trees (`Value.tree`), and to a depth that is enough for a value it is compared
as a node of this tree. So the laws are those of the order of nodes.
-/

namespace TypedLisp

namespace Value

theorem ind {motive : Value → Prop} (bool : ∀ b, motive (.bool b)) (int : ∀ n, motive (.int n))
    (str : ∀ s, motive (.str s)) (vector : ∀ vs, (∀ v ∈ vs, motive v) → motive (.vector vs))
    (set : ∀ vs, (∀ v ∈ vs, motive v) → motive (.set vs))
    (map : ∀ es, (∀ e ∈ es, motive e.1 ∧ motive e.2) → motive (.map es))
    (fn : ∀ name arity, motive (.fn name arity))
    (variant : ∀ d c vs, (∀ v ∈ vs, motive v) → motive (.variant d c vs)) (v : Value) : motive v :=
  @Value.rec motive (fun vs => ∀ v ∈ vs, motive v) (fun es => ∀ e ∈ es, motive e.1 ∧ motive e.2)
    (fun e => motive e.1 ∧ motive e.2) bool int str vector set map fn variant
    (fun _ h => nomatch h) (fun _ _ hv hvs => List.forall_mem_cons.2 ⟨hv, hvs⟩)
    (fun _ h => nomatch h) (fun _ _ he hes => List.forall_mem_cons.2 ⟨he, hes⟩)
    (fun _ _ hk hv => ⟨hk, hv⟩) v

variable {v w : Value}

/-! ## Values as nodes -/

/-- What a value has besides its parts. -/
def label : Value → Label
  | .bool b => { kind := 0, flag := b }
  | .int n => { kind := 1, number := n }
  | .str s => { kind := 2, name := s }
  | .vector _ => { kind := 3 }
  | .set _ => { kind := 4 }
  | .map _ => { kind := 5 }
  | .fn name arity => { kind := 6, name, arity }
  | .variant d c _ => { kind := 7, name := d, constructor := c }

/-- The parts of a value: items and fields one by one, and keys with their values. -/
def groups : Value → List (List Value)
  | .vector vs | .set vs | .variant _ _ vs => vs.map ([·])
  | .map es => es.map fun e => [e.1, e.2]
  | _ => []

/-- Values as nodes. -/
def tree : Branching Value := ⟨label, groups⟩

theorem sizeOf_lt_of_mem_groups {g : List Value} (hg : g ∈ v.groups) (hw : w ∈ g) :
    sizeOf w < sizeOf v := by
  cases v with
  | vector vs | set vs | variant d c vs =>
    obtain ⟨w, hv, rfl⟩ := List.mem_map.1 hg
    obtain rfl := List.mem_singleton.1 hw
    have := List.sizeOf_lt_of_mem hv
    simp only [vector.sizeOf_spec, set.sizeOf_spec, variant.sizeOf_spec]
    omega
  | map es =>
    obtain ⟨e, he, rfl⟩ := List.mem_map.1 hg
    have hsize := List.sizeOf_lt_of_mem he
    obtain ⟨k, x⟩ := e
    simp only [map.sizeOf_spec, Prod.mk.sizeOf_spec, List.mem_cons, List.not_mem_nil] at *
    rcases hw with rfl | rfl | hw
    · omega
    · omega
    · exact hw.elim
  | _ => cases hg

theorem compareAll_eq_compareLex (vs ws : List Value) :
    compareAll vs ws = vs.compareLex compare ws := by
  induction vs generalizing ws with
  | nil => cases ws <;> rfl
  | cons v vs ih =>
    cases ws with
    | nil => rfl
    | cons w ws => rw [compareAll, List.compareLex_cons_cons, ih]

theorem compareEntries_eq_compareLex (es es' : List (Value × Value)) :
    compareEntries es es' =
      es.compareLex (fun e e' => (e.1.compare e'.1).then (e.2.compare e'.2)) es' := by
  induction es generalizing es' with
  | nil => cases es' <;> rfl
  | cons e es ih =>
    cases es' with
    | nil => rfl
    | cons e' es' => rw [compareEntries, List.compareLex_cons_cons, ih]

/-- **Values are compared by labels and parts.** -/
theorem compare_eq (v w : Value) : v.compare w =
    (v.label.compare w.label).then (v.groups.compareLex (List.compareLex compare) w.groups) := by
  have hitems : ∀ vs ws : List Value,
      (vs.map ([·])).compareLex (List.compareLex compare) (ws.map ([·])) = compareAll vs ws := by
    intro vs ws
    rw [compareAll_eq_compareLex]
    exact compareLex_map compare fun v _ w _ => by
      simp [List.compareLex_cons_cons, List.compareLex_nil_nil]
  rw [Label.compare_eq]
  cases v with
  | bool | int | str | fn =>
    cases w <;> first | rfl | simp [compare, label, groups, List.compareLex_nil_nil]
  | vector vs | set vs =>
    cases w <;> first | rfl | simp [compare, label, groups, hitems]
  | variant d c vs =>
    cases w <;> first | rfl | simp [compare, label, groups, hitems, Ordering.then_assoc]
  | map es =>
    cases w with
    | map es' =>
      simp only [groups, compare, compareEntries_eq_compareLex]
      rw [compareLex_map fun e e' => (e.1.compare e'.1).then (e.2.compare e'.2)]
      · rfl
      · intro e _ e' _
        simp [List.compareLex_cons_cons, List.compareLex_nil_nil]
    | _ => rfl

theorem compareTo_eq_compare {n : Nat} (hn : sizeOf v ≤ n) (w : Value) :
    tree.compareTo n v w = v.compare w := by
  induction n generalizing v w with
  | zero => cases v <;> simp at hn
  | succ n ih =>
    rw [compare_eq]
    refine congrArg (v.label.compare w.label).then (compareLex_congr fun g hg g' => ?_)
    refine compareLex_congr fun x hx y => ih ?_ y
    exact Nat.le_of_lt_succ (Nat.lt_of_lt_of_le (sizeOf_lt_of_mem_groups hg hx) hn)

/-! ## Laws of the order -/

instance : Std.TransCmp Value.compare where
  eq_swap {v w} := by
    rw [← compareTo_eq_compare (Nat.le_add_right (sizeOf v) (sizeOf w)),
      ← compareTo_eq_compare (Nat.le_add_left (sizeOf w) (sizeOf v))]
    exact Std.OrientedCmp.eq_swap
  isLE_trans {u v w} := by
    have hu := Nat.le_add_right (sizeOf u) (sizeOf v)
    rw [← compareTo_eq_compare hu, ← compareTo_eq_compare hu,
      ← compareTo_eq_compare (Nat.le_add_left (sizeOf v) (sizeOf u))]
    exact Std.TransCmp.isLE_trans

theorem compare_swap (v w : Value) : v.compare w = (w.compare v).swap := Std.OrientedCmp.eq_swap

theorem compare_lt_trans {u v w : Value} (huv : u.compare v = .lt) (hvw : v.compare w = .lt) :
    u.compare w = .lt := Std.TransCmp.lt_trans huv hvw

@[simp] theorem compare_self (v : Value) : v.compare v = .eq := Std.ReflCmp.compare_self

theorem ne_of_compare_lt {v w : Value} (h : v.compare w = .lt) : v ≠ w := by
  rintro rfl
  rw [compare_self] at h
  cases h

theorem eq_of_label_of_groups (hlabel : v.label = w.label) (hgroups : v.groups = w.groups) :
    v = w := by
  have hitem : Function.Injective fun v : Value => [v] := fun _ _ h => List.singleton_inj.1 h
  have hentry : Function.Injective fun e : Value × Value => [e.1, e.2] := by
    rintro ⟨k, v⟩ ⟨k', v'⟩ h
    simpa using h
  cases v <;> cases w <;> simp_all [label, groups, List.map_inj_right, hitem.eq_iff, hentry.eq_iff]

theorem eq_of_compare {v w : Value} (h : v.compare w = .eq) : v = w := by
  rw [compare_eq, Ordering.then_eq_eq, Label.compare_eq_eq] at h
  refine eq_of_label_of_groups h.1 (eq_of_compareLex (fun g hg g' heq => ?_) h.2)
  exact eq_of_compareLex (fun x hx y hxy => eq_of_compare hxy) heq
termination_by sizeOf v
decreasing_by exact sizeOf_lt_of_mem_groups hg hx

instance : Std.LawfulEqCmp Value.compare where
  eq_of_compare := eq_of_compare

instance : DecidableEq Value := fun v w =>
  decidable_of_iff (v.compare w = .eq) Std.LawfulEqCmp.compare_eq_iff_eq

end Value

end TypedLisp
