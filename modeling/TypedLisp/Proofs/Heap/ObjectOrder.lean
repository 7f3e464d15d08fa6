import TypedLisp.Heap.Order
import TypedLisp.Proofs.NodeOrder

/-!
# Objects in order

Objects are compared by kind and then by contents, and what they refer to is compared in turn, down
to a depth of references. So a heap is a `Branching`, and its order is a total preorder.
-/

namespace TypedLisp

namespace Object

/-- What the object at an address has besides the references it is compared by. -/
def label (a : Addr) : Object → Label
  | .bool b => { kind := 0, flag := b }
  | .int n => { kind := 1, number := n }
  | .str s => { kind := 2, name := s }
  | .vector _ => { kind := 3 }
  | .set _ => { kind := 4 }
  | .map _ => { kind := 5 }
  | .fn _ => { kind := 6, arity := a }
  | .variant l _ => { kind := 7, name := l.dataType, arity := l.tag }
  | .fault => { kind := 8 }

/-- The references that an object is compared by: items one by one, keys with their values, and
fields, of which an unset one is empty. -/
def groups : Object → List (List Addr)
  | .vector items | .set items => items.map ([·])
  | .map entries => entries.map fun e => [e.1, e.2]
  | .variant _ fields => fields.map Option.toList
  | _ => []

/-- **Objects are compared by labels and references.** -/
theorem compareObjects_eq (cmp : Addr → Addr → Ordering) (a b : Addr) (o o' : Object) :
    Heap.compareObjects cmp a b o o' = ((o.label a).compare (o'.label b)).then
      (o.groups.compareLex (List.compareLex cmp) o'.groups) := by
  have hnil : ([] : List Addr).compareLex cmp [] = .eq := List.compareLex_nil_nil
  have hitems : ∀ xs ys : List Addr,
      (xs.map ([·])).compareLex (List.compareLex cmp) (ys.map ([·])) = xs.compareLex cmp ys :=
    fun xs ys => compareLex_map cmp fun x _ y _ => by simp [List.compareLex_cons_cons, hnil]
  rw [Label.compare_eq]
  cases o with
  | bool | int | str | fn =>
    cases o' <;> first | rfl | simp [Heap.compareObjects, label, groups, List.compareLex_nil_nil]
  | vector | set => cases o' <;> first | rfl | simp [Heap.compareObjects, label, groups, hitems]
  | map xs =>
    cases o' with
    | map ys =>
      simp only [Heap.compareObjects, groups]
      rw [compareLex_map fun x y => (cmp x.1 y.1).then (cmp x.2 y.2)]
      · rfl
      · exact fun x _ y _ => by simp [List.compareLex_cons_cons, hnil]
    | _ => rfl
  | variant l fs =>
    cases o' with
    | variant l' fs' =>
      simp only [Heap.compareObjects, label, groups]
      rw [compareLex_map (compareSlots cmp)]
      · simp [Ordering.then_assoc]
      · rintro (_ | x) _ (_ | y) _
        · exact hnil
        · rfl
        · rfl
        · simp [compareSlots, List.compareLex_cons_cons, hnil]
    | _ => rfl
  | fault => cases o' <;> rfl

end Object

namespace Heap

/-- The objects of a heap as nodes. -/
def graph (h : Heap) : Branching Addr :=
  ⟨fun a => (h.object a).label a, fun a => (h.object a).groups⟩

theorem compareTo_eq (h : Heap) (n : Nat) : h.compareTo n = h.graph.compareTo n := by
  induction n with
  | zero => rfl
  | succ n ih =>
    funext a b
    rw [compareTo]
    split
    · rename_i hab
      rw [hab]
      exact Std.ReflCmp.compare_self.symm
    · rw [Object.compareObjects_eq, ih]
      rfl

theorem compareTo_succ (h : Heap) (n : Nat) (a b : Addr) :
    h.compareTo (n + 1) a b = compareObjects (h.compareTo n) a b (h.object a) (h.object b) := by
  rw [Object.compareObjects_eq, compareTo_eq, compareTo_eq]
  rfl

instance (h : Heap) (n : Nat) : Std.TransCmp (h.compareTo n) := h.compareTo_eq n ▸ inferInstance

instance (h : Heap) : Std.TransCmp h.compare := inferInstanceAs (Std.TransCmp (h.compareTo _))

end Heap

end TypedLisp
