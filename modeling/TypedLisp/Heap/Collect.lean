import TypedLisp.Heap

/-!
# Collection

`Heap.collect` removes the objects that cannot be reached any more. It marks what the roots and the
pinned objects lead to, and leaves a gap where an object that is not pinned has no mark.
-/

namespace TypedLisp

namespace Heap

/-- A mark that is set leaves fewer marks to set. -/
theorem count_set_lt {marks : Array Bool} {a : Addr} (ha : a < marks.size) (hm : marks[a] = false) :
    (marks.set a true).count false < marks.count false := by
  have hpos : 0 < marks.count false := Array.count_pos_iff.2 (hm ▸ Array.getElem_mem ha)
  rw [Array.count_set, hm]
  show marks.count false - 1 + 0 < marks.count false
  omega

/-- Marks the addresses of a list and all that they lead to. -/
def mark (h : Heap) (marks : Array Bool) (todo : List Addr) : Array Bool :=
  match todo with
  | [] => marks
  | a :: rest =>
    if ha : a < marks.size then
      if marks[a] then mark h marks rest
      else mark h (marks.set a true) ((h.object a).children ++ rest)
    else mark h marks rest
termination_by (marks.count false, todo.length)
decreasing_by
  · exact .right _ (Nat.lt_succ_self _)
  · rename_i hm
    exact .left _ _ (count_set_lt ha (Bool.eq_false_iff.2 hm))
  · exact .right _ (Nat.lt_succ_self _)

/-- The addresses of the pinned objects. -/
def pinnedAddrs (h : Heap) : List Addr :=
  (List.range h.slots.size).filter fun a => ((h.slot? a).map (·.pinned)).getD false

/-- By address, whether the roots or the pinned objects lead there. -/
def reached (h : Heap) (roots : List Addr) : Array Bool :=
  h.mark (Array.replicate h.slots.size false) (roots ++ h.pinnedAddrs)

/-- Removes the objects that are not pinned and that the roots do not lead to; and says how many
they are. -/
def collect (h : Heap) (roots : List Addr) : Nat × Heap :=
  let marks := h.reached roots
  let slots := h.slots.mapIdx fun a e => if marks.getD a false then e else none
  let after : Heap := ⟨slots, 0⟩
  (h.collectable - after.collectable,
    { after with threshold := max minThreshold (2 * after.collectable) })

end Heap

end TypedLisp
