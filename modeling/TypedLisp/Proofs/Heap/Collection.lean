import TypedLisp.Proofs.Machine.Growth

/-!
# What collection keeps

Marking goes through a list of addresses that are still to be marked. In the end the marks are
closed: an object that is reached has all its children reached (`Heap.Reached.child`), and it stays
as it is. A machine collects from the cells that it tracks: what a cell holds is reached if the
cells are covered (`Machine.Covered.reached`).
-/

namespace TypedLisp

namespace Heap

variable {h : Heap}

/-- Whether an address has a mark. -/
def Marked (marks : Array Bool) (a : Addr) : Prop := marks[a]? = some true

/-- Whether the children of marked objects are marked, or still to be marked. -/
def ClosedUpTo (h : Heap) (marks : Array Bool) (todo : List Addr) : Prop :=
  ∀ a, Marked marks a → ∀ c ∈ (h.object a).children, c < marks.size → Marked marks c ∨ c ∈ todo

/-- What marking does: it keeps the marks there are, marks what it is given, and goes on to the
children of what it marks. -/
structure MarksTo (h : Heap) (marks : Array Bool) (todo : List Addr) (marks' : Array Bool) :
    Prop where
  size_eq : marks'.size = marks.size
  kept : ∀ a, Marked marks a → Marked marks' a
  todo_marked : ∀ a ∈ todo, a < marks.size → Marked marks' a
  closed : h.ClosedUpTo marks todo → h.ClosedUpTo marks' []

theorem marksTo_mark (h : Heap) (marks : Array Bool) (todo : List Addr) :
    h.MarksTo marks todo (h.mark marks todo) := by
  fun_induction mark h marks todo with
  | case1 marks => exact ⟨rfl, fun _ ha => ha, nofun, fun hclosed => hclosed⟩
  | case2 marks a rest ha hmark ih =>
    have hmarked : Marked marks a := by
      rw [Marked, Array.getElem?_eq_getElem ha, hmark]
    refine ⟨ih.size_eq, ih.kept, fun b hb hlt => ?_, fun hclosed => ih.closed fun b hb c hc hlt => ?_⟩
    · rcases List.mem_cons.1 hb with rfl | hb
      · exact ih.kept _ hmarked
      · exact ih.todo_marked b hb hlt
    · rcases hclosed b hb c hc hlt with hc | hc
      · exact .inl hc
      · rcases List.mem_cons.1 hc with rfl | hc
        · exact .inl hmarked
        · exact .inr hc
  | case3 marks a rest ha hmark ih =>
    have hsize : (marks.set a true).size = marks.size := Array.size_set ..
    have hself : Marked (marks.set a true) a := by simp [Marked, ha]
    have hset : ∀ b, Marked marks b → Marked (marks.set a true) b := by
      intro b hb
      by_cases hba : b = a
      · exact hba ▸ hself
      · simpa [Marked, Array.getElem?_set, Ne.symm hba] using hb
    have hback : ∀ b, Marked (marks.set a true) b → b = a ∨ Marked marks b := by
      intro b hb
      by_cases hba : b = a
      · exact .inl hba
      · exact .inr (by simpa [Marked, Array.getElem?_set, Ne.symm hba] using hb)
    refine ⟨ih.size_eq.trans hsize, fun b hb => ih.kept b (hset b hb), fun b hb hlt => ?_,
      fun hclosed => ih.closed fun b hb c hc hlt => ?_⟩
    · rcases List.mem_cons.1 hb with rfl | hb
      · exact ih.kept _ hself
      · exact ih.todo_marked b (List.mem_append_right _ hb) (hsize ▸ hlt)
    · rcases hback b hb with rfl | hb
      · exact .inr (List.mem_append_left _ hc)
      · rcases hclosed b hb c hc (hsize ▸ hlt) with hc | hc
        · exact .inl (hset c hc)
        · rcases List.mem_cons.1 hc with rfl | hc
          · exact .inl hself
          · exact .inr (List.mem_append_right _ hc)
  | case4 marks a rest ha ih =>
    refine ⟨ih.size_eq, ih.kept, fun b hb hlt => ?_, fun hclosed => ih.closed fun b hb c hc hlt => ?_⟩
    · rcases List.mem_cons.1 hb with rfl | hb
      · exact absurd hlt ha
      · exact ih.todo_marked b hb hlt
    · rcases hclosed b hb c hc hlt with hc | hc
      · exact .inl hc
      · rcases List.mem_cons.1 hc with rfl | hc
        · exact absurd hlt ha
        · exact .inr hc

/-! ## What is reached -/

/-- Whether the roots or the pinned objects lead to an address. -/
def Reached (h : Heap) (roots : List Addr) (a : Addr) : Prop := Marked (h.reached roots) a

variable {roots : List Addr} {a c : Addr}

theorem marksTo_reached (h : Heap) (roots : List Addr) :
    h.MarksTo (Array.replicate h.slots.size false) (roots ++ h.pinnedAddrs) (h.reached roots) :=
  marksTo_mark h _ _

theorem Reached.of_mem_roots (ha : a ∈ roots) (hlt : a < h.slots.size) : h.Reached roots a :=
  (marksTo_reached h roots).todo_marked a (List.mem_append_left _ ha) (by simpa using hlt)

theorem Reached.of_pinned {o : Object} (ha : h.slot? a = some ⟨true, o⟩) : h.Reached roots a := by
  have hlt := lt_size_of_slot? ha
  refine (marksTo_reached h roots).todo_marked a (List.mem_append_right _ ?_) (by simpa using hlt)
  simp [pinnedAddrs, ha, hlt]

/-- Nothing has a mark at first, so in the end the children of what is marked are marked. -/
theorem Reached.child (ha : h.Reached roots a) (hc : c ∈ (h.object a).children)
    (hlt : c < h.slots.size) : h.Reached roots c := by
  have hclosed := (marksTo_reached h roots).closed fun b hb => by
    simp [Marked, Array.getElem?_replicate] at hb
  have hsize := (marksTo_reached h roots).size_eq
  exact (hclosed a ha c hc (by simpa [hsize] using hlt)).resolve_right List.not_mem_nil

/-- **What is reached stays.** -/
theorem Reached.slot?_collect (ha : h.Reached roots a) :
    (h.collect roots).2.slot? a = h.slot? a := by
  have hmark : (h.reached roots).getD a false = true := by
    rw [Array.getD_eq_getD_getElem?, show (h.reached roots)[a]? = some true from ha]
    rfl
  show ((h.slots.mapIdx fun a e => if (h.reached roots).getD a false then e else none)[a]?).join = _
  rw [Array.getElem?_mapIdx]
  cases hs : h.slots[a]? with
  | none => simp [slot?, hs]
  | some e => simp [slot?, hs, hmark]

theorem slot?_of_collect {e : Entry} (ha : (h.collect roots).2.slot? a = some e) :
    h.slot? a = some e := by
  change ((h.slots.mapIdx fun a e => if (h.reached roots).getD a false then e else none)[a]?).join =
    some e at ha
  rw [Array.getElem?_mapIdx] at ha
  cases hs : h.slots[a]? with
  | none => simp [hs] at ha
  | some e' =>
    rw [hs, Option.map_some, Option.join_some] at ha
    split at ha
    · rw [slot?, hs, ha]
      rfl
    · cases ha

theorem Reached.get?_collect (ha : h.Reached roots a) : (h.collect roots).2.get? a = h.get? a := by
  rw [get?, ha.slot?_collect, get?]

end Heap

/-! ## Collection by a machine -/

namespace Machine

variable {m : Machine}

theorem mem_roots {i : Nat} {a : Addr} (hi : i ∈ m.tracked) (ha : m.cells[i]?.join = some a) :
    a ∈ m.roots :=
  List.mem_filterMap.2 ⟨i, hi, ha⟩

/-- Whether collection starts from all that the cells hold: a cell is tracked, or its object is
pinned. -/
def Covered (m : Machine) : Prop :=
  ∀ i a, m.cells[i]?.join = some a → i ∈ m.tracked ∨ ∃ o, m.heap.slot? a = some ⟨true, o⟩

theorem Covered.reached (hm : m.Covered) {i : Nat} {a : Addr} (ha : m.cells[i]?.join = some a)
    (hlt : a < m.heap.slots.size) : m.heap.Reached m.roots a := by
  rcases hm i a ha with hi | ⟨o, ho⟩
  · exact .of_mem_roots (mem_roots hi ha) hlt
  · exact .of_pinned ho

theorem Covered.mono {m' : Machine} (hm : m.Covered) (hheap : m.heap ≤ m'.heap)
    (hcells : m'.cells = m.cells) (htracked : m.tracked ⊆ m'.tracked) : m'.Covered := by
  intro i a ha
  rw [hcells] at ha
  rcases hm i a ha with hi | ⟨o, ho⟩
  · exact .inl (htracked hi)
  · exact .inr ⟨o, Heap.slot?_of_le hheap ho⟩

theorem Covered.collectGarbage (hm : m.Covered) : (collectGarbage m).2.Covered := by
  intro i a ha
  rcases hm i a ha with hi | ⟨o, ho⟩
  · exact .inl hi
  · exact .inr ⟨o, (Heap.Reached.of_pinned ho).slot?_collect.trans ho⟩

theorem collectIfDue_eq (m : Machine) :
    (collectIfDue m).2 = m ∨ (collectIfDue m).2 = (collectGarbage m).2 := by
  unfold collectIfDue
  show ((if m.heap.collectionDue then _ else _ : Run PUnit) m).2 = m ∨
    ((if m.heap.collectionDue then _ else _ : Run PUnit) m).2 = _
  by_cases hdue : m.heap.collectionDue = true
  · rw [if_pos hdue]
    exact .inr rfl
  · rw [if_neg hdue]
    exact .inl rfl

end Machine

end TypedLisp
