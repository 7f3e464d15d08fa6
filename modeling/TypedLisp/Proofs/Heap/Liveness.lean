import Mathlib.Algebra.BigOperators.Group.Finset.Basic
import Mathlib.Data.List.ReduceOption
import TypedLisp.Proofs.Heap.Matching

/-!
# Collection keeps what is live

An object is live if it is pinned, if it is a root, or if a live object refers to it (`Heap.Live`).
Objects may refer to each other in cycles, so what is live is not found by going down: marking goes
through a list of addresses in rounds (`Heap.Round`), and a mark is set once only.
-/

namespace TypedLisp

/-- Whether an object refers to an address. -/
inductive Object.RefersTo : Object → Addr → Prop where
  | item {items : List Addr} {a : Addr} (h : a ∈ items) : RefersTo (.vector items) a
  | member {items : List Addr} {a : Addr} (h : a ∈ items) : RefersTo (.set items) a
  | key {entries : List (Addr × Addr)} {k v : Addr} (h : (k, v) ∈ entries) :
      RefersTo (.map entries) k
  | value {entries : List (Addr × Addr)} {k v : Addr} (h : (k, v) ∈ entries) :
      RefersTo (.map entries) v
  | capture {f : FnObject} {a : Addr} (h : some a ∈ f.captures) : RefersTo (.fn f) a
  | field {l : Layout} {fields : List (Option Addr)} {a : Addr} (h : some a ∈ fields) :
      RefersTo (.variant l fields) a

theorem Object.mem_children_iff {o : Object} {a : Addr} : a ∈ o.children ↔ o.RefersTo a := by
  constructor
  · intro ha
    cases o with
    | bool | int | str | fault => cases ha
    | vector items => exact .item ha
    | set items => exact .member ha
    | map entries =>
      obtain ⟨⟨k, v⟩, he, ha⟩ := List.mem_flatMap.1 ha
      rcases List.mem_pair.1 ha with rfl | rfl
      · exact .key he
      · exact .value he
    | fn f =>
      obtain ⟨_, hc, rfl⟩ := List.mem_filterMap.1 ha
      exact .capture hc
    | variant l fields =>
      obtain ⟨_, hf, rfl⟩ := List.mem_filterMap.1 ha
      exact .field hf
  · intro ha
    cases ha with
    | item h => exact h
    | member h => exact h
    | key h => exact List.mem_flatMap.2 ⟨_, h, List.mem_cons_self ..⟩
    | value h => exact List.mem_flatMap.2 ⟨_, h, List.mem_cons_of_mem _ (List.mem_cons_self ..)⟩
    | capture h => exact List.mem_filterMap.2 ⟨_, h, rfl⟩
    | field h => exact List.mem_filterMap.2 ⟨_, h, rfl⟩

namespace Heap

variable {h : Heap} {a c : Addr}

/-! ## The rounds of marking -/

/-- Marking in progress: the marks so far, and the addresses that are still to be marked. -/
structure Marking where
  marks : Array Bool
  todo : List Addr

/-- One round of marking: the first address has a mark already, or none can be set there, and it is
passed over; or else it is marked, and what it refers to comes in its place. -/
inductive Round (h : Heap) : Marking → Marking → Prop where
  | pass {marks : Array Bool} {a : Addr} {rest : List Addr} (ha : marks[a]? ≠ some false) :
      Round h ⟨marks, a :: rest⟩ ⟨marks, rest⟩
  | visit {marks : Array Bool} {a : Addr} {rest : List Addr} (ha : marks[a]? = some false) :
      Round h ⟨marks, a :: rest⟩ ⟨marks.setIfInBounds a true, (h.object a).children ++ rest⟩

/-- Some rounds of marking, one after the other. -/
inductive Rounds (h : Heap) : Nat → Marking → Marking → Prop where
  | done (s : Marking) : Rounds h 0 s s
  | next {n : Nat} {s s₁ s' : Marking} (hround : h.Round s s₁) (hrest : Rounds h n s₁ s') :
      Rounds h (n + 1) s s'

/-- The number of references in the objects that have no mark. -/
def unmarkedReferences (h : Heap) (marks : Array Bool) : Nat :=
  ∑ a ∈ Finset.range marks.size, if marks[a]? = some false then (h.object a).children.length else 0

/-- The number of references in a heap. -/
def references (h : Heap) : Nat := ∑ a ∈ Finset.range h.slots.size, (h.object a).children.length

/-- A mark that is set takes the references of its object off those that are left. -/
theorem unmarkedReferences_set {marks : Array Bool} (ha : marks[a]? = some false) :
    h.unmarkedReferences marks =
      h.unmarkedReferences (marks.setIfInBounds a true) + (h.object a).children.length := by
  obtain ⟨hlt, -⟩ := Array.getElem?_eq_some_iff.1 ha
  have hmem : a ∈ Finset.range marks.size := Finset.mem_range.2 hlt
  unfold unmarkedReferences
  rw [Array.size_setIfInBounds, ← Finset.sum_erase_add _ _ hmem, ← Finset.sum_erase_add _ _ hmem,
    if_pos ha, Array.getElem?_setIfInBounds_self_of_lt hlt, if_neg (by simp), Nat.add_zero]
  refine congrArg (· + _) (Finset.sum_congr rfl fun b hb => ?_)
  rw [Array.getElem?_setIfInBounds_ne (Finset.ne_of_mem_erase hb).symm]

theorem unmarkedReferences_replicate (h : Heap) :
    h.unmarkedReferences (Array.replicate h.slots.size false) = h.references := by
  unfold unmarkedReferences references
  rw [Array.size_replicate]
  refine Finset.sum_congr rfl fun a ha => if_pos ?_
  rw [Array.getElem?_replicate, if_pos (Finset.mem_range.1 ha)]

/-- **Each round is one of as many as there are addresses and references left.** -/
theorem Round.length_add {s s' : Marking} (hround : h.Round s s') :
    s.todo.length + h.unmarkedReferences s.marks =
      s'.todo.length + h.unmarkedReferences s'.marks + 1 := by
  cases hround with
  | pass ha =>
    simp only [List.length_cons]
    omega
  | visit ha =>
    simp only [List.length_cons, List.length_append]
    rw [unmarkedReferences_set ha]
    omega

theorem Rounds.length_add {n : Nat} {s s' : Marking} (hrounds : h.Rounds n s s') :
    s.todo.length + h.unmarkedReferences s.marks =
      s'.todo.length + h.unmarkedReferences s'.marks + n := by
  induction hrounds with
  | done s => rfl
  | next hround _ ih =>
    rw [hround.length_add, ih]
    omega

theorem exists_rounds_mark (h : Heap) (marks : Array Bool) (todo : List Addr) :
    ∃ n, h.Rounds n ⟨marks, todo⟩ ⟨h.mark marks todo, []⟩ := by
  fun_induction mark h marks todo with
  | case1 marks => exact ⟨0, .done _⟩
  | case2 marks a rest ha hmark ih =>
    obtain ⟨n, hn⟩ := ih
    exact ⟨n + 1, .next (.pass (by simp [Array.getElem?_eq_getElem ha, hmark])) hn⟩
  | case3 marks a rest ha hmark ih =>
    obtain ⟨n, hn⟩ := ih
    have hset : marks.set a true ha = marks.setIfInBounds a true := by
      simp [Array.setIfInBounds, ha]
    rw [hset] at hn ⊢
    exact ⟨n + 1, .next (.visit (by simpa [Array.getElem?_eq_getElem ha] using hmark)) hn⟩
  | case4 marks a rest ha ih =>
    obtain ⟨n, hn⟩ := ih
    exact ⟨n + 1, .next (.pass (by simp [Array.getElem?_eq_none (Nat.le_of_not_lt ha)])) hn⟩

/-- **Marking ends**, after as many rounds at most as there are roots, pinned objects and references
in the heap. -/
theorem exists_rounds_reached (h : Heap) (roots : List Addr) :
    ∃ n ≤ roots.length + h.pinnedAddrs.length + h.references,
      h.Rounds n ⟨Array.replicate h.slots.size false, roots ++ h.pinnedAddrs⟩
        ⟨h.reached roots, []⟩ := by
  obtain ⟨n, hn⟩ := exists_rounds_mark h (Array.replicate h.slots.size false)
    (roots ++ h.pinnedAddrs)
  refine ⟨n, ?_, hn⟩
  have hcount := hn.length_add
  simp only [List.length_append, List.length_nil, unmarkedReferences_replicate] at hcount
  omega

/-! ## What is live -/

/-- Whether an object may still be needed: it is a root, or pinned, or something that may be needed
refers to it. A word that is unset is no root. -/
inductive Live (h : Heap) (words : List (Option Addr)) : Addr → Prop where
  | root {a : Addr} (ha : some a ∈ words) : Live h words a
  | pinned {a : Addr} {o : Object} (ha : h.slot? a = some ⟨true, o⟩) : Live h words a
  | child {a c : Addr} {o : Object} (ha : Live h words a) (ho : h.get? a = some o)
      (hc : o.RefersTo c) : Live h words c

variable {words : List (Option Addr)}

theorem Live.of_mem_children (ha : h.Live words a) (hc : c ∈ (h.object a).children) :
    h.Live words c := by
  cases ho : h.get? a with
  | none => simp [object, ho, Object.children] at hc
  | some o =>
    rw [object_of_get? ho] at hc
    exact .child ha ho (Object.mem_children_iff.1 hc)

theorem Rounds.live {n : Nat} {s s' : Marking} (hrounds : h.Rounds n s s')
    (hmarks : ∀ a, Marked s.marks a → h.Live words a) (htodo : ∀ a ∈ s.todo, h.Live words a) :
    ∀ a, Marked s'.marks a → h.Live words a := by
  induction hrounds with
  | done s => exact hmarks
  | next hround _ ih =>
    cases hround with
    | pass ha => exact ih hmarks fun b hb => htodo b (List.mem_cons_of_mem _ hb)
    | @visit marks a rest ha =>
      have hlive : h.Live words a := htodo a (List.mem_cons_self ..)
      refine ih (fun b hb => ?_) fun b hb => ?_
      · by_cases hba : b = a
        · exact hba ▸ hlive
        · exact hmarks b (by simpa [Marked, Array.getElem?_setIfInBounds_ne (Ne.symm hba)] using hb)
      · rcases List.mem_append.1 hb with hb | hb
        · exact hlive.of_mem_children hb
        · exact htodo b (List.mem_cons_of_mem _ hb)

/-- **What is marked is what is live.** -/
theorem reached_iff_live {e : Entry} (ha : h.slot? a = some e) :
    h.Reached words.reduceOption a ↔ h.Live words a := by
  constructor
  · intro hreached
    obtain ⟨n, -, hn⟩ := h.exists_rounds_reached words.reduceOption
    refine hn.live (fun b hb => ?_) (fun b hb => ?_) a hreached
    · simp [Marked, Array.getElem?_replicate] at hb
    · rcases List.mem_append.1 hb with hb | hb
      · exact .root (List.reduceOption_mem_iff.1 hb)
      · cases hs : h.slot? b with
        | none => simp [pinnedAddrs, hs] at hb
        | some e =>
          obtain ⟨pinned, o⟩ := e
          obtain ⟨-, rfl⟩ : b < h.slots.size ∧ pinned = true := by simpa [pinnedAddrs, hs] using hb
          exact .pinned hs
  · intro hlive
    have hlt := lt_size_of_slot? ha
    clear ha e
    induction hlive with
    | root ha => exact .of_mem_roots (List.reduceOption_mem_iff.2 ha) hlt
    | pinned ha => exact .of_pinned ha
    | @child a c o _ ho hc ih =>
      obtain ⟨e, he, -⟩ := get?_eq_some.1 ho
      refine (ih (lt_size_of_slot? he)).child ?_ hlt
      rw [object_of_get? ho]
      exact Object.mem_children_iff.2 hc

theorem reached_of_slot?_collect {roots : List Addr} {e : Entry}
    (ha : (h.collect roots).2.slot? a = some e) : h.Reached roots a := by
  change ((h.slots.mapIdx fun a e => if (h.reached roots).getD a false then e else none)[a]?).join =
    some e at ha
  rw [Array.getElem?_mapIdx] at ha
  by_contra hreached
  have hmark : (h.reached roots).getD a false = false := by
    rw [Array.getD_eq_getD_getElem?]
    cases hm : (h.reached roots)[a]? with
    | none => rfl
    | some b =>
      cases b with
      | false => rfl
      | true => exact absurd hm hreached
  cases hs : h.slots[a]? <;> simp [hs, hmark] at ha

/-- **Collection keeps the live objects as they are, and no others.** -/
theorem slot?_collect_eq_some_iff {e : Entry} :
    (h.collect words.reduceOption).2.slot? a = some e ↔ h.slot? a = some e ∧ h.Live words a := by
  constructor
  · intro ha
    have hold := slot?_of_collect ha
    exact ⟨hold, (reached_iff_live hold).1 (reached_of_slot?_collect ha)⟩
  · rintro ⟨ha, hlive⟩
    rw [((reached_iff_live ha).2 hlive).slot?_collect, ha]

theorem Live.object_collect (ha : h.Live words a) :
    (h.collect words.reduceOption).2.object a = h.object a := by
  have hslot : (h.collect words.reduceOption).2.slot? a = h.slot? a := by
    ext e
    rw [slot?_collect_eq_some_iff]
    exact and_iff_left ha
  rw [object, get?, hslot, object, get?]

theorem size_slots_collect (h : Heap) (roots : List Addr) :
    (h.collect roots).2.slots.size = h.slots.size := Array.size_mapIdx ..

/-- The values of two heaps agree where the objects do, and all that these refer to. -/
theorem decodeTo_congr {h' : Heap} {P : Addr → Prop} (hobject : ∀ a, P a → h'.object a = h.object a)
    (hchild : ∀ a, P a → ∀ c ∈ (h.object a).children, P c) (n : Nat) (ha : P a) :
    h'.decodeTo n a = h.decodeTo n a := by
  induction n generalizing a with
  | zero => rfl
  | succ n ih =>
    refine Matching.decodeTo_succ_eq (μ := .unmoved) ?_ fun c hc => ih (hchild a ha c hc)
    exact hobject a ha ▸ .refl a _

/-- **A live object has the value that it had before**, or as before it has none. -/
theorem Live.decode_collect (ha : h.Live words a) :
    (h.collect words.reduceOption).2.decode a = h.decode a := by
  rw [decode, decode, size_slots_collect]
  exact decodeTo_congr (fun _ hb => hb.object_collect) (fun _ hb _ hc => hb.of_mem_children hc) _ ha

/-! ## What a collection does -/

theorem toList_slots (h : Heap) : h.slots.toList = (List.range h.slots.size).map h.slot? := by
  refine List.ext_getElem (by simp) fun a ha _ => ?_
  have hlt : a < h.slots.size := by simpa using ha
  simp [slot?, hlt]

theorem countP_slots (h : Heap) (p : Option Entry → Bool) :
    h.slots.countP p = (List.range h.slots.size).countP fun a => p (h.slot? a) := by
  rw [← Array.countP_toList, toList_slots, List.countP_map]
  rfl

/-- The number of objects that a heap has and another one has not. -/
def removed (h h' : Heap) : Nat :=
  (List.range h.slots.size).countP fun a => (h.slot? a).isSome && (h'.slot? a).isNone

theorem collectable_eq_add_removed (h : Heap) (roots : List Addr) :
    h.collectable = (h.collect roots).2.collectable + h.removed (h.collect roots).2 := by
  unfold collectable removed
  rw [countP_slots, countP_slots, size_slots_collect,
    List.countP_eq_countP_filter_add _ _ fun a => ((h.collect roots).2.slot? a).isSome,
    List.countP_filter, List.countP_filter]
  congr 1
  · refine List.countP_congr fun a _ => ?_
    cases ha : (h.collect roots).2.slot? a with
    | none => simp
    | some e => simp [slot?_of_collect ha]
  · refine List.countP_congr fun a _ => ?_
    cases hs : h.slot? a with
    | none => simp
    | some e =>
      obtain ⟨pinned, o⟩ := e
      cases pinned with
      | false => simp
      | true => simp [(Reached.of_pinned hs).slot?_collect, hs]

/-- What a collection does to a heap that starts from some words, removes `freed` objects and gives
the heap `h'`. -/
structure Sweep (h : Heap) (words : List (Option Addr)) (freed : Nat) (h' : Heap) : Prop where
  /-- An object that can go is still there exactly if it is live. -/
  kept_iff : ∀ a o, h.slot? a = some ⟨false, o⟩ → ((h'.slot? a).isSome ↔ h.Live words a)
  pinned : ∀ a o, h.slot? a = some ⟨true, o⟩ → h'.slot? a = some ⟨true, o⟩
  /-- What is there afterwards was there before with the same contents. -/
  unchanged : ∀ a e, h'.slot? a = some e → h.slot? a = some e
  decode_eq : ∀ a, some a ∈ words → h'.decode a = h.decode a
  freed_eq : freed = h.removed h'
  threshold_eq : h'.threshold = max 4096 (2 * h'.collectable)

theorem sweep_collect (h : Heap) (words : List (Option Addr)) :
    h.Sweep words (h.collect words.reduceOption).1 (h.collect words.reduceOption).2 where
  kept_iff a o ha := by
    rw [Option.isSome_iff_exists]
    simp only [slot?_collect_eq_some_iff, ha]
    simp
  pinned a o ha := slot?_collect_eq_some_iff.2 ⟨ha, .pinned ha⟩
  unchanged a e ha := slot?_of_collect ha
  decode_eq a ha := (Live.root ha).decode_collect
  freed_eq := by
    show h.collectable - (h.collect words.reduceOption).2.collectable = _
    rw [collectable_eq_add_removed h words.reduceOption, Nat.add_sub_cancel_left]
  threshold_eq := rfl

theorem Live.collect (ha : h.Live words a) : (h.collect words.reduceOption).2.Live words a := by
  induction ha with
  | root ha => exact .root ha
  | pinned ha => exact .pinned (slot?_collect_eq_some_iff.2 ⟨ha, .pinned ha⟩)
  | @child a c o ha ho hc ih =>
    obtain ⟨e, he, rfl⟩ := get?_eq_some.1 ho
    exact .child ih (get?_eq_some.2 ⟨e, slot?_collect_eq_some_iff.2 ⟨he, ha⟩, rfl⟩) hc

/-- **A second collection from the same roots removes nothing.** -/
theorem collect_collect (h : Heap) (words : List (Option Addr)) :
    (h.collect words.reduceOption).2.collect words.reduceOption =
      (0, (h.collect words.reduceOption).2) := by
  set h' := (h.collect words.reduceOption).2 with hh'
  have hslot : ∀ a, (h'.collect words.reduceOption).2.slot? a = h'.slot? a := by
    intro a
    ext e
    rw [slot?_collect_eq_some_iff, hh', slot?_collect_eq_some_iff]
    exact ⟨fun ha => ha.1, fun ha => ⟨ha, ha.2.collect⟩⟩
  have hslots : (h'.collect words.reduceOption).2.slots = h'.slots := by
    rw [← Array.toList_inj, toList_slots, toList_slots, size_slots_collect]
    exact List.map_congr_left fun a _ => hslot a
  have hcollectable : (h'.collect words.reduceOption).2.collectable = h'.collectable := by
    rw [collectable, hslots, collectable]
  refine Prod.ext ?_ ?_
  · show h'.collectable - (h'.collect words.reduceOption).2.collectable = 0
    rw [hcollectable, Nat.sub_self]
  · show (⟨(h'.collect words.reduceOption).2.slots,
      max minThreshold (2 * (h'.collect words.reduceOption).2.collectable)⟩ : Heap) = h'
    rw [hslots, hcollectable]
    rfl

/-- **Collection keeps exactly what is live.** From any words, on any heap: marking ends; the
objects that can go stay exactly if they are live, the pinned ones all stay, and what stays has its contents
and every root its value; the number given is that of the objects removed, and the next collection
is due at twice what is left, but not before 4096 objects; and a second collection from the same
words changes nothing. -/
theorem collect_keeps_exactly_live (h : Heap) (words : List (Option Addr)) :
    (∃ n ≤ words.reduceOption.length + h.pinnedAddrs.length + h.references,
      h.Rounds n ⟨Array.replicate h.slots.size false, words.reduceOption ++ h.pinnedAddrs⟩
        ⟨h.reached words.reduceOption, []⟩) ∧
    h.Sweep words (h.collect words.reduceOption).1 (h.collect words.reduceOption).2 ∧
    (h.collect words.reduceOption).2.collect words.reduceOption =
      (0, (h.collect words.reduceOption).2) :=
  ⟨h.exists_rounds_reached words.reduceOption, h.sweep_collect words, h.collect_collect words⟩

end Heap

end TypedLisp
