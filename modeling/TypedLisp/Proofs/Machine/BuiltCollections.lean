import TypedLisp.Proofs.Heap.OrderLaws
import TypedLisp.Proofs.Heap.ValueOrder

/-!
# Sets and maps that are built up

A set is built up from the empty one by putting in one object after another, and a map by putting in
one entry after another (`Machine.BuildsSet`, `Machine.BuildsMap`). In between, other objects may be
made, and slots of unfinished ones filled in. **What has been built ascends at each time, it has an
equal for everything that was put in, and it has nothing else** (`Heap.Sorts`).
-/

namespace TypedLisp

namespace Heap

variable {α : Type} {h h' : Heap} {key : α → Addr} {given kept : List α}

/-! ## Sorted lists -/

/-- Whether a list has the given items in the order of keys, and of items with equal keys just
one. -/
structure Sorts (h : Heap) (key : α → Addr) (given kept : List α) : Prop where
  ascending : kept.Pairwise fun a b => h.compare (key a) (key b) = .lt
  contains : ∀ a ∈ given, ∃ b ∈ kept, h.compare (key a) (key b) = .eq
  nothingElse : ∀ b ∈ kept, b ∈ given

theorem sorts_nil (h : Heap) (key : α → Addr) : h.Sorts key [] [] := ⟨.nil, nofun, nofun⟩

theorem Sorts.insertBy (hs : h.Sorts key given kept) (a : α) :
    h.Sorts key (given ++ [a]) (insertBy (fun a b => h.compare (key a) (key b)) a kept) := by
  have := transCmp_comap h.compare key
  have hmem := fun b => mem_insertBy_iff (a := a) (b := b) hs.ascending
  refine ⟨pairwise_insertBy hs.ascending a, fun b hb => ?_, fun b hb => ?_⟩
  · rcases List.mem_append.1 hb with hb | hb
    · obtain ⟨c, hc, hbc⟩ := hs.contains b hb
      by_cases hac : h.compare (key a) (key c) = .eq
      · -- the equal one that was there has been replaced by the new one
        exact ⟨a, (hmem a).2 (.inl rfl),
          Std.TransCmp.eq_trans hbc (Std.OrientedCmp.eq_symm hac)⟩
      · exact ⟨c, (hmem c).2 (.inr ⟨hc, hac⟩), hbc⟩
    · obtain rfl := List.mem_singleton.1 hb
      exact ⟨b, (hmem b).2 (.inl rfl), Std.ReflCmp.compare_self⟩
  · rcases (hmem b).1 hb with rfl | ⟨hb, -⟩
    · exact List.mem_append_right _ (List.mem_singleton_self b)
    · exact List.mem_append_left _ (hs.nothingElse b hb)

theorem Sorts.of_keeps (hs : h.Sorts key given kept) (hkeeps : h.Keeps h')
    (hgiven : ∀ a ∈ given, h.Finished (key a)) : h'.Sorts key given kept := by
  have hcompare : ∀ a ∈ given, ∀ b ∈ given,
      h'.compare (key a) (key b) = h.compare (key a) (key b) := fun a ha b hb =>
    (hgiven a ha).compare_eq (hgiven b hb) hkeeps
  refine ⟨?_, fun a ha => ?_, hs.nothingElse⟩
  · refine hs.ascending.imp_of_mem fun ha hb hlt => ?_
    rw [hcompare _ (hs.nothingElse _ ha) _ (hs.nothingElse _ hb)]
    exact hlt
  · obtain ⟨b, hb, hab⟩ := hs.contains a ha
    exact ⟨b, hb, (hcompare a ha b (hs.nothingElse b hb)).trans hab⟩

/-! ## The values of a map -/

/-- The value that a map has for a key. -/
def valueAt (h : Heap) (entries : List (Addr × Addr)) (k : Addr) : Option Addr :=
  (entries.find? fun e => h.compare k e.1 == .eq).map Prod.snd

theorem valueAt_cons (h : Heap) (e : Addr × Addr) (entries : List (Addr × Addr)) (k : Addr) :
    h.valueAt (e :: entries) k =
      if h.compare k e.1 = .eq then some e.2 else h.valueAt entries k := by
  rw [valueAt, List.find?_cons]
  cases h.compare k e.1 <;> rfl

/-- **An entry that is put in changes the value of its own key and of no other.** -/
theorem valueAt_insertEntry (h : Heap) (k v : Addr) (entries : List (Addr × Addr)) (k' : Addr) :
    h.valueAt (insertEntry h.compare k v entries) k' =
      if h.compare k' k = .eq then some v else h.valueAt entries k' := by
  induction entries with
  | nil => exact valueAt_cons ..
  | cons e entries ih =>
    rw [insertEntry]
    cases hcmp : h.compare k e.1 with
    | lt => exact valueAt_cons ..
    | eq =>
      rw [valueAt_cons, valueAt_cons, ← Std.TransCmp.congr_right hcmp]
      split <;> rfl
    | gt =>
      rw [valueAt_cons, valueAt_cons, ih]
      by_cases hk : h.compare k' e.1 = .eq
      · -- a key that equals this one comes before the new one
        have hlt : h.compare k' k = .lt := by
          rw [Std.TransCmp.congr_left hk]
          exact Std.OrientedCmp.lt_of_gt hcmp
        rw [if_pos hk, if_pos hk, if_neg (by simp [hlt])]
      · rw [if_neg hk, if_neg hk]

theorem valueAt_of_keeps {entries : List (Addr × Addr)} {k : Addr} (hkeeps : h.Keeps h')
    (hk : h.Finished k) (hentries : ∀ e ∈ entries, h.Finished e.1) :
    h'.valueAt entries k = h.valueAt entries k := by
  induction entries with
  | nil => rfl
  | cons e entries ih =>
    obtain ⟨he, hentries⟩ := List.forall_mem_cons.1 hentries
    rw [valueAt_cons, valueAt_cons, hk.compare_eq he hkeeps, ih hentries]

end Heap

namespace Machine

open Heap

variable {m m' : Machine} {s p x k v : Addr} {xs : List Addr} {es : List (Addr × Addr)}

/-! ## Building up -/

/-- A set that is built up: the machine at some time, the set, and what has been put in so far. -/
inductive BuildsSet : Machine → Addr → List Addr → Prop where
  | start (m : Machine) : BuildsSet (alloc (.set []) m).2 (alloc (.set []) m).1 []
  | conj {m : Machine} {s : Addr} {xs : List Addr} (hs : BuildsSet m s xs) {x : Addr}
      (hx : m.heap.Finished x) : BuildsSet (setConj s x m).2 (setConj s x m).1 (xs ++ [x])
  /-- Other things happen that leave finished objects alone. -/
  | wait {m m' : Machine} {s : Addr} {xs : List Addr} (hs : BuildsSet m s xs)
      (hkeeps : m.heap.Keeps m'.heap) : BuildsSet m' s xs

/-- A map that is built up: the machine at some time, the map, and what has been put in so far. -/
inductive BuildsMap : Machine → Addr → List (Addr × Addr) → Prop where
  | start (m : Machine) : BuildsMap (alloc (.map []) m).2 (alloc (.map []) m).1 []
  | assoc {m : Machine} {p : Addr} {es : List (Addr × Addr)} (hp : BuildsMap m p es) {k v : Addr}
      (hk : m.heap.Finished k) (hv : m.heap.Finished v) :
      BuildsMap (mapAssoc p k v m).2 (mapAssoc p k v m).1 (es ++ [(k, v)])
  /-- Other things happen that leave finished objects alone. -/
  | wait {m m' : Machine} {p : Addr} {es : List (Addr × Addr)} (hp : BuildsMap m p es)
      (hkeeps : m.heap.Keeps m'.heap) : BuildsMap m' p es

theorem keeps_setConj (s x : Addr) (m : Machine) : m.heap.Keeps (setConj s x m).2.heap :=
  keeps_of_le (leads_setConj (R := LE.le) s x m).1

theorem keeps_mapAssoc (p k v : Addr) (m : Machine) : m.heap.Keeps (mapAssoc p k v m).2.heap :=
  keeps_of_le (leads_mapAssoc (R := LE.le) p k v m).1

/-- Only an object that is not finished changes when a field of a variant is set. -/
theorem keeps_setField {variant : Addr} (hvariant : ¬m.heap.Finished variant) (i : Nat) (a : Addr) :
    m.heap.Keeps (setField variant i a m).2.heap := by
  have hself : m.heap.Keeps m.heap := fun _ _ => rfl
  simp only [setField, object, bind, StateT.bind]
  cases m.heap.object variant with
  | variant l fields =>
    dsimp only
    cases setSlot fields i a with
    | some fields => exact keeps_modify hvariant _
    | none => exact hself
  | _ => exact hself

theorem BuildsSet.finished_of_mem (hs : BuildsSet m s xs) : ∀ x ∈ xs, m.heap.Finished x := by
  induction hs with
  | start m => exact List.forall_mem_nil _
  | @conj m s xs hs x hx ih =>
    refine List.forall_mem_append.2 ⟨fun y hy => (ih y hy).of_keeps (keeps_setConj s x m), ?_⟩
    exact List.forall_mem_singleton.2 (hx.of_keeps (keeps_setConj s x m))
  | wait _ hkeeps ih => exact fun y hy => (ih y hy).of_keeps hkeeps

theorem BuildsMap.finished_of_mem (hp : BuildsMap m p es) :
    ∀ e ∈ es, m.heap.Finished e.1 ∧ m.heap.Finished e.2 := by
  induction hp with
  | start m => exact List.forall_mem_nil _
  | @assoc m p es hp k v hk hv ih =>
    have hkeeps := keeps_mapAssoc p k v m
    refine List.forall_mem_append.2 ⟨fun e he => ?_, List.forall_mem_singleton.2 ?_⟩
    · exact ⟨(ih e he).1.of_keeps hkeeps, (ih e he).2.of_keeps hkeeps⟩
    · exact ⟨hk.of_keeps hkeeps, hv.of_keeps hkeeps⟩
  | wait _ hkeeps ih =>
    exact fun e he => ⟨(ih e he).1.of_keeps hkeeps, (ih e he).2.of_keeps hkeeps⟩

theorem BuildsSet.finished (hs : BuildsSet m s xs) {items : List Addr}
    (hget : m.heap.get? s = some (.set items)) (hsorts : m.heap.Sorts id xs items) :
    m.heap.Finished s :=
  .intro hget trivial fun y hy => hs.finished_of_mem y (hsorts.nothingElse y hy)

theorem BuildsMap.finished (hp : BuildsMap m p es) {entries : List (Addr × Addr)}
    (hget : m.heap.get? p = some (.map entries)) (hsorts : m.heap.Sorts Prod.fst es entries) :
    m.heap.Finished p := by
  refine .intro hget trivial (Object.forall_mem_children_map.2 fun e he => ?_)
  exact hp.finished_of_mem e (hsorts.nothingElse e he)

/-- **A set that is built up is sorted at each time.** -/
theorem BuildsSet.sorts (hs : BuildsSet m s xs) :
    ∃ items, m.heap.get? s = some (.set items) ∧ m.heap.Sorts id xs items := by
  induction hs with
  | start m => exact ⟨[], get?_alloc _ m, sorts_nil _ _⟩
  | @conj m s xs hs x hx ih =>
    obtain ⟨items, hget, hsorts⟩ := ih
    refine ⟨insertItem m.heap.compare x items, ?_, ?_⟩
    · rw [setConj_eq hget]
      exact get?_alloc _ m
    · rw [insertItem_eq_insertBy]
      refine (hsorts.insertBy x).of_keeps (keeps_setConj s x m) ?_
      exact List.forall_mem_append.2 ⟨hs.finished_of_mem, List.forall_mem_singleton.2 hx⟩
  | @wait m m' s xs hs hkeeps ih =>
    obtain ⟨items, hget, hsorts⟩ := ih
    exact ⟨items, (hkeeps s (hs.finished hget hsorts)).trans hget,
      hsorts.of_keeps hkeeps hs.finished_of_mem⟩

/-- **A map that is built up is sorted at each time.** -/
theorem BuildsMap.sorts (hp : BuildsMap m p es) :
    ∃ entries, m.heap.get? p = some (.map entries) ∧ m.heap.Sorts Prod.fst es entries := by
  induction hp with
  | start m => exact ⟨[], get?_alloc _ m, sorts_nil _ _⟩
  | @assoc m p es hp k v hk hv ih =>
    obtain ⟨entries, hget, hsorts⟩ := ih
    refine ⟨insertEntry m.heap.compare k v entries, ?_, ?_⟩
    · rw [mapAssoc_eq hget]
      exact get?_alloc _ m
    · rw [insertEntry_eq_insertBy]
      refine (hsorts.insertBy (k, v)).of_keeps (keeps_mapAssoc p k v m) ?_
      exact List.forall_mem_append.2
        ⟨fun e he => (hp.finished_of_mem e he).1, List.forall_mem_singleton.2 hk⟩
  | @wait m m' p es hp hkeeps ih =>
    obtain ⟨entries, hget, hsorts⟩ := ih
    exact ⟨entries, (hkeeps p (hp.finished hget hsorts)).trans hget,
      hsorts.of_keeps hkeeps fun e he => (hp.finished_of_mem e he).1⟩

theorem BuildsMap.valueAt_assoc (hp : BuildsMap m p es) {entries : List (Addr × Addr)}
    (hget : m.heap.get? p = some (.map entries)) (hk : m.heap.Finished k) :
    ∃ entries', (mapAssoc p k v m).2.heap.get? (mapAssoc p k v m).1 = some (.map entries') ∧
      ∀ k', m.heap.Finished k' → (mapAssoc p k v m).2.heap.valueAt entries' k' =
        if m.heap.compare k' k = .eq then some v else m.heap.valueAt entries k' := by
  obtain ⟨_, hget', hsorts⟩ := hp.sorts
  obtain rfl : entries = _ := by simpa [hget] using hget'
  refine ⟨insertEntry m.heap.compare k v entries, ?_, fun k' hk' => ?_⟩
  · rw [mapAssoc_eq hget]
    exact get?_alloc _ m
  · rw [← valueAt_insertEntry]
    refine valueAt_of_keeps (keeps_mapAssoc p k v m) hk' fun e he => ?_
    rcases mem_insertEntry he with rfl | he
    · exact hk
    · exact (hp.finished_of_mem e (hsorts.nothingElse e he)).1

/-- **The order of objects is lawful, and collections that are built up are sorted.** On a heap
without cycles objects are compared by their contents all the way down, and this is a total
preorder. Every object of a tidy heap may be put into sets and maps. A set or a map that is built up
ascends, has an equal for all that was put in, and has nothing else; and one more entry of a map
changes the value of one key. -/
theorem order_lawful_and_collections_sorted (m : Machine) :
    (m.heap.Acyclic → m.heap.OrderLaws) ∧
    (m.heap.Tidy → ∀ a o, m.heap.get? a = some o → m.heap.Finished a) ∧
    (∀ s xs, BuildsSet m s xs →
      ∃ items, m.heap.get? s = some (.set items) ∧ m.heap.Sorts id xs items) ∧
    ∀ p es, BuildsMap m p es →
      ∃ entries, m.heap.get? p = some (.map entries) ∧ m.heap.Sorts Prod.fst es entries ∧
        ∀ k v, m.heap.Finished k →
          ∃ entries', (mapAssoc p k v m).2.heap.get? (mapAssoc p k v m).1 = some (.map entries') ∧
            ∀ k', m.heap.Finished k' → (mapAssoc p k v m).2.heap.valueAt entries' k' =
              if m.heap.compare k' k = .eq then some v else m.heap.valueAt entries k' := by
  refine ⟨Acyclic.orderLaws, fun hm _ _ ha => hm.finished ha, fun _ _ hs => hs.sorts,
    fun p es hp => ?_⟩
  obtain ⟨entries, hget, hsorts⟩ := hp.sorts
  exact ⟨entries, hget, hsorts, fun k v hk => hp.valueAt_assoc hget hk⟩

/-! ### A variant that is filled in while a set is built up -/

/-- A machine with a variant at address 3, whose field is not set yet, and a set at address 5 that
has the object of `true`. -/
def setBegun : Machine :=
  (setConj 4 trueAddr (alloc (.set []) (newVariant ⟨"user/T", "A", 0, 1⟩ .empty).2).2).2

/-- The field of the variant has been set, and then the set got the variant and the object of
`false`. -/
def setDone : Machine :=
  (setConj 6 falseAddr (setConj 5 3 (setField 3 0 falseAddr setBegun).2).2).2

theorem finished_boolAddr {m : Machine} {b : Bool}
    (hb : m.heap.get? (boolAddr b) = some (.bool b)) : m.heap.Finished (boolAddr b) :=
  .intro hb trivial nofun

theorem buildsSet_setDone : BuildsSet setDone 7 [trueAddr, 3, falseAddr] := by
  have hbegun : BuildsSet setBegun 5 [trueAddr] :=
    .conj (.start _) (finished_boolAddr (b := true) rfl)
  have hunset : ¬setBegun.heap.Finished 3 := by
    rintro ⟨hget, hslots, -⟩
    cases hget
    exact absurd (hslots none (List.mem_singleton_self none)) nofun
  have hset : BuildsSet (setField 3 0 falseAddr setBegun).2 5 [trueAddr] :=
    hbegun.wait (keeps_setField hunset 0 falseAddr)
  have hvariant : (setField 3 0 falseAddr setBegun).2.heap.Finished 3 := by
    refine .intro rfl (List.forall_mem_singleton.2 rfl) (List.forall_mem_singleton.2 ?_)
    exact finished_boolAddr (b := false) rfl
  exact .conj (.conj hset hvariant) (finished_boolAddr (b := false) rfl)

theorem tidy_setDone : setDone.heap.Tidy := by
  refine tidy_of_lt fun a o ha => ?_
  obtain ⟨e, he, -⟩ := get?_eq_some.1 ha
  have hlt : a < 8 := lt_size_of_slot? he
  interval_cases a <;> cases ha <;> exact ⟨by simp [Object.SlotsSet], by decide⟩

/-- Then a map is begun, with the variant as a key. -/
def mapDone : Machine := (mapAssoc 8 3 trueAddr (alloc (.map []) setDone).2).2

theorem finished_mapDone {a : Addr} (ha : setDone.heap.Finished a) : mapDone.heap.Finished a :=
  (ha.of_keeps (keeps_of_le (grows_alloc _ setDone).1)).of_keeps (keeps_mapAssoc 8 3 trueAddr _)

theorem buildsMap_mapDone : BuildsMap mapDone 9 [(3, trueAddr)] :=
  .assoc (.start setDone)
    ((tidy_setDone.finished rfl).of_keeps (keeps_of_le (grows_alloc _ setDone).1))
    (finished_boolAddr (b := true) rfl)

/-- The set has the variant that was filled in while the set was built up, and the map has a new
value for it after one more entry. -/
theorem order_lawful_and_collections_sorted_filledIn :
    setDone.heap.OrderLaws ∧ setDone.heap.Finished 3 ∧
    setDone.heap.get? 7 = some (.set [falseAddr, trueAddr, 3]) ∧
    setDone.heap.Sorts id [trueAddr, 3, falseAddr] [falseAddr, trueAddr, 3] ∧
    mapDone.heap.Sorts Prod.fst [(3, trueAddr)] [(3, trueAddr)] ∧
    (mapAssoc 9 3 falseAddr mapDone).2.heap.valueAt [(3, falseAddr)] 3 = some falseAddr := by
  have hset := order_lawful_and_collections_sorted setDone
  have hmap := order_lawful_and_collections_sorted mapDone
  have hvariant : setDone.heap.Finished 3 := hset.2.1 tidy_setDone 3 _ rfl
  have hkey : mapDone.heap.Finished 3 := finished_mapDone hvariant
  obtain ⟨items, hitems, hset_sorts⟩ := hset.2.2.1 7 _ buildsSet_setDone
  obtain ⟨entries, hentries, hmap_sorts, hassoc⟩ := hmap.2.2.2 9 _ buildsMap_mapDone
  obtain ⟨entries', hentries', hvalue⟩ := hassoc 3 falseAddr hkey
  cases hitems
  cases hentries
  cases hentries'
  exact ⟨hset.1 tidy_setDone.acyclic, hvariant, rfl, hset_sorts, hmap_sorts,
    (hvalue 3 hkey).trans (if_pos Std.ReflCmp.compare_self)⟩

end Machine

end TypedLisp
