import Mathlib.Data.Finset.Card
import Mathlib.Data.List.Basic
import Mathlib.Order.Monotone.Basic
import TypedLisp.Heap.Value
import TypedLisp.Proofs.Monads

/-!
# Which objects have values

Reading a value goes down references to a bounded depth. The bound is enough: if an address leads to
no mark of a fault, no unset field and no cycle (`Heap.Readable`), then its value can be read
(`Heap.Readable.decode`). At each depth all addresses can be read that could be at the one before,
until at some depth there are no more of them, and there are not more addresses than the heap has
places.
-/

namespace TypedLisp

/-- Whether an object has a value, of which the values at some addresses are the parts. -/
def Object.HasParts : Object → List Addr → Prop
  | .bool _, parts | .int _, parts | .str _, parts | .fn _, parts => parts = []
  | .vector items, parts | .set items, parts => parts = items
  | .map entries, parts => parts = entries.flatMap fun e => [e.1, e.2]
  | .variant _ fields, parts => fields = parts.map some
  | .fault, _ => False

theorem exists_mapM_eq_ok {ε α β : Type} {f : α → Except ε β} {l : List α} :
    (∃ bs, l.mapM f = .ok bs) ↔ ∀ a ∈ l, ∃ b, f a = .ok b := by
  induction l with
  | nil => simp [pure, Except.pure]
  | cons a l ih =>
    rw [List.forall_mem_cons, ← ih, List.mapM_cons]
    cases hf : f a with
    | error e => simp [bind, Except.bind]
    | ok b => cases hl : l.mapM f <;> simp [bind, Except.bind, pure, Except.pure]

theorem exists_bind_pure_eq_ok {ε α β : Type} {x : Except ε α} {f : α → β} :
    (∃ b, (x >>= fun a => pure (f a)) = .ok b) ↔ ∃ a, x = .ok a := by
  cases x <;> simp [bind, Except.bind, pure, Except.pure]

theorem exists_eq_map_some {α : Type} {l : List (Option α)} (h : ∀ x ∈ l, x.isSome) :
    ∃ as : List α, l = as.map some := by
  induction l with
  | nil => exact ⟨[], rfl⟩
  | cons x l ih =>
    obtain ⟨hx, hl⟩ := List.forall_mem_cons.1 h
    obtain ⟨a, rfl⟩ := Option.isSome_iff_exists.1 hx
    obtain ⟨as, rfl⟩ := ih hl
    exact ⟨a :: as, rfl⟩

namespace Heap

variable {h : Heap} {n : Nat} {a : Addr}

/-- Whether the value at an address can be read down to a depth of references. -/
def ReadableTo (h : Heap) (n : Nat) (a : Addr) : Prop := ∃ v, h.decodeTo n a = .ok v

/-- Whether an address has a value: its object does, and so do the parts of the object. -/
inductive Readable (h : Heap) : Addr → Prop where
  | intro {a : Addr} {parts : List Addr} (ha : (h.object a).HasParts parts)
      (hparts : ∀ p ∈ parts, Readable h p) : Readable h a

theorem Readable.of_get? {o : Object} {parts : List Addr} (ha : h.get? a = some o)
    (ho : o.HasParts parts) (hparts : ∀ p ∈ parts, h.Readable p) : h.Readable a :=
  .intro (by rwa [object, ha]) hparts

/-- The value at an address can be read to a depth if those of the parts can to one less. -/
theorem readableTo_succ : h.ReadableTo (n + 1) a ↔
    ∃ parts, (h.object a).HasParts parts ∧ ∀ p ∈ parts, h.ReadableTo n p := by
  unfold ReadableTo
  rw [decodeTo]
  cases h.object a with
  | bool | int | str | fn => simp [Object.HasParts, pure, Except.pure]
  | fault => simp [Object.HasParts]
  | vector items =>
    simp only [exists_bind_pure_eq_ok, exists_mapM_eq_ok, Object.HasParts, exists_eq_left]
  | set items =>
    simp only [exists_bind_pure_eq_ok, exists_mapM_eq_ok, Object.HasParts, exists_eq_left]
  | map entries =>
    have hentry : ∀ e : Addr × Addr, (∃ v, (do return (← h.decodeTo n e.1, ← h.decodeTo n e.2)) =
        Except.ok v) ↔ ∀ p ∈ [e.1, e.2], ∃ v, h.decodeTo n p = .ok v := by
      intro e
      cases hk : h.decodeTo n e.1 <;> cases hv : h.decodeTo n e.2 <;>
        simp [bind, Except.bind, pure, Except.pure, hk, hv]
    simp only [exists_bind_pure_eq_ok, exists_mapM_eq_ok, Object.HasParts, exists_eq_left, hentry]
    exact List.forall_mem_flatMap.symm
  | variant l fields =>
    simp only [exists_bind_pure_eq_ok, exists_mapM_eq_ok, Object.HasParts]
    constructor
    · intro hslots
      have hset : ∀ f ∈ fields, f.isSome := by
        rintro (_ | p) hf
        · obtain ⟨_, hnone⟩ := hslots none hf
          cases hnone
        · rfl
      obtain ⟨parts, rfl⟩ := exists_eq_map_some hset
      exact ⟨parts, rfl, fun p hp => hslots (some p) (List.mem_map_of_mem hp)⟩
    · rintro ⟨parts, rfl, hparts⟩ f hf
      obtain ⟨p, hp, rfl⟩ := List.mem_map.1 hf
      exact hparts p hp

theorem ReadableTo.succ (ha : h.ReadableTo n a) : h.ReadableTo (n + 1) a := by
  induction n generalizing a with
  | zero =>
    obtain ⟨v, hv⟩ := ha
    cases hv
  | succ n ih =>
    obtain ⟨parts, hparts, hread⟩ := readableTo_succ.1 ha
    exact readableTo_succ.2 ⟨parts, hparts, fun p hp => ih (hread p hp)⟩

theorem ReadableTo.mono {m : Nat} (hnm : n ≤ m) (ha : h.ReadableTo n a) : h.ReadableTo m a := by
  induction hnm with
  | refl => exact ha
  | step _ ih => exact ih.succ

theorem ReadableTo.lt_size (ha : h.ReadableTo n a) : a < h.slots.size := by
  by_contra hlt
  have hobject : h.object a = .fault := by
    simp [object, get?, slot?, Array.getElem?_eq_none (Nat.le_of_not_lt hlt)]
  cases n with
  | zero =>
    obtain ⟨v, hv⟩ := ha
    cases hv
  | succ n =>
    obtain ⟨parts, hparts, -⟩ := readableTo_succ.1 ha
    rw [hobject] at hparts
    exact hparts

open Classical in
/-- The addresses that can be read to a depth. -/
noncomputable def readableAddrs (h : Heap) (n : Nat) : Finset Addr :=
  (Finset.range h.slots.size).filter (h.ReadableTo n)

theorem mem_readableAddrs : a ∈ h.readableAddrs n ↔ h.ReadableTo n a := by
  simp only [readableAddrs, Finset.mem_filter, Finset.mem_range, and_iff_right_iff_imp]
  exact ReadableTo.lt_size

theorem readableAddrs_mono : Monotone h.readableAddrs := fun _ _ hnm _ ha =>
  mem_readableAddrs.2 ((mem_readableAddrs.1 ha).mono hnm)

/-- If no more addresses can be read to the next depth, then neither to the one after. -/
theorem readableAddrs_stable (hn : h.readableAddrs n = h.readableAddrs (n + 1)) :
    h.readableAddrs (n + 1) = h.readableAddrs (n + 2) := by
  refine Finset.Subset.antisymm (readableAddrs_mono (Nat.le_succ _)) fun a ha => ?_
  obtain ⟨parts, hparts, hread⟩ := readableTo_succ.1 (mem_readableAddrs.1 ha)
  refine mem_readableAddrs.2 (readableTo_succ.2 ⟨parts, hparts, fun p hp => ?_⟩)
  rw [← mem_readableAddrs, hn, mem_readableAddrs]
  exact hread p hp

/-- What can be read at all can be read to a depth of as many references as the heap has places. -/
theorem ReadableTo.size (ha : h.ReadableTo n a) : h.ReadableTo h.slots.size a := by
  have hcard : ∀ m, (h.readableAddrs m).card ≤ h.slots.size := fun m => by
    rw [← Finset.card_range h.slots.size]
    exact Finset.card_le_card fun a ha => Finset.mem_range.2 (mem_readableAddrs.1 ha).lt_size
  have heq : ∀ {m k : Nat}, m ≤ k → (h.readableAddrs m).card = (h.readableAddrs k).card →
      h.readableAddrs m = h.readableAddrs k := fun hmk hc =>
    Finset.eq_of_subset_of_card_le (readableAddrs_mono hmk) (Nat.le_of_eq hc.symm)
  by_cases hn : n ≤ h.slots.size
  · exact ha.mono hn
  have hn := Nat.le_of_not_le hn
  have hstable := Nat.stabilises_of_monotone
    (fun _ _ hmk => Finset.card_le_card (readableAddrs_mono hmk))
    hcard (fun m hm => by rw [← readableAddrs_stable (heq (Nat.le_succ m) hm)]) hn
  rw [← mem_readableAddrs, heq hn hstable.symm, mem_readableAddrs]
  exact ha

/-- **An address that leads to no mark of a fault, no unset field and no cycle has a value.** -/
theorem Readable.decode (ha : h.Readable a) : ∃ v, h.decode a = .ok v := by
  have hsize : h.ReadableTo h.slots.size a := by
    induction ha with
    | intro ha _ ih => exact (readableTo_succ.2 ⟨_, ha, ih⟩).size
  exact hsize.succ

end Heap

end TypedLisp
