import TypedLisp.Proofs.Heap.Collection

/-!
# Running code makes no layouts

Running code copies layouts from the functions of constructors into variants and makes no others:
every layout on the heap afterwards was there before (`Heap.Reuses`), for all code and all calls
(`reuses_call`).
-/

namespace TypedLisp

namespace Heap

variable {h : Heap} {e : Entry}

/-- Whether there is an object of a layout. -/
def HasLayout (h : Heap) (l : Layout) : Prop := ∃ a o, h.get? a = some o ∧ o.layout? = some l

/-- Whether every layout of the second heap is one of the first. -/
def Reuses (h h' : Heap) : Prop := ∀ l, h'.HasLayout l → h.HasLayout l

theorem Reuses.refl (h : Heap) : h.Reuses h := fun _ hl => hl

theorem Reuses.trans {h₁ h' : Heap} (hr : h.Reuses h₁) (hr' : h₁.Reuses h') : h.Reuses h' :=
  fun l hl => hr l (hr' l hl)

/-- An object that is made is at the next address, and the others are where they were. -/
theorem get?_push_cases {a : Addr} {o : Object}
    (ha : (h.push e).2.get? a = some o) : h.get? a = some o ∨ o = e.object := by
  obtain ⟨e', he', rfl⟩ := get?_eq_some.1 ha
  rcases Nat.lt_or_ge a h.slots.size with hlt | hge
  · rw [slot?_push_of_lt hlt] at he'
    exact .inl (get?_eq_some.2 ⟨e', he', rfl⟩)
  · have hsize : a < h.slots.size + 1 := by simpa [push] using lt_size_of_slot? he'
    obtain rfl : a = (h.push e).1 := Nat.le_antisymm (Nat.le_of_lt_succ hsize) hge
    exact .inr (by rw [Option.some.inj ((h.slot?_push_self e).symm.trans he')])

theorem hasLayout_push {l : Layout} (hl : (h.push e).2.HasLayout l) :
    h.HasLayout l ∨ e.object.layout? = some l := by
  obtain ⟨a, o, ha, ho⟩ := hl
  rcases get?_push_cases ha with ha | rfl
  · exact .inl ⟨a, o, ha, ho⟩
  · exact .inr ho

theorem reuses_push (h : Heap) (he : ∀ l, e.object.layout? = some l → h.HasLayout l) :
    h.Reuses (h.push e).2 := fun l hl => (hasLayout_push hl).elim id (he l)

theorem reuses_collect (h : Heap) (roots : List Addr) : h.Reuses (h.collect roots).2 := by
  rintro l ⟨a, o, ha, ho⟩
  obtain ⟨e, he, rfl⟩ := get?_eq_some.1 ha
  exact ⟨a, _, get?_eq_some.2 ⟨e, slot?_of_collect he, rfl⟩, ho⟩

end Heap

instance : Heap.StepRelation Heap.Reuses where
  refl := .refl
  trans _ _ _ := .trans
  alloc ho h := h.reuses_push fun l hl => by cases ho.symm.trans hl

/-- Whether every layout on the heap of the second machine is one of the first. -/
abbrev Machine.Reuses (m m' : Machine) : Prop := m.heap.Reuses m'.heap

open Machine Run

instance : StepRelation Machine.Reuses where
  refl m := .refl m.heap
  trans _ _ _ := .trans
  raise _ m := .refl m.heap
  alloc ho m := m.heap.reuses_push fun l hl => by cases ho.symm.trans hl

/-- A computation that makes no layouts. -/
abbrev Run.Reuses {α : Type} (act : Run α) : Prop := Leads Machine.Reuses act

/-- A function that is on the heap makes no layouts: a constructor has its layout there. -/
theorem FnObject.reuses_run {call : Addr → List Addr → Run Addr}
    (hcall : ∀ f args, Run.Reuses (call f args)) {m : Machine} {a : Addr} {f : FnObject}
    (hf : m.heap.get? a = some (.fn f)) (args : List Addr) :
    m.heap.Reuses (f.run call args m).2.heap := by
  obtain ⟨name, arity, body, captures⟩ := f
  cases body with
  | builtin b => exact Builtin.leads_run (R := Machine.Reuses) b args m
  | host g => exact HostFn.leads_run (R := Machine.Reuses) g args m
  | construct l =>
    refine m.heap.reuses_push fun l' hl' => ⟨a, _, hf, ?_⟩
    exact hl'
  | code params captured body => exact Code.leads_eval hcall body _ m
  | empty => exact .refl _

/-- **Calls make no layouts.** -/
theorem reuses_call (depth : Nat) (f : Addr) (args : List Addr) :
    Run.Reuses (call depth f args) := by
  induction depth generalizing f args with
  | zero => exact (leads_enter 0 f args.length).bind fun _ => .pure _
  | succ depth ih =>
    intro m
    rw [call_succ]
    cases henter : enter (depth + 1) f args.length m with
    | mk entered m' =>
      cases entered with
      | none =>
        have hreuses := leads_enter (R := Machine.Reuses) (depth + 1) f args.length m
        rw [henter] at hreuses
        exact hreuses
      | some fn =>
        obtain ⟨rfl, hfn⟩ := get?_of_enter_eq_some henter
        exact FnObject.reuses_run ih hfn args

end TypedLisp
