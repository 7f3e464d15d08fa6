import TypedLisp.Proofs.Heap.Collection
import TypedLisp.Proofs.Session.Reachable

/-!
# The roots of collection are complete

A built-in function is pinned, and every other object that is put into a cell is put there by a
definition, which tracks the cell. So in every session that can be reached, collection starts from
all that the cells hold (`Session.Reachable.covered`).
-/

namespace TypedLisp

namespace Session

variable {s s' : Session}

/-- Whether collection starts from all that the cells of a session hold. -/
def Covered (s : Session) : Prop := s.machine.Covered

theorem Covered.quiet (hs : s.Covered) (hq : s.Quiet s') : s'.Covered :=
  hs.mono hq.heap_le hq.cells_eq hq.tracked_subset

theorem covered_push {m : Machine} (hm : m.Covered) :
    Machine.Covered { m with cells := m.cells.push none } := by
  intro i a ha
  refine hm i a ?_
  change (m.cells.push none)[i]?.join = some a at ha
  rw [Array.getElem?_push] at ha
  split at ha
  · cases ha
  · exact ha

theorem covered_set {m : Machine} (hm : m.Covered) (i : Nat) (a : Addr) :
    Machine.Covered { m with
      cells := m.cells.setIfInBounds i (some a), tracked := m.tracked.insert i } := by
  intro j b hb
  change (m.cells.setIfInBounds i (some a))[j]?.join = some b at hb
  rw [Array.getElem?_setIfInBounds] at hb
  by_cases hij : i = j
  · exact .inl (hij ▸ List.mem_insert_self)
  · rw [if_neg hij] at hb
    rcases hm j b hb with hj | hpinned
    · exact .inl (List.mem_insert_of_mem hj)
    · exact .inr hpinned

theorem Covered.store (hs : s.Covered) {name : GlobalName} {ty : Ty} {cell : Cell}
    {cells : Array (Option Addr)} (hcell : s.CellFor name ty cell cells) (a : Addr) :
    (s.withStored cell cells a).Covered := by
  cases hcell with
  | kept => exact covered_set hs _ a
  | new => exact covered_set (covered_push hs) _ a

theorem ConstructorVars.covered {d : DataType} {cs : List (Constructor × Nat)} {vs : List Var}
    (h : ConstructorVars d cs s vs s') (hs : s.Covered) : s'.Covered := by
  induction h with
  | nil => exact hs
  | cons hcell _ ih => exact ih ((hs.quiet (quiet_alloc _ _)).store hcell _)

/-- **Every way to enter a var tracks the cell that it puts an object into.** -/
theorem Enters.covered {t : Expr Ty} (h : s.Enters t s') (hs : s.Covered) : s'.Covered := by
  cases h with
  | @define name _ body _ a _ _ s₁ _ _ ho hcell =>
    have hquiet := quiet_of_definedObject ho
    exact (hs.quiet hquiet).store hcell a
  | ns => exact hs
  | ascribe hv =>
    cases hv with
    | kept => exact hs
    | new => exact covered_push hs
  | data hvs => exact hvs.covered hs
  | host _ hcell => exact (hs.quiet (quiet_alloc _ _)).store hcell _

theorem Covered.runForm (hs : s.Covered) (t : Expr Ty) : (Session.runForm t s).2.Covered := by
  obtain ⟨r, s', hrun, henters⟩ | ⟨hquiet, -⟩ := runForm_cases t s
  · rw [hrun]
    exact henters.covered hs
  · exact hs.quiet hquiet

theorem Covered.evalOnly (hs : s.Covered) (f : Form) : (Session.evalOnly f s).2.Covered := by
  unfold Session.evalOnly
  cases ha : (TypedLisp.analyse s.env s.ns f).run s.supply with
  | error e => rwa [evalBy_of_analyse_error _ ha]
  | ok r =>
    obtain ⟨e, supply⟩ := r
    cases ht : (TypedLisp.infer e).run supply.tyVar with
    | error err => rwa [evalBy_of_infer_error _ ha ht]
    | ok r =>
      obtain ⟨t, k⟩ := r
      have hs₁ : (s.inferred supply k).Covered := hs
      rw [evalBy_of_infer _ ha ht]
      exact hs₁.runForm t

theorem Covered.invokeOnly (hs : s.Covered) (sym : String) (args : List Value) :
    (Session.invokeOnly sym args s).2.Covered := by
  cases h : s.resolve sym with
  | error e => rwa [invokeOnly_of_resolve_error h]
  | ok v =>
    rw [invokeOnly_of_resolve h]
    exact hs.quiet (isQuiet_callVar v args s)

/-! ## Collections between requests -/

/-- The session after a collection. -/
def swept (s : Session) : Session := { s with machine := (Machine.collectGarbage s.machine).2 }

/-- Whether a session is another one after a collection, or the same. -/
inductive Collects (s : Session) : Session → Prop where
  | skipped : Collects s s
  | swept : Collects s s.swept

theorem collects_collected (s : Session) : s.Collects s.collected := by
  rcases s.machine.collectIfDue_eq with heq | heq
  · have hsame : s.collected = s := congrArg (fun machine => { s with machine }) heq
    rw [hsame]
    exact .skipped
  · have hswept : s.collected = s.swept := congrArg (fun machine => { s with machine }) heq
    rw [hswept]
    exact .swept

theorem eval_collects (f : Form) (s : Session) :
    (Session.eval f s).1 = (Session.evalOnly f s).1 ∧
      (Session.evalOnly f s).2.Collects (Session.eval f s).2 := by
  unfold Session.evalOnly
  obtain ⟨e, ha, heval⟩ | ⟨e, supply, err, ha, ht, heval⟩ | ⟨e, supply, t, k, ha, ht, heval⟩ :=
    eval_cases f s
  · rw [heval, evalBy_of_analyse_error _ ha]
    exact ⟨rfl, .skipped⟩
  · rw [heval, evalBy_of_infer_error _ ha ht]
    exact ⟨rfl, .skipped⟩
  · rw [heval, evalBy_of_infer _ ha ht]
    exact ⟨rfl, collects_collected _⟩

theorem invoke_collects (sym : String) (args : List Value) (s : Session) :
    (Session.invoke sym args s).1 = (Session.invokeOnly sym args s).1 ∧
      (Session.invokeOnly sym args s).2.Collects (Session.invoke sym args s).2 := by
  cases h : s.resolve sym with
  | error e =>
    rw [invoke_of_resolve_error h, invokeOnly_of_resolve_error h]
    exact ⟨rfl, .skipped⟩
  | ok v =>
    rw [invoke_of_resolve h, invokeOnly_of_resolve h]
    exact ⟨rfl, collects_collected _⟩

theorem Covered.collects (hs : s.Covered) (h : s.Collects s') : s'.Covered := by
  cases h with
  | skipped => exact hs
  | swept => exact hs.collectGarbage

theorem Covered.eval (hs : s.Covered) (f : Form) : (Session.eval f s).2.Covered :=
  (hs.evalOnly f).collects (eval_collects f s).2

theorem Covered.invoke (hs : s.Covered) (sym : String) (args : List Value) :
    (Session.invoke sym args s).2.Covered :=
  (hs.invokeOnly sym args).collects (invoke_collects sym args s).2

/-! ## The sessions that can be reached -/

theorem Covered.defineBuiltin (hs : s.Covered) (b : Builtin) : (s.defineBuiltin b).Covered := by
  rw [defineBuiltin_eq]
  have hgrown : Machine.Covered { s.machine with
      heap := (s.machine.heap.allocPinned (builtinObject b)).2 } :=
    hs.mono (s.machine.heap.le_push fun _ => rfl) rfl (List.Subset.refl _)
  intro i a ha
  change ((s.machine.cells.push none).setIfInBounds s.machine.cells.size _)[i]?.join = some a at ha
  rw [Array.getElem?_setIfInBounds] at ha
  by_cases hi : s.machine.cells.size = i
  · rw [if_pos hi, Array.size_push, if_pos (hi ▸ Nat.lt_succ_self _)] at ha
    obtain rfl := Option.some.inj ha
    exact .inr ⟨_, s.machine.heap.slot?_push_self _⟩
  · rw [if_neg hi] at ha
    exact covered_push hgrown i a ha

theorem Covered.start (limit : Nat) : (Session.start limit).Covered :=
  start_induction nofun fun _ b hs => hs.defineBuiltin b

/-- **In every session that can be reached, collection starts from all that the cells hold.** -/
theorem Reachable.covered (h : s.Reachable) : s.Covered := by
  induction h with
  | start limit => exact .start limit
  | @eval s _ f _ ih => exact ih.eval f
  | invoke _ sym args ih => exact ih.invoke sym args

end Session

end TypedLisp
