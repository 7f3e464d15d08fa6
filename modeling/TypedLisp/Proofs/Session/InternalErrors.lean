import TypedLisp.Proofs.Runtime.Wholeness
import TypedLisp.Proofs.Session.Constructors
import TypedLisp.Proofs.Session.TypeSoundness

/-!
# No accepted form ends in an internal error

Compilation and running have checks of their own, for locals that are not in scope, definitions
inside expressions, calls of constructors, functions of the host, and marks of a fault that come
from nowhere. None of them fails on a form that analysis and inference accept, in any session that
can be reached (`Session.Reachable.no_internal_error`).
-/

namespace TypedLisp

/-! ## Calls of constructors -/

namespace Expr

variable {α : Type}
variable {scope : List Local}

mutual

/-- Whether every constructor that is called by its name has as many arguments as fields. -/
def Saturated : Expr α → Prop
  | .literal _ _ | .localVar _ _ | .globalVar _ _ | .declare _ _ => True
  | .collection _ items _ => SaturatedAll items
  | .call callee args _ => callee.Saturated ∧ SaturatedAll args
  | .callVar v args _ =>
    (∀ n, v.constructorArity? = some n → args.length = n) ∧ SaturatedAll args
  | .letIn bindings body _ => SaturatedLet bindings ∧ body.Saturated
  | .ite test thenBranch elseBranch _ =>
    test.Saturated ∧ thenBranch.Saturated ∧ elseBranch.Saturated
  | .fn _ body _ => body.Saturated
  | .define _ _ body _ => body.Saturated

/-- The same for several expressions. -/
def SaturatedAll : List (Expr α) → Prop
  | [] => True
  | e :: es => e.Saturated ∧ SaturatedAll es

/-- The same for bindings. -/
def SaturatedLet : List (Local × Expr α) → Prop
  | [] => True
  | (_, e) :: bs => e.Saturated ∧ SaturatedLet bs

end

theorem length_of_checkConstructor {v : Var} {found : Nat} {r : Range} {u : Unit}
    (h : checkConstructor v found r = .ok u) : ∀ n, v.constructorArity? = some n → found = n := by
  intro n hn
  simp only [checkConstructor, hn] at h
  split at h
  · exact Eq.symm (by assumption)
  · cases h

theorem saturated_of_lower {e : Expr α} {c : Code} (h : e.lower scope = .ok c) : e.Saturated := by
  let R (e : Expr α) (_ : Code) : Prop := e.Saturated
  have hall {es cs} (h : List.Forall₂ R es cs) : SaturatedAll es := by
    induction h with
    | nil => trivial
    | cons he _ ih => exact ⟨he, ih⟩
  have hlet {scope bs cs} (h : LetCode (fun _ => R) scope bs cs) : SaturatedLet bs := by
    induction h with
    | nil => trivial
    | cons he _ ih => exact ⟨he, ih⟩
  exact lower_induction (P := fun _ => R) (fun _ _ => trivial) (fun _ _ => hall) (fun _ _ => trivial)
    (fun _ _ => trivial) (fun _ hf hes => ⟨hf, hall hes⟩)
    (fun hcheck hes => ⟨length_of_checkConstructor hcheck, hall hes⟩)
    (fun _ hbs he => ⟨hlet hbs, he⟩) (fun _ ht ha hb => ⟨ht, ha, hb⟩) (fun _ _ _ he => he) h

/-- Whether a form at top level has all its locals in scope, and definitions and declarations
nowhere but at the top. -/
def ScopedTop : Expr α → Prop
  | .define _ _ body _ => body.Scoped []
  | .declare _ _ => True
  | e => e.Scoped []

end Expr

namespace Session

open Machine

variable {s s' : Session} {t : Expr Ty}
variable {name : GlobalName} {cells : Array (Option Addr)} {body : Expr Ty}

/-! ## What the cells hold -/

/-- Whether all that the cells of a session hold is whole. -/
def Whole (s : Session) : Prop := s.machine.Whole

theorem Whole.quiet (hs : s.Whole) (hq : s.Quiet s') : s'.Whole :=
  Machine.Whole.of_heap_le hs hq.heap_le hq.cells_eq

theorem whole_push {m : Machine} (hm : m.Whole) :
    Machine.Whole { m with cells := m.cells.push none } := by
  refine ⟨hm.standard, fun i a ha => hm.cells i a ?_⟩
  change (m.cells.push none)[i]?.join = some a at ha
  rw [Array.getElem?_push] at ha
  split at ha
  · cases ha
  · exact ha

theorem whole_set {m : Machine} (hm : m.Whole) {a : Addr} (ha : m.heap.Whole a) (i : Nat)
    (tracked : List Nat) :
    Machine.Whole { m with cells := m.cells.setIfInBounds i (some a), tracked } := by
  refine ⟨hm.standard, fun j b hb => ?_⟩
  change (m.cells.setIfInBounds i (some a))[j]?.join = some b at hb
  rw [Array.getElem?_setIfInBounds] at hb
  split at hb
  · split at hb
    · cases hb
      exact ha
    · cases hb
  · exact hm.cells j b hb

theorem Whole.store (hs : s.Whole) {ty : Ty} {cell : Cell} (hcell : s.CellFor name ty cell cells)
    {a : Addr} (ha : s.machine.heap.Whole a) : (s.withStored cell cells a).Whole := by
  cases hcell with
  | kept => exact whole_set hs ha _ _
  | new => exact whole_set (whole_push hs) ha _ _

theorem Whole.bound (hs : s.Whole) {o : Object} (ho : o.Complete) (hchildren : o.children = [])
    {ty : Ty} {cell : Cell} (hcell : (s.withObject o).CellFor name ty cell cells) :
    (s.withBound o cell cells).Whole := by
  refine (hs.quiet (quiet_alloc s o)).store hcell
    (.intro (s.machine.heap.get?_push_self ⟨false, o⟩) ho ?_)
  rw [hchildren]
  exact List.forall_mem_nil _

theorem constructorObject_complete (d : DataType) (c : Constructor) (tag : Nat) :
    (constructorObject d c tag).Complete ∧ (constructorObject d c tag).children = [] := by
  rcases Nat.eq_zero_or_pos c.arity with harity | harity
  · rw [constructorObject_of_zero harity]
    exact ⟨nofun, rfl⟩
  · rw [constructorObject_of_pos harity]
    exact ⟨⟨nofun, trivial⟩, rfl⟩

theorem definedFn_complete (name : GlobalName) {params : List Local} {code : Code}
    (h : body.lower params = .ok code) :
    (definedFn name params code).Complete ∧ (definedFn name params code).children = [] :=
  ⟨⟨nofun, rfl, rfl, by simpa using Expr.inScope_of_lower h⟩, rfl⟩

/-! ## Running -/

/-- **An expression that has code runs to a whole object**, or a fault is reported. -/
theorem Whole.runThunk (hs : s.Whole) {e : Expr Ty} {code : Code} (h : e.lower [] = .ok code) :
    (∃ f s₁, Session.runThunk e s = (.error (.fault f), s₁) ∧ f.Reported) ∨
    ∃ a closures s₁, Session.runThunk e s = (.ok (a, closures), s₁) ∧ s₁.machine.heap.Whole a := by
  have hm : Machine.Whole { (s.withUnit code).machine with fault := none } :=
    Machine.Whole.of_heap_le hs (le_refl _) rfl
  have hframe : Frame.Holds s.machine.heap [] [] := nofun
  have hyields : YieldsWhole (code.eval (call s.callLimit) [])
      { (s.withUnit code).machine with fault := none } :=
    Code.eval_whole (grows_call s.callLimit) (call_whole s.callLimit) code hm rfl hframe
      (Expr.inScope_of_lower h)
  cases hf : (s.evalThunk code).2.fault with
  | some f => exact .inl ⟨f, _, runThunk_fault h hf, hyields.allowed f hf⟩
  | none => exact .inr ⟨_, _, _, runThunk_ok h hf, hyields.result hf⟩

theorem Whole.definedObject (hs : s.Whole) (name : GlobalName) (h : DefinesCode body) :
    (∃ f s₁, Session.definedObject name body s = (.error (.fault f), s₁) ∧ f.Reported) ∨
    ∃ a kind closures s₁, Session.definedObject name body s = (.ok (a, kind, closures), s₁) ∧
      s₁.machine.heap.Whole a := by
  rcases fn_or_isThunk body with ⟨params, b, n, rfl⟩ | hbody
  · obtain ⟨code, hcode⟩ := h
    obtain ⟨hcomplete, hchildren⟩ := definedFn_complete name hcode
    refine .inr ⟨_, _, _, _, definedObject_fn hcode s, .intro
      ((s.withUnit code).machine.heap.get?_push_self ⟨false, _⟩) hcomplete ?_⟩
    rw [hchildren]
    exact List.forall_mem_nil _
  · have hcode : ∃ code, body.lower [] = .ok code := by
      cases body with
      | fn params b n => exact absurd rfl (hbody params b n)
      | _ => exact h
    obtain ⟨code, hcode⟩ := hcode
    obtain ⟨f, s₁, hrun, hf⟩ | ⟨a, closures, s₁, hrun, ha⟩ := hs.runThunk hcode
    · exact .inl ⟨f, s₁, definedObject_thunk_error hbody hrun name, hf⟩
    · exact .inr ⟨a, _, closures, s₁, definedObject_thunk hbody hrun name, ha⟩

/-- **A form that has code ends in no error but a fault that was reported**, if the host has the
function that it may declare. -/
theorem Whole.runForm (hs : s.Whole) (hcode : HasCode t)
    (hhost : ∀ name ref ty n, t = .declare (.host name ref ty) n → ref.Exists) {err : RunError}
    (herr : (Session.runForm t s).1 = .error err) : ∃ f, err = .fault f ∧ f.Reported := by
  by_cases hentry : IsEntry t
  · cases t with
    | define name declared body n =>
      have hdefine : Session.runForm (.define name declared body n) s =
          runDefine name declared body s := rfl
      rw [hdefine] at herr
      obtain ⟨f, s₁, hrun, hf⟩ | ⟨a, kind, closures, s₁, hrun, -⟩ := hs.definedObject name hcode
      · rw [runDefine_error hrun] at herr
        exact ⟨f, (Except.error.inj herr).symm, hf⟩
      · obtain ⟨cell, cells, -, hdefined⟩ := runDefine_ok hrun declared
        rw [hdefined] at herr
        cases herr
    | declare d n =>
      have hdeclare : Session.runForm (.declare d n) s = runDeclare d s := rfl
      obtain ⟨r, s', hrun, -⟩ := runDeclare_enters (d := d)
        (fun name ref ty hd => hhost name ref ty n (by rw [hd])) n s
      rw [hdeclare, hrun] at herr
      cases herr
    | _ => exact hentry.elim
  · have hcode : ∃ code, t.lower [] = .ok code := by
      cases t with
      | define | declare => exact absurd trivial hentry
      | _ => exact hcode
    obtain ⟨code, hcode⟩ := hcode
    obtain ⟨f, s₁, hrun, hf⟩ | ⟨a, closures, s₁, hrun, ha⟩ := hs.runThunk hcode
    · rw [runForm_of_runThunk_error hentry hrun] at herr
      exact ⟨f, (Except.error.inj herr).symm, hf⟩
    · obtain ⟨v, hv⟩ := ha.decode
      rw [runForm_of_runThunk hentry hrun, hv] at herr
      cases herr

/-! ## The sessions that can be reached -/

theorem ConstructorVars.whole {d : DataType} {cs : List (Constructor × Nat)} {vs : List Var}
    (h : ConstructorVars d cs s vs s') (hs : s.Whole) : s'.Whole := by
  induction h with
  | nil => exact hs
  | @cons c tag cs s s' cell cells vs hcell _ ih =>
    obtain ⟨hcomplete, hchildren⟩ := constructorObject_complete d c tag
    exact ih (hs.bound hcomplete hchildren hcell)

/-- **What a form puts into a cell is whole.** -/
theorem Enters.whole (h : s.Enters t s') (hs : s.Whole) (hcode : HasCode t) : s'.Whole := by
  cases h with
  | @define name _ body _ a _ _ s₁ _ _ ho hcell =>
    have hquiet := quiet_of_definedObject ho
    obtain ⟨f, _, hrun, -⟩ | ⟨a', _, _, _, hrun, ha⟩ := hs.definedObject name hcode
    · cases ho.symm.trans hrun
    · cases ho.symm.trans hrun
      exact (hs.quiet hquiet).store hcell ha
  | ns => exact hs
  | ascribe hv =>
    cases hv with
    | kept => exact hs
    | new => exact whole_push hs
  | @data d _ units vs s' hvs =>
    have hs₀ : Whole { s with units } := hs
    exact hvs.whole hs₀
  | host harity hcell =>
    refine hs.bound ?_ rfl hcell
    exact ⟨nofun, harity.symm⟩

theorem Whole.collected (hs : s.Whole) (hc : s.Covered) : s.collected.Whole := by
  show (collectIfDue s.machine).2.Whole
  rcases s.machine.collectIfDue_eq with heq | heq
  · rwa [heq]
  · rw [heq]
    refine ⟨hs.standard.collect _, fun i a ha => ?_⟩
    have hwhole := hs.cells i a ha
    exact hwhole.collect (Machine.Covered.reached hc ha hwhole.lt_size)

theorem Whole.defineBuiltin (hs : s.Whole) (b : Builtin) : (s.defineBuiltin b).Whole := by
  rw [defineBuiltin_eq]
  have hle : s.machine.heap ≤ (s.machine.heap.allocPinned (builtinObject b)).2 :=
    s.machine.heap.le_push fun _ => rfl
  have hgrown : Machine.Whole { s.machine with
      heap := (s.machine.heap.allocPinned (builtinObject b)).2 } :=
    Machine.Whole.of_heap_le hs hle rfl
  exact whole_set (whole_push hgrown)
    (.intro (s.machine.heap.get?_push_self ⟨true, _⟩) ⟨nofun, rfl⟩ nofun) _ _

theorem Whole.start (limit : Nat) : (Session.start limit).Whole :=
  start_induction (P := Whole) ⟨⟨rfl, rfl, rfl⟩, nofun⟩ fun _ b hs => hs.defineBuiltin b

/-- **What the cells hold in a session that can be reached is whole.** -/
theorem Reachable.whole (h : s.Reachable) : s.Whole := by
  have hboth : s.Covered ∧ s.Whole := by
    refine h.invariant (P := fun s => s.Covered ∧ s.Whole) (fun hs _ => hs)
      (fun hs hq => ⟨hs.1.quiet hq, hs.2.quiet hq⟩)
      (fun {s} hs => ⟨hs.1.collects (collects_collected s), hs.2.collected hs.1⟩)
      (fun limit => ⟨.start limit, .start limit⟩) fun hr hs hf ha ht henters => ?_
    exact ⟨henters.covered hs.1, henters.whole hs.2 (hr.coherent.hasCode hf ha ht)⟩
  exact hboth.2

/-! ## Accepted forms -/

variable {f : Form} {e : Expr Unit} {supply : Supply} {k : TyVar}

theorem scopedTop_of_infer (hf : f.EvenMaps) (ha : s.Analyses f e supply) (ht : e.Infers supply t k)
    : t.ScopedTop := by
  have hexpr : ¬ IsEntry t → t.Scoped [] := fun h => (scoped_of_not_isEntry hf ha ht h).1
  cases t with
  | define name declared body n => exact (scoped_of_define hf ha ht rfl).1
  | declare => trivial
  | _ => exact hexpr id

theorem DefinesCode.saturated (h : DefinesCode body) : body.Saturated := by
  cases body with
  | fn params b n =>
    obtain ⟨code, hcode⟩ := h
    have hbody : b.Saturated := Expr.saturated_of_lower hcode
    exact hbody
  | _ =>
    obtain ⟨code, hcode⟩ := h
    exact Expr.saturated_of_lower hcode

theorem HasCode.saturated (h : HasCode t) : t.Saturated := by
  cases t with
  | define name declared body n =>
    have hbody : DefinesCode body := h
    exact hbody.saturated
  | declare => trivial
  | _ =>
    obtain ⟨code, hcode⟩ := h
    exact Expr.saturated_of_lower hcode

/-- **No accepted form ends in an internal error.** Let analysis and inference have made `t` of a
form, in a session that can be reached. Then evaluation of the form succeeds, or it ends in a fault
that an operation reported. In `t` every local is in scope, and there are no definitions inside
expressions; a constructor that is called by its name has as many arguments as fields; all that is
compiled has code; and a function of the host that is declared exists, with as many parameters as
are on record. -/
theorem Reachable.no_internal_error (hs : s.Reachable) (hf : f.EvenMaps)
    (ha : (TypedLisp.analyse s.env s.ns f).run s.supply = .ok (e, supply))
    (ht : (TypedLisp.infer e).run supply.tyVar = .ok (t, k)) :
    (∀ err, (Session.eval f s).1 = .error err → ∃ fault, err = .run (.fault fault) ∧
      fault ≠ .escaped) ∧
    t.ScopedTop ∧ t.Saturated ∧ HasCode t ∧
    ∀ name ref ty n, t = .declare (.host name ref ty) n → ref.Exists := by
  have hcode := hs.coherent.hasCode hf ha ht
  have hplaced := analyse_placed hf ha
  rw [← erase_of_infer ht] at hplaced
  have hhost : ∀ name ref ty n, t = .declare (.host name ref ty) n → ref.Exists := by
    rintro name ref ty n rfl
    exact hplaced.2
  refine ⟨fun err herr => ?_, scopedTop_of_infer hf ha ht, hcode.saturated, hcode, hhost⟩
  have hs₀ : (s.withSupply { supply with tyVar := k }).Whole := hs.whole
  rw [eval_of_infer ha ht, run_eq] at herr
  cases hrun : (Session.runForm t (s.withSupply { supply with tyVar := k })).1 with
  | ok r =>
    rw [hrun] at herr
    cases herr
  | error err' =>
    rw [hrun] at herr
    obtain ⟨fault, rfl, hfault⟩ := hs₀.runForm hcode hhost hrun
    exact ⟨fault, (Except.error.inj herr).symm, hfault⟩

/-- Where a constructor has an empty list of fields its cell holds no function, although it has the
type of one. The call of it fails, with a fault that was reported. -/
theorem no_internal_error_callFoo :
    (Session.eval emptyFields (.start 100)).2.Reachable ∧ callFoo.EvenMaps ∧
      ∃ e supply t k,
        (TypedLisp.analyse (Session.eval emptyFields (.start 100)).2.env userNs callFoo).run
          (Session.eval emptyFields (.start 100)).2.supply = .ok (e, supply) ∧
        (TypedLisp.infer e).run supply.tyVar = .ok (t, k) ∧ t.ScopedTop ∧ t.Saturated ∧
        ∃ fault, (Session.eval callFoo (Session.eval emptyFields (.start 100)).2).1 =
          .error (.run (.fault fault)) ∧ fault ≠ .escaped := by
  have hreachable := (Reachable.start 100).eval evenMaps_emptyFields
  have hcall : callFoo.EvenMaps := by simp [callFoo, Form.EvenMaps, Form.EvenMapsAll]
  have hns : (Session.eval emptyFields (.start 100)).2.ns = userNs := by cbv
  have hty : callFoo.ty? (Session.eval emptyFields (.start 100)).2.env userNs
      (Session.eval emptyFields (.start 100)).2.supply = some emptyFieldsType.ty := by cbv
  have heval : (Session.eval callFoo (Session.eval emptyFields (.start 100)).2).1 =
      .error (.run (.fault (.notAFunction "variant"))) := by cbv
  obtain ⟨e, supply, t, k, ha, ht, -⟩ := Form.exists_of_ty? hty
  obtain ⟨herror, hscoped, hsaturated, -⟩ :=
    hreachable.no_internal_error hcall (by rwa [hns]) ht
  obtain ⟨fault, hfault, hreported⟩ := herror _ heval
  exact ⟨hreachable, hcall, e, supply, t, k, ha, ht, hscoped, hsaturated, fault,
    heval.trans (congrArg _ hfault), hreported⟩

end Session

end TypedLisp
