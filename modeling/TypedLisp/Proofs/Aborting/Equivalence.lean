import TypedLisp.Proofs.Aborting.Semantics
import TypedLisp.Proofs.Session.Steps

/-!
# Faults on record as exceptions

Running code goes on after a fault, with the fault on record; `Code.attempt` stops there. Both come
to the same (`Carries`): where the attempt has a value, the machine has the same value, the same
store and no fault on record; where the attempt stops at a fault, that fault is on record when the
machine is done, and what it did after the fault only added objects.
-/

namespace TypedLisp

open Machine

/-- The machine with what there is in a store and no fault on record. -/
def Store.machine (σ : Store) : Machine := ⟨σ.heap, σ.cells, σ.tracked, none⟩

/-- The machine with what there is in a store and a fault on record. -/
def Store.faulted (σ : Store) (f : Fault) : Machine := ⟨σ.heap, σ.cells, σ.tracked, some f⟩

/-- A machine without its record of faults. -/
def Machine.toStore (m : Machine) : Store := ⟨m.heap, m.cells, m.tracked⟩

variable {α β γ δ : Type}

/-- How what a machine came to answers what an attempt came to. -/
def Answers (r : α → β) (came : Except Fault α × Store) (after : β × Machine) : Prop :=
  match came with
  | (.ok a, σ) => after = (r a, σ.machine)
  | (.error f, σ) => σ.faulted f ≤ after.2

/-- A computation of the machine that carries out an attempt and never loses a fault. -/
structure Carries (r : α → β) (act : Run β) (attempt : Attempt α) : Prop where
  grows : act.Grows
  answers : ∀ σ, Answers r (attempt σ) (act σ.machine)

namespace Carries

variable {r : α → β} {q : γ → δ}

theorem pure {a : α} {b : β} (h : r a = b) : Carries r (Pure.pure b) (Pure.pure a) :=
  ⟨.pure b, fun σ => by
    subst h
    exact rfl⟩

/-- One step after another, where the machine may go on with what no attempt gives. -/
theorem bind_of_grows {act : Run β} {attempt : Attempt α} {k : β → Run δ} {k' : α → Attempt γ}
    (h : Carries r act attempt) (hk : ∀ a, Carries q (k (r a)) (k' a)) (hg : ∀ b, (k b).Grows) :
    Carries q (act >>= k) (attempt >>= k') := by
  refine ⟨h.grows.bind hg, fun σ => ?_⟩
  show Answers q (ExceptT.bindCont k' (attempt σ).1 (attempt σ).2)
    (k (act σ.machine).1 (act σ.machine).2)
  have hact := h.answers σ
  match hcame : attempt σ with
  | (.ok a, σ') =>
    rw [hcame] at hact
    rw [show act σ.machine = (r a, σ'.machine) from hact]
    exact (hk a).answers σ'
  | (.error f, σ') =>
    rw [hcame] at hact
    exact le_trans hact (hg _ _)

theorem bind {act : Run α} {attempt : Attempt α} {k : α → Run δ} {k' : α → Attempt γ}
    (h : Carries id act attempt) (hk : ∀ a, Carries q (k a) (k' a)) :
    Carries q (act >>= k) (attempt >>= k') :=
  h.bind_of_grows hk fun a => (hk a).grows

theorem foldlM {f : β → α → Run β} {f' : β → α → Attempt β}
    (h : ∀ b a, Carries id (f b a) (f' b a)) (l : List α) (b : β) :
    Carries id (l.foldlM f b) (l.foldlM f' b) := by
  induction l generalizing b with
  | nil => exact .pure rfl
  | cons a l ih =>
    rw [List.foldlM_cons, List.foldlM_cons]
    exact (h b a).bind ih

end Carries

/-! ## The operations of the machine -/

theorem carries_alloc (o : Object) : Carries id (alloc o) (Attempt.alloc o) :=
  ⟨grows_alloc o, fun _ => rfl⟩

theorem carries_literal (v : Literal) : Carries id (literal v) (Attempt.literal v) := by
  cases v with
  | bool b => exact .pure rfl
  | int n => exact carries_alloc _
  | str s => exact carries_alloc _

/-! ### Effects -/

/-- An effect, up to the fault that it may be. -/
def Effect.attempt : Effect → Attempt Addr
  | .make o => Attempt.alloc o
  | .bool b => return boolAddr b
  | .mark => return faultAddr
  | .raise f => throw f

theorem Carries.effect {act : Run Addr} {attempt : Attempt Addr} (e : Heap → Effect)
    (hrun : ∀ m, act m = (e m.heap).run m) (hattempt : ∀ σ, attempt σ = (e σ.heap).attempt σ) :
    Carries id act attempt := by
  refine ⟨fun m => ?_, fun σ => ?_⟩
  · rw [hrun]
    cases e m.heap with
    | make o => exact grows_alloc o m
    | bool _ | mark => exact le_refl m
    | raise f => exact leads_raise (R := LE.le) f m
  · rw [hrun, hattempt, show σ.machine.heap = σ.heap from rfl]
    cases e σ.heap with
    | make _ | bool _ | mark => exact rfl
    | raise _ => exact le_refl _

theorem object_bind_attempt (a : Addr) (k : Object → Attempt α) (σ : Store) :
    (Attempt.object a >>= k) σ = k (σ.heap.object a) σ := rfl

theorem carries_vectorConj (v a : Addr) :
    Carries id (vectorConj v a) (Attempt.vectorConj v a) := by
  refine .effect (·.conjVector v a) (fun _ => vectorConj_run v a) fun σ => ?_
  rw [Attempt.vectorConj, Heap.conjVector, object_bind_attempt]
  cases σ.heap.object v <;> rfl

theorem carries_setConj (s a : Addr) : Carries id (setConj s a) (Attempt.setConj s a) := by
  refine .effect (·.conjSet s a) (fun _ => setConj_run s a) fun σ => ?_
  rw [Attempt.setConj, Heap.conjSet, object_bind_attempt]
  cases σ.heap.object s <;> rfl

theorem carries_mapAssoc (p : Addr) (e : Addr × Addr) :
    Carries id (mapAssoc p e.1 e.2) (Attempt.mapAssoc p e) := by
  refine .effect (·.assocMap p e.1 e.2) (fun _ => mapAssoc_run p e.1 e.2) fun σ => ?_
  rw [Attempt.mapAssoc, Heap.assocMap, object_bind_attempt]
  cases σ.heap.object p <;> rfl

theorem carries_collection (kind : Collection) (items : List Addr) :
    Carries id (collection kind items) (Attempt.collection kind items) := by
  cases kind with
  | vector => exact (carries_alloc _).bind fun v => .foldlM carries_vectorConj items v
  | set => exact (carries_alloc _).bind fun s => .foldlM carries_setConj items s
  | map =>
    refine (carries_alloc _).bind fun p => ?_
    rw [mapAssocAll_eq_foldlM]
    exact .foldlM carries_mapAssoc (pairs items) p

theorem Attempt.load_eq (c : Cell) (σ : Store) : load c σ =
    (match σ.cells[c.id]? with
      | some (some a) => Pure.pure a
      | _ => throw (.unboundVar c.name) : Attempt Addr) σ := rfl

theorem carries_load (c : Cell) : Carries id (load c) (Attempt.load c) := by
  refine ⟨leads_load c, fun σ => ?_⟩
  have hcell : σ.machine.cell? c = σ.cells[c.id]?.join := rfl
  rw [Attempt.load_eq, load_eq, hcell]
  rcases σ.cells[c.id]? with _ | _ | a
  · exact le_refl _
  · exact le_refl _
  · exact rfl

/-! ## Built-in and host functions -/

section Effects

variable {σ : Store} {a b : Addr}

theorem int_attempt {k : Int64 → Attempt Addr} {e : Int64 → Effect}
    (hk : ∀ n, k n σ = (e n).attempt σ) :
    (Attempt.int a >>= k) σ = (σ.heap.onInt a e).attempt σ := by
  rw [Attempt.int, Heap.onInt, bind_assoc, object_bind_attempt]
  cases σ.heap.object a with
  | int n => exact hk n
  | _ => rfl

theorem str_attempt {k : String → Attempt Addr} {e : String → Effect}
    (hk : ∀ s, k s σ = (e s).attempt σ) :
    (Attempt.str a >>= k) σ = (σ.heap.onStr a e).attempt σ := by
  rw [Attempt.str, Heap.onStr, bind_assoc, object_bind_attempt]
  cases σ.heap.object a with
  | str s => exact hk s
  | _ => rfl

theorem withInts_attempt {k : Int64 → Int64 → Attempt Addr} {e : Int64 → Int64 → Effect}
    (hk : ∀ x y, k x y σ = (e x y).attempt σ) :
    Attempt.withInts a b k σ = (σ.heap.onInts a b e).attempt σ :=
  int_attempt fun x => int_attempt (hk x)

theorem divided_attempt (y n : Int64) :
    Attempt.divided y n σ = (Effect.divided y n).attempt σ := by
  unfold Attempt.divided Effect.divided
  by_cases hy : y = 0
  · rw [if_pos hy, if_pos (beq_iff_eq.2 hy)]
    rfl
  · rw [if_neg hy, if_neg (mt beq_iff_eq.1 hy)]
    rfl

theorem Attempt.textOf_eq (a : Addr) (σ : Store) : textOf a σ =
    (match σ.heap.decode a with
      | .ok (.str s) => alloc (.str s)
      | .ok v => alloc (.str v.text)
      | .error f => throw f : Attempt Addr) σ := rfl

theorem Builtin.attempt_eq (f : Builtin) (args : List Addr) :
    f.attempt args σ = (f.effect σ.heap args).attempt σ := by
  rcases args with _ | ⟨a, _ | ⟨b, _ | ⟨c, args⟩⟩⟩
  · cases f <;> rfl
  · cases f with
    | not =>
      show (Attempt.object a >>= _) σ = (σ.heap.negated a).attempt σ
      rw [Heap.negated, object_bind_attempt]
      cases σ.heap.object a <;> rfl
    | count =>
      show (Attempt.object a >>= _) σ = (σ.heap.counted a).attempt σ
      rw [Heap.counted, object_bind_attempt]
      cases σ.heap.object a <;> rfl
    | str =>
      show Attempt.textOf a σ = (σ.heap.texted a).attempt σ
      rw [Attempt.textOf_eq, Heap.texted]
      rcases σ.heap.decode a with f | v
      · rfl
      · cases v <;> rfl
    | _ => rfl
  · cases f with
    | add | sub | mul | eq | lt | gt => exact withInts_attempt fun _ _ => rfl
    | conj =>
      show (Attempt.object a >>= _) σ = (σ.heap.conjVector a b).attempt σ
      rw [Heap.conjVector, object_bind_attempt]
      cases σ.heap.object a <;> rfl
    | concat => exact str_attempt fun _ => str_attempt fun _ => rfl
    | _ => rfl
  · cases f <;> rfl

theorem HostFn.attempt_eq (f : HostFn) (args : List Addr) :
    f.attempt args σ = (f.effect σ.heap args).attempt σ := by
  rcases args with _ | ⟨a, _ | ⟨b, _ | ⟨c, args⟩⟩⟩
  · cases f <;> rfl
  · cases f with
    | abs => exact int_attempt fun _ => rfl
    | length | upper | lower | trim => exact str_attempt fun _ => rfl
    | _ => rfl
  · cases f with
    | max | min => exact withInts_attempt fun _ _ => rfl
    | quot | rem => exact withInts_attempt fun _ _ => divided_attempt _ _
    | «repeat» => exact str_attempt fun _ => int_attempt fun _ => rfl
    | _ => rfl
  · cases f <;> rfl

end Effects

/-! ## Code -/

section Code

variable {call : Addr → List Addr → Run Addr} {call' : Addr → List Addr → Attempt Addr}

theorem Code.carries_evalAll_of {cs : List Code}
    (h : ∀ c ∈ cs, ∀ frame, Carries id (c.eval call frame) (c.attempt call' frame))
    (frame : Frame) : Carries id (evalAll call frame cs) (attemptAll call' frame cs) := by
  induction cs with
  | nil => exact .pure rfl
  | cons c cs ih =>
    obtain ⟨hc, hcs⟩ := List.forall_mem_cons.1 h
    exact (hc frame).bind fun _ => (ih hcs).bind fun _ => .pure rfl

theorem Code.carries_evalBindings_of {bs : List (Local × Code)}
    (h : ∀ b ∈ bs, ∀ frame, Carries id (b.2.eval call frame) (b.2.attempt call' frame))
    (frame : Frame) :
    Carries id (evalBindings call frame bs) (attemptBindings call' frame bs) := by
  induction bs generalizing frame with
  | nil => exact .pure rfl
  | cons b bs ih =>
    obtain ⟨hb, hbs⟩ := List.forall_mem_cons.1 h
    exact (hb frame).bind fun _ => ih hbs _

theorem Code.carries_eval (hcall : ∀ f args, Carries id (call f args) (call' f args)) (c : Code)
    (frame : Frame) : Carries id (c.eval call frame) (c.attempt call' frame) := by
  induction c generalizing frame with
  | literal v => exact carries_literal v
  | collection kind cs ih =>
    exact (carries_evalAll_of ih frame).bind fun items => carries_collection kind items
  | slot x => exact .pure rfl
  | load c => exact carries_load c
  | call f cs ihf ih =>
    exact (ihf frame).bind fun f => (carries_evalAll_of ih frame).bind fun args => hcall f args
  | letIn bs c ihbs ihc => exact (carries_evalBindings_of ihbs frame).bind fun inner => ihc inner
  | ite t a b iht iha ihb =>
    refine (iht frame).bind fun v => ?_
    split
    · exact iha frame
    · exact ihb frame
  | closure ps xs c => exact carries_alloc _

theorem FnObject.carries_run (hcall : ∀ f args, Carries id (call f args) (call' f args))
    (f : FnObject) (args : List Addr) : Carries id (f.run call args) (f.attempt call' args) := by
  unfold FnObject.run FnObject.attempt
  cases f.body with
  | builtin b => exact .effect (b.effect · args) (fun _ => b.run_eq args) fun _ => b.attempt_eq args
  | host h => exact .effect (h.effect · args) (fun _ => h.run_eq args) fun _ => h.attempt_eq args
  | construct l => exact carries_alloc _
  | code params captured body => exact body.carries_eval hcall _
  | empty => exact .pure rfl

end Code

theorem enter_machine (depth : Nat) (f : Addr) (argc : Nat) (σ : Store) :
    enter (depth + 1) f argc σ.machine =
      match σ.heap.object f with
      | .fn fn =>
        if fn.arity = argc then (some fn, σ.machine)
        else (none, σ.faulted (.arity fn.name fn.arity argc))
      | .fault => (none, σ.machine)
      | o => (none, σ.faulted (.notAFunction o.kind)) := by
  show (match σ.heap.object f with
    | .fn fn =>
      if fn.arity = argc then Pure.pure (some fn)
      else do
        let _ ← raise (.arity fn.name fn.arity argc)
        Pure.pure none
    | .fault => Pure.pure none
    | o => do
      let _ ← raise (.notAFunction o.kind)
      Pure.pure none : Run (Option FnObject)) σ.machine = _
  cases σ.heap.object f with
  | fn fn =>
    dsimp only
    split_ifs <;> rfl
  | _ => rfl

theorem Attempt.call_succ (depth : Nat) (f : Addr) (args : List Addr) (σ : Store) :
    call (depth + 1) f args σ =
      (match σ.heap.object f with
        | .fn fn =>
          if fn.arity = args.length then fn.attempt (call depth) args
          else throw (.arity fn.name fn.arity args.length)
        | .fault => Pure.pure faultAddr
        | o => throw (.notAFunction o.kind) : Attempt Addr) σ := rfl

/-- **Calls come to the same**, with any number of further calls allowed. -/
theorem carries_call (depth : Nat) (f : Addr) (args : List Addr) :
    Carries id (call depth f args) (Attempt.call depth f args) := by
  induction depth generalizing f args with
  | zero => exact ⟨grows_call 0 f args, fun σ => le_refl _⟩
  | succ depth ih =>
    refine ⟨grows_call _ f args, fun σ => ?_⟩
    rw [Attempt.call_succ, call_succ, enter_machine]
    cases σ.heap.object f with
    | fn fn =>
      dsimp only
      split_ifs
      · exact (fn.carries_run ih args).answers σ
      · exact le_refl _
    | fault => exact rfl
    | _ => exact le_refl _

/-! ## After a fault -/

/-- Computations that do the same while a fault is on record, and keep it there. -/
structure SamePending (act act' : Run α) : Prop where
  grows : act.Grows
  eq : ∀ m : Machine, m.fault.isSome → act m = act' m

namespace SamePending

theorem bind {act act' : Run α} {k k' : α → Run β} (h : SamePending act act')
    (hk : ∀ a, SamePending (k a) (k' a)) : SamePending (act >>= k) (act' >>= k') := by
  refine ⟨h.grows.bind fun a => (hk a).grows, fun m hm => ?_⟩
  obtain ⟨f, hf⟩ := Option.isSome_iff_exists.1 hm
  have hpending : (act m).2.fault.isSome := by
    rw [(h.grows m).2.2 f hf]
    rfl
  show k (act m).1 (act m).2 = k' (act' m).1 (act' m).2
  rw [← h.eq m hm]
  exact (hk _).eq _ hpending

theorem relation : Run.Relation SamePending where
  bind := bind
  step h := ⟨h, fun _ _ => rfl⟩

end SamePending

theorem call_of_pending {m : Machine} (hm : m.fault.isSome) (depth : Nat) (f : Addr)
    (args : List Addr) : call depth f args m = (faultAddr, m) := by
  have henter : ∀ depth, enter depth f args.length m = (none, m) := fun depth => by
    show (if m.fault.isSome then Pure.pure none else _ : Run (Option FnObject)) m = _
    rw [if_pos hm]
    rfl
  cases depth with
  | zero =>
    show (faultAddr, (enter 0 f args.length m).2) = _
    rw [henter]
  | succ depth =>
    rw [call_succ, henter]
    rfl

/-- **After a fault calls do nothing**: code that runs while a fault is on record runs as if every
call gave the mark of a fault at once. -/
theorem Code.eval_of_pending {m : Machine} (hm : m.fault.isSome) (depth : Nat) (c : Code)
    (frame : Frame) :
    c.eval (TypedLisp.call depth) frame m = c.eval (fun _ _ => Pure.pure faultAddr) frame m :=
  (rel_eval SamePending.relation (fun f args => ⟨grows_call depth f args,
    fun _ hm => call_of_pending hm depth f args⟩) c frame).eq m hm

namespace Session

/-- What an expression on its own comes to where a fault is an exception. -/
def attemptThunk (e : Expr Ty) (s : Session) : Except RunError Addr × Store :=
  match e.lower [] with
  | .error err => (.error (.lower err), s.machine.toStore)
  | .ok code =>
    let (came, σ) := code.attempt (Attempt.call s.callLimit) [] (s.withUnit code).machine.toStore
    (came.mapError .fault, σ)

theorem answers_evalThunk (s : Session) (code : Code) :
    Answers id (code.attempt (Attempt.call s.callLimit) [] (s.withUnit code).machine.toStore)
      (s.evalThunk code) :=
  (code.carries_eval (carries_call s.callLimit) []).answers (s.withUnit code).machine.toStore

theorem runThunk_of_attemptThunk (e : Expr Ty) (s : Session) :
    (runThunk e s).1.map Prod.fst = (attemptThunk e s).1 ∧
      ∀ a, (attemptThunk e s).1 = .ok a →
        (runThunk e s).2.machine = (attemptThunk e s).2.machine := by
  unfold attemptThunk
  cases h : e.lower [] with
  | error err =>
    rw [runThunk_lower_error h]
    exact ⟨rfl, nofun⟩
  | ok code =>
    have hanswers := s.answers_evalThunk code
    match hcame : code.attempt (Attempt.call s.callLimit) [] (s.withUnit code).machine.toStore with
    | (.error f, σ) =>
      rw [hcame] at hanswers
      rw [runThunk_fault h (hanswers.2.2 f rfl)]
      dsimp only
      rw [hcame]
      exact ⟨rfl, nofun⟩
    | (.ok a, σ) =>
      rw [hcame] at hanswers
      have heval : s.evalThunk code = (a, σ.machine) := hanswers
      rw [runThunk_ok h (by rw [heval]; rfl)]
      dsimp only
      rw [hcame, afterThunk, heval]
      exact ⟨rfl, fun _ _ => rfl⟩

/-- **A fault on record is an exception.** Every typed expression, in every session, comes to the
object or to the error that it comes to where evaluation stops at the first fault; if that is an
object, then in the same store. This is so because all code, in any frame and on any store, leaves
the fault of its attempt on record, or no fault and the result of its attempt; and because code that
runs while a fault is on record enters no function. -/
theorem runThunk_eq_attemptThunk (e : Expr Ty) (s : Session) :
    (runThunk e s).1.map Prod.fst = (attemptThunk e s).1 ∧
    (∀ a, (attemptThunk e s).1 = .ok a →
      (runThunk e s).2.machine = (attemptThunk e s).2.machine) ∧
    (∀ (c : Code) (frame : Frame) (σ : Store),
      match c.attempt (Attempt.call s.callLimit) frame σ with
      | (.ok a, σ') => c.eval (call s.callLimit) frame σ.machine = (a, σ'.machine)
      | (.error f, _) => (c.eval (call s.callLimit) frame σ.machine).2.fault = some f) ∧
    ∀ (c : Code) (frame : Frame) (m : Machine), m.fault.isSome →
      c.eval (call s.callLimit) frame m = c.eval (fun _ _ => pure faultAddr) frame m := by
  obtain ⟨hresult, hmachine⟩ := runThunk_of_attemptThunk e s
  refine ⟨hresult, hmachine, fun c frame σ => ?_,
    fun c frame m hm => c.eval_of_pending hm s.callLimit frame⟩
  have hanswers := (c.carries_eval (carries_call s.callLimit) frame).answers σ
  match hcame : c.attempt (Attempt.call s.callLimit) frame σ with
  | (.ok a, σ') =>
    rw [hcame] at hanswers
    exact hanswers
  | (.error f, σ') =>
    rw [hcame] at hanswers
    exact hanswers.2.2 f rfl

end Session

end TypedLisp
