import TypedLisp.Proofs.Closures.Simulation
import TypedLisp.Proofs.Renumbering.Sessions

/-!
# Closure conversion preserves meaning

A session that evaluates typed forms in environments gives the same answers as one that runs their
code, whatever its closures keep beyond the locals that they close over, and it is never stuck
(`EnvSession.closure_conversion_preserves_answers`). The machines of both have the same objects at
the same addresses up to closures (`EnvSession.Mirrors`).
-/

namespace TypedLisp

open EnvRun

namespace EnvSession

/-- Whether evaluation in environments does for a session. -/
abbrev Mirrors (s : Session) (σ : EnvSession) : Prop :=
  Session.Alike .id (Matching.mirror σ.closures) s σ.session

/-! ## Actions that agree -/

/-- The error of a run of code, as one of evaluation in environments. -/
def ofRun (e : RunError) : EnvError := .eval (.run e)

/-- Whether an action in environments leads to what an action of a session leads to, and ends in the
same way. -/
abbrev Follows {α β : Type} (act : Session.Action RunError α) (ref : Action β) (s : Session)
    (σ : EnvSession) (Q : Heap → EnvStore → α → β → Prop) : Prop :=
  Lockstep Mirrors (·.machine.heap) store ofRun act ref s σ Q

namespace Follows

variable {α β γ δ : Type} {s t : Session} {σ τ : EnvSession} {Q : Heap → EnvStore → α → β → Prop}

/-- The last thing that evaluation in environments does may be to change the result. -/
theorem map_right {act : Session.Action RunError α} {ref : Action β} {f : β → δ}
    {P : Heap → EnvStore → α → δ → Prop} (h : Follows act ref s σ Q)
    (hf : ∀ {k υ x y}, Q k υ x y → P k υ x (f y)) :
    Follows act (ref >>= fun y => Pure.pure (f y)) s σ P := by
  have hmap : Follows (act >>= Pure.pure) (ref >>= fun y => Pure.pure (f y)) s σ P :=
    h.bind fun t τ x y ht _ _ hy => .pure ht (hf hy)
  rwa [bind_pure] at hmap

/-- The session may do something first that evaluation in environments need not do. -/
theorem bind_left {act : Session.Action RunError γ} {k : γ → Session.Action RunError α}
    {ref : Action β} {x : γ} (hact : act s = (.ok x, t)) (hle : s.machine.heap ≤ t.machine.heap)
    (h : Follows (k x) ref t σ Q) : Follows (act >>= k) ref s σ Q := by
  obtain ⟨hmirrors, hle', hσ, hresult⟩ := h
  exact Lockstep.of_eq (bind_ok hact) rfl hmirrors (le_trans hle hle') hσ hresult

theorem onSession {act : Session.Action RunError α} {act' : Session.Action RunError β}
    {P : Heap → Heap → α → β → Prop}
    (h : Session.Follow .id (Matching.mirror σ.closures) act act' s σ.session P)
    (hQ : ∀ k (n : Session) x y, P k n.machine.heap x y → Q k ⟨n.machine, σ.closures⟩ x y) :
    Follows act (EnvSession.onSession .run act') s σ Q := by
  obtain ⟨halike, hle, hle', hresult⟩ := h
  have hrun : EnvSession.onSession .run act' σ = ((act' σ.session).1.mapError ofRun,
      { σ with session := (act' σ.session).2 }) := rfl
  refine Lockstep.of_eq rfl hrun halike hle ⟨hle', fun _ _ => rfl⟩ ?_
  generalize (act s).1 = r at hresult ⊢
  generalize (act' σ.session).1 = r' at hresult ⊢
  cases hresult with
  | ok h => exact .ok (hQ _ _ _ _ h)
  | error e => exact .error _

theorem onStore {act : Run α} {ref : EnvRun β} (hs : σ.Mirrors s)
    (h : Agrees act ref s.machine σ.store Q) :
    Follows (Session.onMachine act) (EnvSession.onStore ref) s σ Q := by
  obtain ⟨y, τ, href, hm, hle, hσ, hy⟩ := h
  have hrun : EnvSession.onStore ref σ =
      (.ok y, ⟨{ σ.session with machine := τ.machine }, τ.closures⟩) := by
    rw [EnvSession.onStore, href]
  refine Lockstep.of_eq rfl hrun ?_ hle hσ (.ok hy)
  exact ⟨hs.env_eq, hs.ns_eq, hs.supply_eq, hs.good, hm, hs.limit_eq⟩

end Follows

/-! ## Running typed forms -/

variable {keep : Keep} {s : Session} {σ : EnvSession} {m : Machine}

theorem Mirrors.withUnit (hs : σ.Mirrors s) (code : Code) : σ.Mirrors (s.withUnit code) :=
  { hs with
    machines :=
      hs.machines.of_heaps hs.machines.heaps (le_refl _) (le_refl _) hs.machines.fault_eq }

theorem Mirrors.store (hs : σ.Mirrors s) : σ.store.Mirrors s.machine := hs.machines

theorem agrees_takeFault {σ : EnvStore} (hm : σ.Mirrors m) :
    Agrees Machine.takeFault (onMachine Machine.takeFault) m σ fun _ _ f f' => f' = f :=
  .onMachine (Matching.tracks_takeFault hm) fun _ _ _ _ h => h

theorem agrees_andFault {σ : EnvStore} {act : Run Addr} {ref : EnvRun Addr}
    (h : Agrees act ref m σ Located) :
    Agrees (do let a ← act; return (a, ← Machine.takeFault))
      (do let a ← ref; return (a, ← onMachine Machine.takeFault)) m σ
      fun h τ r r' => Located h τ r.1 r'.1 ∧ r'.2 = r.2 :=
  h.bind fun _ _ _ _ hn _ _ ⟨ha, hfound⟩ => (agrees_takeFault hn).bind
    fun _ _ _ _ hn hle hτ hf => .pure hn ⟨⟨ha, EnvStore.Has.of_le hfound hle hτ⟩, hf⟩

theorem follows_runThunk (hkeep : keep.Sound) (hs : σ.Mirrors s) {e : Expr Ty} {code : Code}
    (hcode : e.lower [] = .ok code) :
    Follows (Session.runThunk e) (runThunk keep e) s σ fun h τ r a => Located h τ r.1 a := by
  refine .bind_left (Session.compileEntry_ok hcode s) (le_refl _) (.get_bind ?_)
  have hs' := hs.withUnit code
  dsimp only
  rw [hs.limit_eq]
  have heval : Agrees
      (do
        let _ ← Machine.takeFault
        let a ← code.eval (call s.callLimit) []
        return (a, ← Machine.takeFault))
      (do
        let _ ← onMachine Machine.takeFault
        let a ← e.evalWith keep (callWith keep s.callLimit) []
        return (a, ← onMachine Machine.takeFault)) (s.withUnit code).machine σ.store
      fun h τ r r' => Located h τ r.1 r'.1 ∧ r'.2 = r.2 :=
    (agrees_takeFault hs'.machines).bind fun n τ _ _ hn _ _ _ =>
      agrees_andFault (agrees_eval hkeep (agrees_call hkeep _) hcode hn nofun)
  refine (Follows.onStore hs' heval).bind fun t τ (a, f) (a', f') ht _ _ ⟨ha, hf⟩ => ?_
  obtain rfl : f' = f := hf
  cases f' with
  | some f => exact .throw ht _
  | none => exact .pure ht ha

theorem follows_definedObject (hkeep : keep.Sound) (hs : σ.Mirrors s) (name : GlobalName)
    {body : Expr Ty} (hbody : Session.DefinesCode body) :
    Follows (Session.definedObject name body) (definedObject keep name body) s σ
      fun h τ r r' => Located h τ r.1 r'.1 ∧ r'.2 = r.2.1 := by
  cases body with
  | fn params b n =>
    obtain ⟨code, hcode⟩ := hbody
    refine .bind_left (Session.compileEntry_ok hcode s) (le_refl _) ?_
    have hclosed : b.lower (params ++ []) = .ok code := by rwa [List.append_nil]
    have hs' := hs.withUnit code
    have hclosure := agrees_newClosure (c := ⟨params, b, []⟩) hs'.store name.text hclosed nofun
    exact .bind (Follows.onStore hs' hclosure) fun t τ a a' ht _ _ ha => .pure ht ⟨ha, rfl⟩
  | _ =>
    obtain ⟨code, hcode⟩ := hbody
    exact (follows_runThunk hkeep hs hcode).bind fun t τ (a, _) a' ht _ _ ha => .pure ht ⟨ha, rfl⟩

theorem follows_bindObject (hs : σ.Mirrors s) (name : GlobalName) (ty : Ty) {a : Addr}
    (ha : σ.store.Has s.machine.heap a) :
    Follows (Session.bindObject name ty a) (onSession .run (Session.bindObject name ty a)) s σ
      fun _ _ c c' => c' = c := by
  have hfollow := Session.follow_bindObject hs name ty ha
  rw [Renumbering.onTy_id] at hfollow
  exact .onSession hfollow fun _ _ _ _ h => h

theorem Mirrors.withVar (hs : σ.Mirrors s) (v : Var) :
    Mirrors { s with env := s.env.withVar v }
      { σ with session.env := σ.session.env.withVar v } := by
  have halike := Session.Alike.withVar hs v
  rwa [Renumbering.onVar_id] at halike

/-- **A typed form runs as it is evaluated in environments.** -/
theorem follows_runForm (hkeep : keep.Sound) (hs : σ.Mirrors s) {t : Expr Ty}
    (ht : Session.HasCode t) :
    Follows (Session.runForm t) (runForm keep t) s σ fun _ _ r o => o = r.outcome := by
  cases t with
  | define name declared body n =>
    rw [Session.runForm, Session.runDefine_eq]
    refine (follows_definedObject hkeep hs name ht).bind
      fun t τ (a, kind, _) (a', kind') ht _ _ ⟨⟨ha, hfound⟩, hkind⟩ => ?_
    obtain rfl : a' = a := ha
    obtain rfl : kind' = kind := hkind
    refine (follows_bindObject ht name _ hfound).bind fun u υ c _ hu _ _ hc => ?_
    subst hc
    exact .of_eq rfl rfl
      (hu.withVar { name, kind := kind', cell := _, declared, inferred := some body.ann })
      (le_refl _) (le_refl _) (.ok rfl)
  | declare d n =>
    have hfollow := Session.follow_runDeclare (Matching.keepsNative_mirror _) hs d
    rw [Renumbering.onDeclaration_id] at hfollow
    have hrun : Follows (Session.runDeclare d) (onSession .run (Session.runDeclare d)) s σ
        fun _ _ r r' => r'.outcome = r.outcome :=
      .onSession hfollow fun _ _ _ _ h => h.trans (Renumbering.onOutcome_id _)
    exact hrun.map_right id
  | _ =>
    obtain ⟨code, hcode⟩ := ht
    refine (follows_runThunk hkeep hs hcode).bind fun t τ (a, _) a' ht _ _ ⟨ha, hfound⟩ =>
      .get_bind ?_
    obtain rfl : a' = a := ha
    have hdecode : τ.session.machine.heap.decode a' = t.machine.heap.decode a' := hfound.decode_eq
    rw [hdecode]
    cases t.machine.heap.decode a' with
    | ok v => exact .pure ht rfl
    | error f => exact .throw ht _

/-! ## Evaluating forms -/

/-- The session in which a form has been analysed and its type inferred. -/
def withSupply (σ : EnvSession) (supply : Supply) : EnvSession :=
  ⟨σ.session.withSupply supply, σ.closures⟩

section Eval

variable {f : Form} {e : Expr Unit} {supply : Supply}

theorem analyse_ok (ha : (TypedLisp.analyse σ.session.env σ.session.ns f).run σ.session.supply =
    .ok (e, supply)) :
    onSession .analysis (Session.analyse f) σ = (.ok e, σ.withSupply supply) := by
  simp only [onSession, Session.analyse, ha]
  rfl

theorem eval_of_analyse_error {err : AnalysisError}
    (ha : (TypedLisp.analyse σ.session.env σ.session.ns f).run σ.session.supply = .error err) :
    eval keep f σ = (.error (.eval (.analysis err)), σ) := by
  refine bind_error ?_
  simp only [onSession, Session.analyse, ha]
  rfl

theorem eval_of_infer_error {err : TypeError}
    (ha : (TypedLisp.analyse σ.session.env σ.session.ns f).run σ.session.supply = .ok (e, supply))
    (ht : (TypedLisp.infer e).run supply.tyVar = .error err) :
    eval keep f σ = (.error (.eval (.type err)), σ.withSupply supply) := by
  refine (bind_ok (analyse_ok ha)).trans (bind_error ?_)
  simp only [onSession, Session.infer, withSupply, Session.withSupply, ht]
  rfl

theorem eval_of_infer {t : Expr Ty} {k : TyVar}
    (ha : (TypedLisp.analyse σ.session.env σ.session.ns f).run σ.session.supply = .ok (e, supply))
    (ht : e.Infers supply t k) :
    eval keep f σ = runForm keep t (σ.withSupply { supply with tyVar := k }) := by
  refine (bind_ok (analyse_ok ha)).trans (bind_ok ?_)
  simp only [onSession, Session.infer, withSupply, Session.withSupply, ht]
  rfl

end Eval

theorem Mirrors.withSupply (hs : σ.Mirrors s) (supply : Supply) :
    (σ.withSupply supply).Mirrors (s.withSupply supply) :=
  { hs with supply_eq := rfl, good := ⟨fun _ => rfl, fun _ => rfl⟩ }

theorem Mirrors.collected (hs : σ.Mirrors s) (hc : s.Covered) : σ.Mirrors s.collected :=
  { hs with machines := hs.machines.collectIfDue hc }

theorem result?_eq {α β : Type} {r : Except RunError α} {r' : Except EnvError β} {f : α → β}
    (h : SameEnd ofRun (fun x y => y = f x) r r') :
    result? r' = some ((r.map f).mapError .run) := by
  cases h with
  | ok h => rw [h]; rfl
  | error e => rfl

/-- **A form is evaluated in environments as its code runs.** -/
theorem Mirrors.eval (hkeep : keep.Sound) (hs : σ.Mirrors s) (hreachable : s.Reachable) {f : Form}
    (hf : f.EvenMaps) :
    (EnvSession.eval keep f σ).2.Mirrors (Session.eval f s).2 ∧
      result? (EnvSession.eval keep f σ).1 = some (Session.eval f s).1 := by
  have hanalyse : (TypedLisp.analyse σ.session.env σ.session.ns f).run σ.session.supply =
      (TypedLisp.analyse s.env s.ns f).run s.supply := by
    rw [hs.env_eq, hs.ns_eq, hs.supply_eq, Renumbering.onEnv_id]
    rfl
  obtain ⟨e, ha, heval⟩ | ⟨e, supply, err, ha, ht, heval⟩ | ⟨e, supply, t, k, ha, ht, heval⟩ :=
    Session.eval_cases f s
  · rw [heval, eval_of_analyse_error (hanalyse.trans ha)]
    exact ⟨hs, rfl⟩
  · rw [heval, eval_of_infer_error (hanalyse.trans ha) ht]
    exact ⟨hs.withSupply supply, rfl⟩
  · rw [heval, eval_of_infer (hanalyse.trans ha) ht, Session.run_eq]
    have hrun := follows_runForm hkeep (hs.withSupply { supply with tyVar := k })
      (hreachable.coherent.hasCode hf ha ht)
    have hcovered : (s.inferred supply k).Covered := hreachable.covered
    refine ⟨hrun.related.collected (hcovered.runForm t), (result?_eq hrun.result).trans ?_⟩
    cases (Session.runForm t (s.inferred supply k)).1 <;> rfl

/-! ## Calls from outside -/

theorem agrees_encodeArgs {σ : EnvStore} (hm : σ.Mirrors m) (args : List Value) :
    Agrees (Session.encodeArgs args) (onMachine (Session.encodeArgs args)) m σ
      fun h τ => SameEnd id (LocatedAll h τ) :=
  .onMachine (Session.tracks_encodeArgs hm args) fun _ _ _ _ h => by
    cases h with
    | ok h => exact .ok ⟨h.1.trans (List.map_id _), h.2⟩
    | error e => exact .error e

theorem follows_callVar (hkeep : keep.Sound) (hs : σ.Mirrors s) (v : Var) (args : List Value) :
    Follows (Session.callVar v args) (callVar keep v args) s σ fun _ _ r r' => r' = r := by
  refine .get_bind ?_
  have hcell? : σ.session.machine.cell? v.cell = s.machine.cell? v.cell :=
    (hs.machines.cell?_eq v.cell).trans Option.map_id'
  rw [hcell?]
  cases hcell : s.machine.cell? v.cell with
  | none => exact .throw hs _
  | some f =>
    have hf : σ.store.Has s.machine.heap f := hs.machines.found v.cell.id f hcell
    refine .bind (Follows.onStore hs (agrees_encodeArgs hs.store args))
      fun t τ r r' ht hle hτ hr => ?_
    cases hr with
    | error e => exact .of_eq rfl rfl ht (le_refl _) (le_refl _) (.error _)
    | @ok as _ has =>
      obtain ⟨rfl, hfound⟩ := has
      refine .bind (Q := LocatedAll) (.pure ht ⟨rfl, hfound⟩)
        fun t τ _ as ht hle₁ hτ₁ ⟨has, hfound⟩ => .get_bind ?_
      subst has
      have hf := EnvStore.Has.of_le (EnvStore.Has.of_le hf hle hτ) hle₁ hτ₁
      rw [ht.limit_eq]
      have henter : Agrees (do let _ ← Machine.takeFault; Machine.enter t.callLimit f as.length)
          (onMachine do let _ ← Machine.takeFault; Machine.enter t.callLimit f as.length) t.machine
          τ.store fun h τ => (Matching.mirror τ.closures).Entered h τ.machine.heap f as.length :=
        (agrees_takeFault ht.store).bind fun n υ _ _ hn hle hυ _ =>
          agrees_enter hn (EnvStore.Has.of_le hf hle hυ) _ _
      refine .bind (Follows.onStore ht henter) fun u υ _ _ hu hle₂ hυ hentered => ?_
      cases hentered with
      | none =>
        refine .bind (Follows.onStore hu (agrees_takeFault hu.store)) fun w ω e _ hw _ _ he => ?_
        subst he
        exact .throw hw _
      | some _ _ hfn harity hc =>
        dsimp only
        split
        · exact .of_eq rfl rfl hu (le_refl _) (le_refl _) (.error _)
        have hrun := agrees_run hkeep (agrees_call hkeep (t.callLimit - 1)) hu.store hfn hc harity
          fun a ha => EnvStore.Has.of_le (hfound a ha) hle₂ hυ
        refine .bind (Follows.onStore hu (agrees_andFault hrun))
          fun w ω (a, e) (a', e') hw _ _ ⟨⟨ha, hfound⟩, he⟩ => ?_
        obtain rfl : e' = e := he
        obtain rfl : a' = a := ha
        cases e' with
        | some e => exact .throw hw _
        | none =>
          refine .get_bind ?_
          have hdecode : ω.session.machine.heap.decode a' = w.machine.heap.decode a' :=
            hfound.decode_eq
          rw [hdecode]
          cases w.machine.heap.decode a' with
          | ok v => exact .pure hw rfl
          | error e => exact .throw hw _

/-- **A call from outside gives the same answer.** -/
theorem Mirrors.invoke (hkeep : keep.Sound) (hs : σ.Mirrors s) (hcovered : s.Covered)
    (sym : String) (args : List Value) :
    (EnvSession.invoke keep sym args σ).2.Mirrors (Session.invoke sym args s).2 ∧
      result? (EnvSession.invoke keep sym args σ).1 = some (Session.invoke sym args s).1 := by
  have hresolve : σ.session.resolve sym = s.resolve sym := by
    rw [Session.resolve_eq hs, funext Renumbering.onVar_id]
    cases s.resolve sym <;> rfl
  cases h : s.resolve sym with
  | error e =>
    have hinvoke : EnvSession.invoke keep sym args σ = (.error (.eval e), σ) := by
      refine (bind_ok rfl).trans ?_
      simp only [hresolve.trans h]
      rfl
    rw [hinvoke, Session.invoke_of_resolve_error h]
    exact ⟨hs, rfl⟩
  | ok v =>
    have hinvoke : EnvSession.invoke keep sym args σ = callVar keep v args σ := by
      refine (bind_ok rfl).trans ?_
      simp only [hresolve.trans h]
    have hcall := follows_callVar hkeep hs v args
    rw [hinvoke, Session.invoke_of_resolve h]
    have hcovered' := hcovered.quiet (Session.isQuiet_callVar v args s)
    refine ⟨hcall.related.collected hcovered', (result?_eq (f := id) hcall.result).trans ?_⟩
    cases (Session.callVar v args s).1 <;> rfl

/-! ## Whole runs -/

theorem mirrors_start (limit : Nat) : (start limit).Mirrors (Session.start limit) where
  env_eq := (Renumbering.onEnv_id _).symm
  ns_eq := rfl
  supply_eq := rfl
  good := ⟨fun _ => rfl, fun _ => rfl⟩
  machines := Session.machines_start (Matching.keepsNative_mirror _) (fun _ => rfl) limit
  limit_eq := rfl

theorem Mirrors.answer (hkeep : keep.Sound) (hs : σ.Mirrors s) (hreachable : s.Reachable)
    {r : Session.Request} (hr : r.EvenMaps) :
    (σ.answer keep r).2.Mirrors (s.answer r).2 ∧ (σ.answer keep r).1 = some (s.answer r).1 := by
  cases r with
  | form f =>
    obtain ⟨hmirrors, hresult⟩ := hs.eval hkeep hreachable hr
    exact ⟨hmirrors, congrArg (Option.map Session.Answer.evaluated) hresult⟩
  | call sym args =>
    obtain ⟨hmirrors, hresult⟩ := hs.invoke hkeep hreachable.covered sym args
    exact ⟨hmirrors, congrArg (Option.map Session.Answer.returned) hresult⟩

/-- **Evaluation in environments gives the answers of the session**, request after request. -/
theorem Mirrors.answers_eq (hkeep : keep.Sound) (hs : σ.Mirrors s) (hreachable : s.Reachable)
    {rs : List Session.Request} (hrs : ∀ r ∈ rs, r.EvenMaps) :
    σ.answers keep rs = (s.answers rs).map some := by
  induction rs generalizing s σ with
  | nil => rfl
  | cons r rs ih =>
    obtain ⟨hr, hrs⟩ := List.forall_mem_cons.1 hrs
    obtain ⟨hmirrors, hanswer⟩ := hs.answer hkeep hreachable hr
    rw [answers, Session.answers, List.map_cons, hanswer, ih hmirrors (hreachable.answer hr) hrs]

/-- **Closure conversion preserves meaning.** Whatever is asked of a session, forms of every nesting
and calls from outside, evaluation in which a closure has only its parameters and the locals that it
closes over answers as evaluation in which it keeps the whole environment. Both answer as the code
does, with the same values, types and faults. No evaluation is ever stuck, so each local that is
referred to or captured is found. -/
theorem closure_conversion_preserves_answers (limit : Nat) {requests : List Session.Request}
    (h : ∀ r ∈ requests, r.EvenMaps) :
    (start limit).answers .captured requests = (start limit).answers .whole requests ∧
    (start limit).answers .whole requests = ((Session.start limit).answers requests).map some := by
  have hcaptured := (mirrors_start limit).answers_eq Keep.sound_captured (.start limit) h
  have hwhole := (mirrors_start limit).answers_eq Keep.sound_whole (.start limit) h
  exact ⟨hcaptured.trans hwhole.symm, hwhole⟩

/-- The form `(let [x 1 f (fn (y) (fn (z) (+ x (+ y z)))) x 10] ((f x) x))`, where a nested function
captures a local that is shadowed later, the form `(def g (fn (a) ((fn (b) (+ a b)) 2)))`, and a
call of `g` from outside. -/
def nestedAndShadowed : List Session.Request :=
  let symbol (name : String) : Form := .atom (.symbol name) .nowhere
  let number (n : Int64) : Form := .atom (.int n) .nowhere
  let list (items : List Form) : Form := .seq .list items .nowhere
  let sum := list [symbol "+", symbol "x", list [symbol "+", symbol "y", symbol "z"]]
  let f := list [symbol "fn", list [symbol "y"], list [symbol "fn", list [symbol "z"], sum]]
  let bindings := [symbol "x", number 1, symbol "f", f, symbol "x", number 10]
  let inner := list [symbol "fn", list [symbol "b"], list [symbol "+", symbol "a", symbol "b"]]
  let g := list [symbol "fn", list [symbol "a"], list [inner, number 2]]
  [.form (list [symbol "let", .seq .vector bindings .nowhere,
      list [list [symbol "f", symbol "x"], symbol "x"]]),
    .form (list [symbol "def", symbol "g", g]), .call "g" [.int 40]]

theorem answers_nestedAndShadowed : (Session.start 100).answers nestedAndShadowed =
    [.evaluated (.ok (.value (.int 21) .int)),
      .evaluated (.ok (.defined ⟨"user", "g"⟩ (.fn [.int] .int))), .returned (.ok (.int 42))] := by
  cbv

theorem closure_conversion_preserves_answers_nestedAndShadowed :
    (∀ r ∈ nestedAndShadowed, r.EvenMaps) ∧
      (start 100).answers .captured nestedAndShadowed =
        (start 100).answers .whole nestedAndShadowed ∧
      (start 100).answers .whole nestedAndShadowed =
        [some (.evaluated (.ok (.value (.int 21) .int))),
          some (.evaluated (.ok (.defined ⟨"user", "g"⟩ (.fn [.int] .int)))),
          some (.returned (.ok (.int 42)))] := by
  have heven : ∀ r ∈ nestedAndShadowed, r.EvenMaps := by
    simp [nestedAndShadowed, Session.Request.EvenMaps, Form.EvenMaps, Form.EvenMapsAll]
  obtain ⟨hsame, hcode⟩ := closure_conversion_preserves_answers 100 heven
  rw [answers_nestedAndShadowed] at hcode
  exact ⟨heven, hsame, hcode⟩

end EnvSession

end TypedLisp
