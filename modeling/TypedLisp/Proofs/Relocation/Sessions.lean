import TypedLisp.Checker
import TypedLisp.Proofs.Relocation.Reading
import TypedLisp.Proofs.Renumbering.Analysis
import TypedLisp.Proofs.Renumbering.Inference
import TypedLisp.Proofs.Session.Steps

/-!
# Evaluation and checking line by line

What a form does to a session or to a check does not depend on where the form stands; only its
errors say so (`Session.eval_relocate`, `Checker.check_relocate`). With the forms of two texts read
one after the other, this makes evaluation of a text the evaluation of its parts in turn.
-/

namespace TypedLisp

/-! ## Expressions that have moved -/

section Moving

variable (g : Range → Range) {α : Type}

/-- Other places alone. -/
def moving : Recasting := Renumbering.id.recasting g

/-- The expression with all its ranges moved. -/
def Expr.relocate {α : Type} (e : Expr α) : Expr α := (moving g).onExpr id e

@[simp] theorem Expr.ann_relocate (e : Expr α) : (e.relocate g).ann = e.ann :=
  (moving g).ann_onExpr id e

theorem Expr.relocate_fn (ps : List Local) (e : Expr α) (n : Note α) :
    (Expr.fn ps e n).relocate g = .fn ps (e.relocate g) ((moving g).onNote id n) :=
  Recasting.onExpr_fn rfl id ps e n

theorem Expr.relocate_define (name : GlobalName) (d : Option Ty) (e : Expr α)
    (n : Note α) :
    (Expr.define name d e n).relocate g = .define name d (e.relocate g) ((moving g).onNote id n) :=
  Recasting.onExpr_define rfl id name d e n

theorem Expr.relocate_declare (d : Declaration) (n : Note α) :
    (Expr.declare d n).relocate g = .declare d ((moving g).onNote id n) :=
  Recasting.onExpr_declare rfl id d n

theorem analyse_relocate (env : Env) (ns : String) (f : Form) (k : Supply) :
    (analyse env ns (f.relocate g)).run k =
      changed (Prod.map (Expr.relocate g) id) (.relocate g) ((analyse env ns f).run k) := by
  have h := ((moving g).follows_analyse env ns f).run_eq (s := k) ⟨fun _ => rfl, fun _ => rfl⟩
  rwa [show (moving g).onEnv env = env from Renumbering.onEnv_id env] at h

theorem infer_relocate (e : Expr Unit) (k : TyVar) :
    (infer (e.relocate g)).run k =
      changed (Prod.map (Expr.relocate g) id) (.relocate g) ((infer e).run k) := by
  have h := ((moving g).follows_infer e).run_eq (s := k) fun _ => rfl
  have herror : (moving g).inferring.error = .relocate g :=
    funext fun err => congrArg (TypeError.relocate g) err.rename_id
  rwa [show (moving g).onTy = id from funext Renumbering.onTy_id, herror] at h

/-- The error with its range moved, if it has one. -/
def LowerError.relocate : LowerError → LowerError
  | .constructorArity name expected found r => .constructorArity name expected found (g r)
  | e => e

theorem Expr.lower_relocate (e : Expr α) (scope : List Local) :
    (e.relocate g).lower scope = changed id (LowerError.relocate g) (e.lower scope) := by
  have h := Renumbering.id.lower g id e scope
  have herror : Renumbering.id.onLowerError g = LowerError.relocate g :=
    funext fun err => by cases err <;> rfl
  rwa [Renumbering.map_onLocal_id, herror, funext Renumbering.onCode_id] at h

/-- The error with its range moved, if it has one. -/
def RunError.relocate : RunError → RunError
  | .lower e => .lower (e.relocate g)
  | e => e

/-- The error with its range moved, if it has one. -/
def EvalError.relocate : EvalError → EvalError
  | .read e => .read (e.relocate g)
  | .analysis e => .analysis (e.relocate g)
  | .type e => .type (e.relocate g)
  | .run e => .run (e.relocate g)
  | .unknownVar name => .unknownVar name

end Moving

section Failing

variable {σ ε α β : Type} (h : ε → ε)

/-- An action that does the same and fails with other errors. -/
def failingAs (act : ExceptT ε (StateM σ) α) : ExceptT ε (StateM σ) α := fun s =>
  ((act s).1.mapError h, (act s).2)

theorem failingAs_bind (act : ExceptT ε (StateM σ) α) (k : α → ExceptT ε (StateM σ) β) :
    failingAs h (act >>= k) = failingAs h act >>= fun a => failingAs h (k a) := by
  funext s
  rw [failingAs]
  cases hact : act s with
  | mk r s₁ =>
    cases r with
    | error e =>
      have hfailing : failingAs h act s = (.error (h e), s₁) := by
        rw [failingAs, hact]
        rfl
      rw [bind_error hact, bind_error hfailing]
      rfl
    | ok a =>
      have hfailing : failingAs h act s = (.ok a, s₁) := by
        rw [failingAs, hact]
        rfl
      rw [bind_ok hact, bind_ok hfailing, failingAs]

theorem failingAs_of_ok {act : ExceptT ε (StateM σ) α} {s : σ} {r : α} {s' : σ}
    (hact : act s = (.ok r, s')) : failingAs h act s = act s := by
  rw [failingAs, hact]
  rfl

theorem failingAs_mapM {γ : Type} {f f' : γ → ExceptT ε (StateM σ) β} {q : γ → γ}
    (hf : ∀ c, f' (q c) = failingAs h (f c)) (l : List γ) :
    (l.map q).mapM f' = failingAs h (l.mapM f) := by
  induction l with
  | nil => rfl
  | cons c l ih =>
    rw [List.map_cons, List.mapM_cons, List.mapM_cons, hf, ih, failingAs_bind]
    refine congrArg _ (funext fun b => ?_)
    rw [failingAs_bind]
    rfl

end Failing

/-! ## Sessions -/

namespace Session

variable (g : Range → Range)

theorem compileEntry_relocate (params : List Local) (body : Expr Ty) :
    compileEntry params (body.relocate g) =
      failingAs (RunError.relocate g) (compileEntry params body) := by
  funext s
  have hcode := body.lower_relocate g params
  cases h : body.lower params with
  | ok code =>
    rw [h] at hcode
    rw [failingAs_of_ok _ (compileEntry_ok h s), compileEntry_ok h, compileEntry_ok hcode]
    rfl
  | error e =>
    rw [h] at hcode
    rw [failingAs, compileEntry_error h, compileEntry_error hcode]
    rfl

theorem runThunk_relocate (e : Expr Ty) :
    runThunk (e.relocate g) = failingAs (RunError.relocate g) (runThunk e) := by
  rw [runThunk, runThunk, compileEntry_relocate, failingAs_bind]
  refine congrArg _ (funext fun (code, closures) => ?_)
  simp only [failingAs_bind]
  refine congrArg _ (funext fun limit => congrArg _ (funext fun (a, fault) => ?_))
  cases fault <;> rfl

theorem definedObject_relocate (name : GlobalName) (body : Expr Ty) :
    definedObject name (body.relocate g) =
      failingAs (RunError.relocate g) (definedObject name body) := by
  cases body with
  | fn params e n =>
    rw [Expr.relocate_fn, definedObject, definedObject, compileEntry_relocate, failingAs_bind]
    rfl
  | _ =>
    simp only [definedObject, failingAs_bind, ← runThunk_relocate]
    rfl

theorem bindObject_failingAs {α : Type} (name : GlobalName) (ty : Ty) (a : Addr)
    {k k' : Cell → Action RunError α} (hk : ∀ cell, k' cell = failingAs (RunError.relocate g) (k cell)) :
    bindObject name ty a >>= k' = failingAs (RunError.relocate g) (bindObject name ty a >>= k) := by
  have hbind : failingAs (RunError.relocate g) (bindObject name ty a) = bindObject name ty a := by
    funext s
    obtain ⟨cell, cells, -, hcell⟩ := bindObject_cases name ty a s
    exact failingAs_of_ok _ hcell
  rw [failingAs_bind, hbind]
  exact congrArg _ (funext hk)

theorem runDefine_relocate (name : GlobalName) (declared : Option Ty) (body : Expr Ty) :
    runDefine name declared (body.relocate g) =
      failingAs (RunError.relocate g) (runDefine name declared body) := by
  rw [runDefine_eq, runDefine_eq, definedObject_relocate, Expr.ann_relocate, failingAs_bind]
  exact congrArg _ (funext fun (a, kind, closures) =>
    bindObject_failingAs g name _ a fun cell => rfl)

theorem runDeclare_failingAs (d : Declaration) :
    failingAs (RunError.relocate g) (runDeclare d) = runDeclare d := by
  by_cases hhost : ∃ name ref ty, d = .host name ref ty
  · obtain ⟨name, ref, ty, rfl⟩ := hhost
    unfold runDeclare
    dsimp only
    cases hostModule? ref.module with
    | none => rfl
    | some m =>
      dsimp only
      cases (m.function? ref.fn).filter (·.arity = ref.arity) with
      | none => rfl
      | some fn =>
        dsimp only
        rw [failingAs_bind]
        exact congrArg _ (funext fun a => (bindObject_failingAs g name ty a fun cell => rfl).symm)
  · funext s
    obtain ⟨r, s', hrun, -⟩ := runDeclare_enters (d := d)
      (fun name ref ty hd => absurd ⟨name, ref, ty, hd⟩ hhost) ⟨.nowhere, .effect⟩ s
    exact failingAs_of_ok _ hrun

theorem runForm_eq_thunk {t : Expr Ty} (ht : ¬IsEntry t) :
    runForm t = (do
      let (a, closures) ← runThunk t
      match (← get).machine.heap.decode a with
      | .ok v => return ⟨.value v t.ann, closures⟩
      | .error f => throw (.fault f)) := by
  cases t with
  | define | declare => exact absurd trivial ht
  | _ => rfl

theorem runForm_relocate (t : Expr Ty) :
    runForm (t.relocate g) = failingAs (RunError.relocate g) (runForm t) := by
  by_cases ht : IsEntry t
  · cases t with
    | define name declared body n =>
      rw [Expr.relocate_define]
      exact runDefine_relocate g name declared body
    | declare d n =>
      rw [Expr.relocate_declare]
      exact (runDeclare_failingAs g d).symm
    | _ => exact ht.elim
  · have ht' : ¬IsEntry (t.relocate g) := by
      cases t <;> exact ht
    rw [runForm_eq_thunk ht, runForm_eq_thunk ht', runThunk_relocate, failingAs_bind,
      Expr.ann_relocate]
    refine congrArg _ (funext fun (a, closures) => ?_)
    dsimp only
    rw [failingAs_bind]
    refine congrArg _ (funext fun s => ?_)
    cases s.machine.heap.decode a <;> rfl

theorem run_relocate (t : Expr Ty) :
    run (t.relocate g) = failingAs (RunError.relocate g) (run t) := by
  funext s
  rw [failingAs, run_eq, run_eq, runForm_relocate, failingAs]

/-- **What a form does to a session does not depend on where it stands**; its error says where. -/
theorem eval_relocate (f : Form) :
    eval (f.relocate g) = failingAs (EvalError.relocate g) (eval f) := by
  funext s
  have hanalyse := analyse_relocate g s.env s.ns f s.supply
  rw [failingAs]
  obtain ⟨e, ha, heval⟩ | ⟨e, supply, err, ha, ht, heval⟩ | ⟨e, supply, t, k, ha, ht, heval⟩ :=
    eval_cases f s
  · rw [ha] at hanalyse
    rw [heval, eval_of_analyse_error hanalyse]
    rfl
  · have hinfer := infer_relocate g e supply.tyVar
    rw [ha] at hanalyse
    rw [ht] at hinfer
    rw [heval, eval_of_infer_error hanalyse hinfer]
    rfl
  · have hinfer := infer_relocate g e supply.tyVar
    rw [ha] at hanalyse
    rw [ht] at hinfer
    rw [heval, eval_of_infer hanalyse hinfer]
    dsimp only [id]
    rw [run_relocate, failingAs]
    cases (run t (s.inferred supply k)).1 <;> rfl

end Session

/-! ## Checking -/

namespace Checker

variable (g : Range → Range)

theorem declare_relocate (c : Checker) (f : Form) (t : Expr Ty) :
    c.declare (f.relocate g) (t.relocate g) = c.declare f t := by
  cases t with
  | define name declared body n =>
    have hkind : defineKind (body.relocate g) = defineKind body := by
      cases body with
      | fn ps e n => rw [Expr.relocate_fn]; rfl
      | _ => rfl
    rw [Expr.relocate_define, declare, declare, hkind, Expr.ann_relocate]
  | declare d n =>
    rw [Expr.relocate_declare]
    cases d <;> rfl
  | _ =>
    simp only [declare, Expr.relocate, Form.text_relocate]
    rfl

/-- **What a form does to a check does not depend on where it stands**; its error says where. -/
theorem check_relocate (f : Form) :
    check (f.relocate g) = failingAs (EvalError.relocate g) (check f) := by
  funext c
  rw [failingAs, check, check, analyse_relocate]
  cases (analyse c.env c.ns f).run c.supply with
  | error e => rfl
  | ok p =>
    obtain ⟨e, supply⟩ := p
    simp only [changed, Except.map, Except.mapError, Prod.map, id, infer_relocate]
    cases (infer e).run supply.tyVar with
    | error err => rfl
    | ok q => simp only [declare_relocate]

end Checker

/-! ## Texts -/

/-- Does two things in turn that give lists. The errors of the second are in another place. -/
def inSequence {σ α : Type} (g : Range → Range) (first second : ExceptT EvalError (StateM σ) (List α)) :
    ExceptT EvalError (StateM σ) (List α) := do
  let as ← first
  let bs ← failingAs (EvalError.relocate g) second
  return as ++ bs

theorem mapM_append_relocate {σ α : Type} {f : Form → ExceptT EvalError (StateM σ) α}
    {g : Range → Range} (hf : ∀ c, f (c.relocate g) = failingAs (EvalError.relocate g) (f c))
    (l₁ l₂ : List Form) :
    (l₁ ++ l₂.map (Form.relocate g)).mapM f = inSequence g (l₁.mapM f) (l₂.mapM f) := by
  rw [List.mapM_append, failingAs_mapM _ hf]
  rfl

theorem readAll_of_no_errors {source : String} (h : (read source).2 = []) :
    readAll source = .ok (read source).1 := by
  rw [readAll]
  generalize read source = p at h ⊢
  obtain ⟨forms, errors⟩ := p
  subst h
  rfl

/-- **Texts compose at line ends.** A text without errors and another one on the lines after it have
the forms of the first and then those of the second, moved down by as many lines as the first has,
and the errors of the second, moved in the same way. If there are none, then the whole is evaluated
and checked as the two texts in turn. -/
theorem lines_compose {s₁ : String} (h : (read s₁).2 = []) (s₂ : String) :
    let g := Range.map (Pos.down (s₁.toList.count '\n' + 1))
    read (s₁ ++ "\n" ++ s₂) = ((read s₁).1 ++ (read s₂).1.map (Form.relocate g),
        (read s₂).2.map (ReadError.relocate g)) ∧
      ((read s₂).2 = [] →
        Session.evalSource (s₁ ++ "\n" ++ s₂) =
            inSequence g (Session.evalSource s₁) (Session.evalSource s₂) ∧
          Checker.checkSource (s₁ ++ "\n" ++ s₂) =
            inSequence g (Checker.checkSource s₁) (Checker.checkSource s₂)) := by
  intro g
  have hread := read_append_line h s₂
  refine ⟨hread, fun h₂ => ?_⟩
  have hjoined : readAll (s₁ ++ "\n" ++ s₂) =
      .ok ((read s₁).1 ++ (read s₂).1.map (Form.relocate g)) := by
    rw [readAll_of_no_errors (by rw [hread, h₂, List.map_nil]), hread]
  constructor
  · rw [Session.evalSource, Session.evalSource, Session.evalSource, hjoined,
      readAll_of_no_errors h, readAll_of_no_errors h₂]
    exact mapM_append_relocate (Session.eval_relocate g) _ _
  · rw [Checker.checkSource, Checker.checkSource, Checker.checkSource, hjoined,
      readAll_of_no_errors h, readAll_of_no_errors h₂]
    exact mapM_append_relocate (Checker.check_relocate g) _ _

/-- A text of two lines: one line break is in a string, and a bracket is in a comment at its end. -/
def twoLines : String := "(def s \"a\nb\") ; not read: ("

/-- A text whose second line has no type after the text before. -/
def illTyped : String := "[s\n (+ 1 s)]"

/-- What stands in the second text is two lines further down. -/
theorem lines_compose_illTyped :
    (read twoLines).2 = [] ∧ (read illTyped).2 = [] ∧
      read (twoLines ++ "\n" ++ illTyped) =
        ((read twoLines).1 ++ (read illTyped).1.map (Form.relocate (Range.map (Pos.down 2))), []) ∧
      Session.evalSource (twoLines ++ "\n" ++ illTyped) =
        inSequence (Range.map (Pos.down 2)) (Session.evalSource twoLines)
          (Session.evalSource illTyped) ∧
      Checker.checkSource (twoLines ++ "\n" ++ illTyped) =
        inSequence (Range.map (Pos.down 2)) (Checker.checkSource twoLines)
          (Checker.checkSource illTyped) := by
  have htwo : (read twoLines).2 = [] := by decide +kernel
  have hill : (read illTyped).2 = [] := by decide +kernel
  have hlines : twoLines.toList.count '\n' + 1 = 2 := by decide
  have hcompose := lines_compose htwo illTyped
  rw [hlines] at hcompose
  obtain ⟨hread, hrun⟩ := hcompose
  rw [hill] at hread
  exact ⟨htwo, hill, hread, hrun hill⟩

end TypedLisp
