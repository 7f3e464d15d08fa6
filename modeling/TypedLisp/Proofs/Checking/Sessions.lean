import TypedLisp.Checker
import TypedLisp.Proofs.Renumbering.Analysis
import TypedLisp.Proofs.Renumbering.Inference
import TypedLisp.Proofs.Session.Reachable

/-!
# The checker and the session side by side

The checker runs nothing, and it enters vars with cells and kinds of its own. Analysis and inference
see of a var its name, whether it has a declared type, and its visible type: the *sketch* of a var
has this and nothing else, and analysis and inference in the sketch of an environment follow those
in the environment (`sketching`). A session that takes in the same forms as the checker has the same
environment up to sketches, as long as no form fails when it runs (`Checker.Predicts`). So the
checker refuses a form if and only if the session refuses it before it runs, and its lines are those
of the session (`Checker.check_predicts_eval`).
-/

namespace TypedLisp

/-- What analysis and inference see of a var. -/
def Var.sketch (v : Var) : Var :=
  { name := v.name, kind := .value, cell := ⟨0, ""⟩, declared := v.declared, inferred := v.visible }

@[simp] theorem Var.visible_sketch (v : Var) : v.sketch.visible = v.visible := by
  cases h : v.declared <;> simp [Var.visible, Var.sketch, h]

/-- The numbers as they are, and sketches in place of vars. -/
def sketching : Recasting where
  toRenumbering := .id
  onRange := id
  onVar := Var.sketch
  name_onVar _ := rfl
  declared_onVar v := by rw [funext Renumbering.onTy_id, Option.map_id', Var.sketch]
  visible_onVar v := by rw [funext Renumbering.onTy_id, Option.map_id', v.visible_sketch]

theorem onTy_sketching : sketching.onTy = id := funext Renumbering.onTy_id

/-! ## Environments -/

namespace Env

/-- The environment with the sketches of its vars. -/
def sketch (e : Env) : Env := { e with vars := e.vars.map fun b => (b.1, b.2.sketch) }

theorem sketch_eq (e : Env) : e.sketch = sketching.onEnv e := by
  have hdata : sketching.onDataType = id := funext Renumbering.onDataType_id
  simp only [sketch, Recasting.onEnv, hdata, id_eq, List.map_id']
  rfl

theorem var?_sketch (e : Env) (g : GlobalName) : e.sketch.var? g = (e.var? g).map Var.sketch :=
  lookup_map_snd Var.sketch e.vars g

theorem sketch_withVar (e : Env) (v : Var) :
    (e.withVar v).sketch = e.sketch.withVar v.sketch := by
  rw [sketch_eq, sketch_eq]
  exact (sketching.onEnv_withVar e v).symm

theorem sketch_withDataType (e : Env) (d : DataType) (vs : List Var) :
    (e.withDataType d vs).sketch = e.sketch.withDataType d (vs.map Var.sketch) := by
  have hd : sketching.onDataType d = d := Renumbering.onDataType_id d
  have hwith := sketching.onEnv_withDataType e d vs
  rw [hd] at hwith
  rw [sketch_eq, sketch_eq, ← hwith]
  rfl

end Env

/-! ## Expressions -/

namespace Expr

variable {α : Type}

/-- The expression with the sketches of its vars. -/
def sketch (e : Expr α) : Expr α := sketching.onExpr id e

@[simp] theorem ann_sketch (e : Expr α) : e.sketch.ann = e.ann := sketching.ann_onExpr id e

theorem sketch_define (g : GlobalName) (d : Option Ty) (e : Expr α) (n : Note α) :
    (Expr.define g d e n).sketch = .define g d e.sketch n := Recasting.onExpr_define rfl id g d e n

theorem sketch_declare (d : Declaration) (n : Note α) :
    (Expr.declare d n).sketch = .declare d n := Recasting.onExpr_declare rfl id d n

end Expr

/-! ## Analysis and inference -/

/-- **Analysis only sees the sketches of vars.** -/
theorem follows_analyse_sketch (env : Env) (ns : String) (f : Form) :
    Follows sketching.analysing Expr.sketch (analyse env ns f) (analyse env.sketch ns f) := by
  have h := sketching.follows_analyse env ns f
  rwa [← env.sketch_eq, Recasting.onForm, show sketching.onRange = id from rfl, Form.relocate_id] at h

/-- **Inference only sees the sketches of vars.** -/
theorem follows_infer_sketch (e : Expr Unit) :
    Follows sketching.inferring Expr.sketch (infer e) (infer e.sketch) := by
  have h := sketching.follows_infer e
  rwa [onTy_sketching] at h

/-! ## Two computations with one sketch -/

/-- Computations that one and the same computation follows fail together, or they give results that
are alike. -/
theorem Follows.alike {σ ε α β : Type} {c : Change σ ε} {r : α → β}
    {act act' : StateT σ (Except ε) α} {common : StateT σ (Except ε) β} (h : Follows c r act common)
    (hstate : c.state = id) (herror : c.error = id) (h' : Follows c r act' common) {k : σ}
    (hk : c.Good k) :
    (∃ e, act.run k = .error e ∧ act'.run k = .error e) ∨
      ∃ a a' k', act.run k = .ok (a, k') ∧ act'.run k = .ok (a', k') ∧ r a = r a' := by
  obtain ⟨state, error, Good⟩ := c
  subst hstate herror
  cases hrun : act.run k with
  | error e =>
    have hcommon : common.run k = .error e := h.run_error hk hrun
    cases hrun' : act'.run k with
    | error e' =>
      cases hcommon.symm.trans (h'.run_error hk hrun')
      exact .inl ⟨_, rfl, rfl⟩
    | ok p => cases hcommon.symm.trans (h'.run_ok hk hrun').1
  | ok p =>
    obtain ⟨a, k₁⟩ := p
    have hcommon : common.run k = .ok (r a, k₁) := (h.run_ok hk hrun).1
    cases hrun' : act'.run k with
    | error e' => cases hcommon.symm.trans (h'.run_error hk hrun')
    | ok p =>
      obtain ⟨a', k₂⟩ := p
      have hsame : (r a, k₁) = (r a', k₂) :=
        Except.ok.inj (hcommon.symm.trans (h'.run_ok hk hrun').1)
      obtain ⟨ha, rfl⟩ := Prod.mk.inj hsame
      exact .inr ⟨a, a', k₁, rfl, rfl, ha⟩

theorem analyse_alike {e e' : Env} (h : e.sketch = e'.sketch) (ns : String) (f : Form)
    (k : Supply) :
    (∃ err, (analyse e ns f).run k = .error err ∧ (analyse e' ns f).run k = .error err) ∨
      ∃ x x' k', (analyse e ns f).run k = .ok (x, k') ∧ (analyse e' ns f).run k = .ok (x', k') ∧
        x.sketch = x'.sketch :=
  (follows_analyse_sketch e ns f).alike rfl rfl (h ▸ follows_analyse_sketch e' ns f)
    ⟨fun _ => rfl, fun _ => rfl⟩

theorem infer_alike {e e' : Expr Unit} (h : e.sketch = e'.sketch) (k : TyVar) :
    (∃ err, (infer e).run k = .error err ∧ (infer e').run k = .error err) ∨
      ∃ t t' k', (infer e).run k = .ok (t, k') ∧ (infer e').run k = .ok (t', k') ∧
        t.sketch = t'.sketch :=
  (follows_infer_sketch e).alike rfl
    (funext fun err => (TypeError.relocate_id _).trans err.rename_id)
    (h ▸ follows_infer_sketch e') fun _ => rfl

/-! ## What a form comes to -/

/-- The line that stands for what a form came to: for an expression, the form with its type. -/
def Outcome.line (f : Form) : Outcome → String
  | .value _ ty => f.text ++ " : " ++ ty.text
  | o => o.text

/-- What a typed form comes to if it runs, with a given value if it is an expression. -/
def Expr.outcome (v : Value) : Expr Ty → Outcome
  | .define name declared body _ => .defined name (declared.getD body.ann)
  | .declare (.ns d) _ => .ns d.ns
  | .declare (.ascribe name ty) _ => .declared name ty
  | .declare (.data d) _ => .dataType d.name (d.constructors.map (·.name))
  | .declare (.host name _ ty) _ => .defined name ty
  | e => .value v e.ann

/-- What typing sees of a var with a name and types. -/
def sketchOf (name : GlobalName) (declared : Option Ty) (visible : Ty) : Var :=
  { name, kind := .value, cell := ⟨0, ""⟩, declared, inferred := some visible }

/-- What a typed form makes of an environment of sketches. -/
def Expr.enterSketch (e : Env) : Expr Ty → Env
  | .define name declared body _ => e.withVar (sketchOf name declared (declared.getD body.ann))
  | .declare (.ns d) _ => e.withNs d
  | .declare (.ascribe name ty) _ => e.withVar (sketchOf name (some ty) ty)
  | .declare (.data d) _ =>
    e.withDataType d (d.constructors.map fun k => sketchOf k.name none (d.constructorTy k))
  | .declare (.host name _ ty) _ => e.withVar (sketchOf name (some ty) ty)
  | _ => e

/-- The namespace after a typed form. -/
def Expr.nsAfter (ns : String) : Expr Ty → String
  | .declare (.ns d) _ => d.ns
  | _ => ns

/-- Every var stands under its own name. -/
def Env.Named (e : Env) : Prop := ∀ g v, e.var? g = some v → v.name = g

namespace Session

variable {t : Expr Ty} {s s' : Session}

/-- Whatever an action returns has a property. -/
def Returns {ε α : Type} (P : α → Prop) (act : Action ε α) : Prop :=
  ∀ s a s', act s = (.ok a, s') → P a

namespace Returns

variable {ε α β : Type} {P : β → Prop}

theorem pure {b : β} (h : P b) : Returns P (Pure.pure b : Action ε β) := fun _ _ _ hrun => by
  cases hrun
  exact h

theorem throw (e : ε) : Returns P (MonadExcept.throw e : Action ε β) := fun _ _ _ hrun => by
  cases hrun

theorem bind {act : Action ε α} {k : α → Action ε β} (h : ∀ a, Returns P (k a)) :
    Returns P (act >>= k) := fun s b s' hrun => by
  match hact : act s with
  | (.ok a, s₁) => exact h a s₁ b s' ((bind_ok hact).symm.trans hrun)
  | (.error e, s₁) => cases (bind_error hact).symm.trans hrun

end Returns

theorem returns_runDeclare (d : Declaration) (n : Note Ty) :
    Returns (fun r => ∃ v, r.outcome = (Expr.declare d n).outcome v) (runDeclare d) := by
  cases d with
  | ns d => exact .bind fun _ => .pure ⟨.bool true, rfl⟩
  | ascribe name ty => exact .bind fun _ => .bind fun _ => .pure ⟨.bool true, rfl⟩
  | data d =>
    rw [runDeclare]
    dsimp only
    split
    · exact .bind fun _ => .bind fun _ => .bind fun _ => .pure ⟨.bool true, rfl⟩
    · exact .bind fun _ => .bind fun _ => .pure ⟨.bool true, rfl⟩
  | host name ref ty =>
    rw [runDeclare]
    split
    · split
      · exact .bind fun _ => .bind fun _ => .bind fun _ => .pure ⟨.bool true, rfl⟩
      · exact .throw _
    · exact .throw _

/-- What a form comes to is settled before it runs, up to the value of an expression. -/
theorem returns_runForm (t : Expr Ty) :
    Returns (fun r => ∃ v, r.outcome = t.outcome v) (runForm t) := by
  by_cases ht : IsEntry t
  · cases t with
    | define name declared body n =>
      show Returns _ (runDefine name declared body)
      rw [runDefine_eq]
      exact .bind fun _ => .bind fun _ => .bind fun _ => .pure ⟨.bool true, rfl⟩
    | declare d n => exact returns_runDeclare d n
    | _ => exact ht.elim
  · intro s r s' hrun
    match hthunk : runThunk t s with
    | (.error e, s₁) => cases (runForm_of_runThunk_error ht hthunk).symm.trans hrun
    | (.ok (a, closures), s₁) =>
      have hform := (runForm_of_runThunk ht hthunk).symm.trans hrun
      cases hdecode : s₁.machine.heap.decode a with
      | error f =>
        rw [hdecode] at hform
        cases hform
      | ok v =>
        rw [hdecode] at hform
        cases hform
        refine ⟨v, ?_⟩
        cases t with
        | define | declare => exact absurd trivial ht
        | _ => rfl

theorem sketch_of_not_isEntry (ht : ¬ IsEntry t) (e : Env) (ns : String) :
    t.enterSketch e = e ∧ t.nsAfter ns = ns := by
  cases t with
  | define | declare => exact absurd trivial ht
  | _ => exact ⟨rfl, rfl⟩

theorem ConstructorVars.sketch {d : DataType} {cs : List (Constructor × Nat)} {vs : List Var}
    (h : ConstructorVars d cs s vs s') :
    vs.map Var.sketch = (cs.map Prod.fst).map (fun k => sketchOf k.name none (d.constructorTy k)) ∧
      s'.env = s.env ∧ s'.ns = s.ns ∧ s'.supply = s.supply := by
  induction h with
  | nil => exact ⟨rfl, rfl, rfl, rfl⟩
  | cons _ _ ih =>
    obtain ⟨hvs, henv, hns, hsupply⟩ := ih
    exact ⟨congrArg (List.cons _) hvs, henv, hns, hsupply⟩

/-- The session has the environment that a form makes of sketches, once the form has run. -/
theorem Enters.sketch (h : s.Enters t s') (hs : s.env.Named) :
    s'.env.sketch = t.enterSketch s.env.sketch ∧ s'.ns = t.nsAfter s.ns ∧
      s'.supply = s.supply := by
  cases h with
  | @define name declared body n a kind closures s₁ cell cells ho hcell =>
    have hquiet := quiet_of_definedObject ho
    refine ⟨?_, hquiet.ns_eq, hquiet.supply_eq⟩
    show (s₁.env.withVar _).sketch = _
    rw [hquiet.env_eq, Env.sketch_withVar]
    cases declared <;> rfl
  | ns d n => exact ⟨rfl, rfl, rfl⟩
  | @ascribe name ty n v cells hv =>
    refine ⟨?_, rfl, rfl⟩
    show (s.env.withVar v).sketch = _
    rw [Env.sketch_withVar]
    cases hv with
    | kept hv hu halpha =>
      rw [← hs _ _ hv]
      rfl
    | new h => rfl
  | @data d n units vs s₁ hvs =>
    obtain ⟨hout, henv, hns, hsupply⟩ := hvs.sketch
    refine ⟨?_, hns, hsupply⟩
    show (s₁.env.withDataType d vs).sketch = _
    rw [henv, Env.sketch_withDataType, hout, List.zipIdx_map_fst]
    rfl
  | host harity hcell =>
    refine ⟨?_, rfl, rfl⟩
    exact Env.sketch_withVar _ _

/-- **A form that does not fail makes of the sketches what its type says**, whatever it does to the
machine. -/
theorem sketch_run (hs : s.env.Named) (hrun : ∀ e, (run t s).1 ≠ .error e) :
    (run t s).2.env.sketch = t.enterSketch s.env.sketch ∧ (run t s).2.ns = t.nsAfter s.ns ∧
      (run t s).2.supply = s.supply := by
  obtain ⟨r, s', hform, henters⟩ | ⟨hquiet, hentry⟩ := runForm_cases t s
  · rw [run_eq, hform]
    exact henters.sketch hs
  · have ht : ¬ IsEntry t := fun ht => (hentry ht).elim hrun
    obtain ⟨henv, hns⟩ := sketch_of_not_isEntry ht s.env.sketch s.ns
    exact ⟨(congrArg Env.sketch hquiet.env_eq).trans henv.symm, hquiet.ns_eq.trans hns.symm,
      hquiet.supply_eq⟩

end Session

namespace Env

variable {e : Env}

theorem Named.withVar (h : e.Named) (v : Var) : (e.withVar v).Named := fun g w hw => by
  rcases Table.get?_insert_eq_some hw with ⟨rfl, rfl⟩ | ⟨-, hw⟩
  · rfl
  · exact h g w hw

theorem Named.withDataType (h : e.Named) (d : DataType) (vs : List Var) :
    (e.withDataType d vs).Named := fun g w hw => by
  rcases Table.get?_foldl_insert_eq_some hw with ⟨v, -, rfl, rfl⟩ | hw
  · rfl
  · exact h g w hw

theorem Named.enterSketch (h : e.Named) (t : Expr Ty) : (t.enterSketch e).Named := by
  unfold Expr.enterSketch
  split
  · exact h.withVar _
  · exact h
  · exact h.withVar _
  · exact h.withDataType _ _
  · exact h.withVar _
  · exact h

theorem named_sketch : e.sketch.Named ↔ e.Named := by
  constructor
  · intro h g v hv
    exact h g v.sketch (by rw [var?_sketch, hv]; rfl)
  · intro h g w hw
    rw [var?_sketch, Option.map_eq_some_iff] at hw
    obtain ⟨v, hv, rfl⟩ := hw
    exact h g v hv

end Env

/-! ## What only depends on sketches -/

namespace Expr

variable (t : Expr Ty)

theorem enterSketch_sketch (e : Env) : t.sketch.enterSketch e = t.enterSketch e := by
  cases t with
  | define => rw [sketch_define, enterSketch, enterSketch, ann_sketch]
  | declare => rw [sketch_declare]
  | _ => rfl

theorem nsAfter_sketch (ns : String) : t.sketch.nsAfter ns = t.nsAfter ns := by
  cases t with
  | declare => rw [sketch_declare]
  | _ => rfl

theorem outcome_sketch (v : Value) : t.sketch.outcome v = t.outcome v := by
  cases t with
  | define => rw [sketch_define, outcome, outcome, ann_sketch]
  | declare => rw [sketch_declare]
  | _ => exact congrArg (Outcome.value v) (ann_sketch _)

end Expr

namespace Checker

theorem declare_line (c : Checker) (f : Form) (t : Expr Ty) (v : Value) :
    (c.declare f t).2 = (t.outcome v).line f := by
  cases t with
  | declare d n => cases d <;> rfl
  | _ => rfl

theorem constructorVars_sketch (c : Checker) (d : DataType) (ks : List Constructor) :
    (c.constructorVars d ks).1.map Var.sketch =
        ks.map (fun k => sketchOf k.name none (d.constructorTy k)) ∧
      (c.constructorVars d ks).2.env = c.env ∧ (c.constructorVars d ks).2.ns = c.ns ∧
      (c.constructorVars d ks).2.supply = c.supply := by
  induction ks generalizing c with
  | nil => exact ⟨rfl, rfl, rfl, rfl⟩
  | cons k ks ih =>
    obtain ⟨hvs, henv, hns, hsupply⟩ :=
      ih (c.newVar k.name (.constructor d.name k.arity) none (some (d.constructorTy k))).2
    exact ⟨congrArg (List.cons _) hvs, henv, hns, hsupply⟩

theorem defineVar_sketch (c : Checker) (name : GlobalName) (kind : VarKind)
    (declared : Option Ty) (inferred : Ty) :
    (c.defineVar name kind declared inferred).1.sketch =
        sketchOf name declared (declared.getD inferred) ∧
      (c.defineVar name kind declared inferred).2.env = c.env ∧
      (c.defineVar name kind declared inferred).2.ns = c.ns ∧
      (c.defineVar name kind declared inferred).2.supply = c.supply := by
  unfold defineVar
  cases c.env.var? name <;> cases declared <;> exact ⟨rfl, rfl, rfl, rfl⟩

theorem declare_sketch (c : Checker) (f : Form) (t : Expr Ty) :
    (c.declare f t).1.env.sketch = t.enterSketch c.env.sketch ∧
      (c.declare f t).1.ns = t.nsAfter c.ns ∧ (c.declare f t).1.supply = c.supply := by
  cases t with
  | define name declared body n =>
    obtain ⟨hv, henv, hns, hsupply⟩ :=
      c.defineVar_sketch name (defineKind body) declared body.ann
    refine ⟨?_, hns, hsupply⟩
    show ((c.defineVar name (defineKind body) declared body.ann).2.env.withVar
      (c.defineVar name (defineKind body) declared body.ann).1).sketch = _
    rw [Env.sketch_withVar, hv, henv]
    rfl
  | declare d n =>
    cases d with
    | ns d => exact ⟨rfl, rfl, rfl⟩
    | ascribe name ty => exact ⟨Env.sketch_withVar _ _, rfl, rfl⟩
    | data d =>
      obtain ⟨hvs, henv, hns, hsupply⟩ := c.constructorVars_sketch d d.constructors
      refine ⟨?_, hns, hsupply⟩
      show (Env.withDataType _ _ _).sketch = _
      rw [Env.sketch_withDataType, hvs, henv]
      rfl
    | host name ref ty => exact ⟨Env.sketch_withVar _ _, rfl, rfl⟩
  | _ => exact ⟨rfl, rfl, rfl⟩

/-! ## The simulation -/

/-- The checker and the session are in the same namespace, their environments have the same
sketches, and they go on from the same supply. -/
structure Predicts (c : Checker) (s : Session) : Prop where
  env_eq : c.env.sketch = s.env.sketch
  ns_eq : c.ns = s.ns
  supply_eq : c.supply = s.supply
  named : s.env.Named

theorem start_predicts (limit : Nat) : Checker.start.Predicts (Session.start limit) := by
  have hfold : ∀ (bs : List Builtin) (s : Session),
      bs.foldl Session.defineBuiltin { s with callLimit := limit } =
        { bs.foldl Session.defineBuiltin s with callLimit := limit } := by
    intro bs
    induction bs with
    | nil => exact fun s => rfl
    | cons b bs ih => exact fun s => ih (s.defineBuiltin b)
  have hstart : Session.start limit = { Session.start 0 with callLimit := limit } :=
    hfold Builtin.all { callLimit := 0 }
  exact ⟨by rw [hstart]; rfl, by rw [hstart]; rfl, by rw [hstart]; rfl,
    (Session.Coherent.start limit).name_eq⟩

variable {c : Checker} {s : Session}

/-- A form that the checker takes in and the session runs keeps the two together. -/
theorem Predicts.declare (h : c.Predicts s) (f : Form) {t t' : Expr Ty}
    (ht : t.sketch = t'.sketch) (hrun : ∀ e, (Session.run t' s).1 ≠ .error e) :
    (c.declare f t).1.Predicts (Session.run t' s).2 := by
  obtain ⟨henv, hns, hsupply⟩ := c.declare_sketch f t
  obtain ⟨henv', hns', hsupply'⟩ := Session.sketch_run h.named hrun
  refine ⟨?_, ?_, hsupply.trans (h.supply_eq.trans hsupply'.symm), ?_⟩
  · rw [henv, henv', h.env_eq, ← t.enterSketch_sketch, ht, t'.enterSketch_sketch]
  · rw [hns, hns', h.ns_eq, ← t.nsAfter_sketch, ht, t'.nsAfter_sketch]
  · rw [← Env.named_sketch, henv']
    exact (Env.named_sketch.2 h.named).enterSketch t'

/-- **What the checker and the session do with a form**: both refuse it for the same reason, or both
find types for it and go on with typed forms that have the same sketch. -/
theorem Predicts.check_cases (h : c.Predicts s) (f : Form) :
    (∃ e c' s', check f c = (.error e, c') ∧ Session.eval f s = (.error e, s') ∧
      (∀ r, e ≠ .run r) ∧ c'.Predicts s') ∨
    ∃ (c₁ : Checker) (s₁ : Session) (t t' : Expr Ty),
      check f c = (.ok (c₁.declare f t).2, (c₁.declare f t).1) ∧
      Session.eval f s = (match (Session.run t' s₁).1 with
        | .ok r => .ok r.outcome
        | .error e => .error (.run e), (Session.run t' s₁).2) ∧
      c₁.Predicts s₁ ∧ t.sketch = t'.sketch := by
  have halike := analyse_alike h.env_eq s.ns f s.supply
  obtain ⟨e, ha, ha'⟩ | ⟨x, x', k, ha, ha', hx⟩ := halike
  · refine .inl ⟨.analysis e, c, s, ?_, Session.eval_of_analyse_error ha', nofun, h⟩
    simp only [check, h.ns_eq, h.supply_eq, ha]
  · have hsupply : ∀ k, ({ c with supply := k } : Checker).Predicts (s.withSupply k) :=
      fun k => ⟨h.env_eq, h.ns_eq, rfl, h.named⟩
    obtain ⟨e, ht, ht'⟩ | ⟨t, t', n, ht, ht', hout⟩ := infer_alike hx k.tyVar
    · refine .inl ⟨.type e, _, _, ?_, Session.eval_of_infer_error ha' ht', nofun, hsupply k⟩
      simp only [check, h.ns_eq, h.supply_eq, ha, ht]
    · refine .inr ⟨_, _, t, t', ?_, Session.eval_of_infer ha' ht', hsupply _, hout⟩
      simp only [check, h.ns_eq, h.supply_eq, ha, ht]

/-- The checker and the session stay together over a form that does not fail when it runs. -/
theorem Predicts.check (h : c.Predicts s) {f : Form}
    (hrun : ∀ e, (Session.eval f s).1 ≠ .error (.run e)) :
    (Checker.check f c).2.Predicts (Session.eval f s).2 := by
  obtain ⟨e, c', s', hcheck, heval, -, hpredicts⟩ | ⟨c₁, s₁, t, t', hcheck, heval, h₁, ht⟩ :=
    h.check_cases f
  · rw [hcheck, heval]
    exact hpredicts
  · rw [hcheck, heval]
    refine h₁.declare f ht fun e he => hrun e ?_
    rw [heval, he]

/-- The checker refuses a form if and only if the session refuses it before it runs. -/
theorem Predicts.check_error_iff (h : c.Predicts s) (f : Form) (e : EvalError) :
    (Checker.check f c).1 = .error e ↔
      (Session.eval f s).1 = .error e ∧ ∀ r, e ≠ .run r := by
  obtain ⟨e', c', s', hcheck, heval, hnot, -⟩ | ⟨c₁, s₁, t, t', hcheck, heval, -⟩ :=
    h.check_cases f
  · rw [hcheck, heval]
    constructor
    · rintro ⟨⟩
      exact ⟨rfl, hnot⟩
    · rintro ⟨⟨⟩, -⟩
      rfl
  · rw [hcheck, heval]
    constructor
    · exact nofun
    · rintro ⟨he, hnot⟩
      cases hrun : (Session.run t' s₁).1 with
      | ok r =>
        rw [hrun] at he
        cases he
      | error r =>
        rw [hrun] at he
        cases he
        exact absurd rfl (hnot r)

theorem Predicts.check_ok (h : c.Predicts s) {f : Form} {o : Outcome}
    (ho : (Session.eval f s).1 = .ok o) : (Checker.check f c).1 = .ok (o.line f) := by
  obtain ⟨e, c', s', -, heval, -⟩ | ⟨c₁, s₁, t, t', hcheck, heval, -, ht⟩ := h.check_cases f
  · rw [heval] at ho
    cases ho
  · rw [heval] at ho
    cases hrun : (Session.run t' s₁).1 with
    | error e =>
      rw [hrun] at ho
      cases ho
    | ok r =>
      rw [hrun] at ho
      cases ho
      obtain ⟨v, hv⟩ := Session.returns_runForm t' s₁ r (Session.runForm t' s₁).2
        (Prod.ext hrun rfl)
      rw [hcheck, c₁.declare_line f t v, hv, ← t.outcome_sketch, ht, t'.outcome_sketch]

end Checker

/-! ## Whole runs -/

/-- The session after some forms, of which those that fail count as well. -/
def Session.afterForms (s : Session) (fs : List Form) : Session :=
  fs.foldl (fun s f => (Session.eval f s).2) s

/-- The checker after some forms, of which those that it refuses count as well. -/
def Checker.afterForms (c : Checker) (fs : List Form) : Checker :=
  fs.foldl (fun c f => (Checker.check f c).2) c

/-- Whether no form fails when it runs, of some forms that are evaluated one after the other. -/
def Session.runsAll (s : Session) : List Form → Bool
  | [] => true
  | f :: fs =>
    (match (Session.eval f s).1 with
      | .error (.run _) => false
      | _ => true) && Session.runsAll (Session.eval f s).2 fs

/-- The visible and the declared type of the var of a name, if there is one. -/
def Env.types? (e : Env) (g : GlobalName) : Option (Option Ty × Option Ty) :=
  (e.var? g).map fun v => (v.visible, v.declared)

theorem Env.types?_sketch (e : Env) (g : GlobalName) : e.sketch.types? g = e.types? g := by
  unfold Env.types?
  rw [Env.var?_sketch]
  cases e.var? g with
  | none => rfl
  | some v => exact congrArg (fun t => some (t, v.declared)) v.visible_sketch

namespace Checker

theorem Predicts.afterForms {c : Checker} {s : Session} (h : c.Predicts s) {fs : List Form}
    (hruns : s.runsAll fs = true) : (c.afterForms fs).Predicts (s.afterForms fs) := by
  induction fs generalizing c s with
  | nil => exact h
  | cons f fs ih =>
    rw [Session.runsAll, Bool.and_eq_true] at hruns
    refine ih (h.check fun e he => ?_) hruns.2
    rw [he] at hruns
    exact absurd hruns.1 Bool.false_ne_true

/-- **The checker predicts the session.** Over all forms of which none fails when it runs, the two
come to the same namespace, the same tables and data types, and vars with the same visible and
declared types. The checker then refuses a form if and only if the session refuses it before it
runs, with the same error; and for a form that succeeds the checker gives the line of its
outcome. -/
theorem check_predicts_eval (limit : Nat) (fs : List Form)
    (hruns : (Session.start limit).runsAll fs = true) :
    let c := Checker.start.afterForms fs
    let s := (Session.start limit).afterForms fs
    c.ns = s.ns ∧ c.env.namespaces = s.env.namespaces ∧ c.env.dataTypes = s.env.dataTypes ∧
    (∀ g, c.env.types? g = s.env.types? g) ∧
    ∀ f : Form,
      (∀ e, (Checker.check f c).1 = .error e ↔
        (Session.eval f s).1 = .error e ∧ ∀ r, e ≠ .run r) ∧
      ∀ o, (Session.eval f s).1 = .ok o → (Checker.check f c).1 = .ok (o.line f) := by
  intro c s
  have h : c.Predicts s := (start_predicts limit).afterForms hruns
  have hnamespaces : c.env.sketch.namespaces = s.env.sketch.namespaces := by rw [h.env_eq]
  have hdataTypes : c.env.sketch.dataTypes = s.env.sketch.dataTypes := by rw [h.env_eq]
  refine ⟨h.ns_eq, hnamespaces, hdataTypes, fun g => ?_,
    fun f => ⟨h.check_error_iff f, fun o ho => h.check_ok ho⟩⟩
  calc c.env.types? g = c.env.sketch.types? g := (c.env.types?_sketch g).symm
    _ = s.env.sketch.types? g := by rw [h.env_eq]
    _ = s.env.types? g := s.env.types?_sketch g

/-- The forms `(:: x Int)`, `(def x true)`, `(def x 1)`, `(:: x Int)` and
`(defdata (Opt a) None (Some a))`, of which the second one is refused. -/
def declaresTwice : List Form :=
  let sym (s : String) : Form := .atom (.symbol s) .nowhere
  let list (fs : List Form) : Form := .seq .list fs .nowhere
  [list [sym "::", sym "x", sym "Int"], list [sym "def", sym "x", .atom (.bool true) .nowhere],
    list [sym "def", sym "x", .atom (.int 1) .nowhere], list [sym "::", sym "x", sym "Int"],
    list [sym "defdata", list [sym "Opt", sym "a"], sym "None", list [sym "Some", sym "a"]]]

/-- The form `(Some x)`. -/
def someX : Form :=
  .seq .list [.atom (.symbol "Some") .nowhere, .atom (.symbol "x") .nowhere] .nowhere

theorem runsAll_declaresTwice : (Session.start 100).runsAll declaresTwice = true := by cbv

theorem eval_someX :
    (Session.eval someX ((Session.start 100).afterForms declaresTwice)).1 =
      .ok (.value (.variant "user/Opt" "Some" [.int 1]) (.applied (.data "user/Opt") [.int])) := by
  cbv

theorem check_predicts_eval_someX :
    (Session.start 100).runsAll declaresTwice = true ∧
      (Checker.start.afterForms declaresTwice).env.types? ⟨userNs, "x"⟩ =
        ((Session.start 100).afterForms declaresTwice).env.types? ⟨userNs, "x"⟩ ∧
      (Checker.check someX (Checker.start.afterForms declaresTwice)).1 =
        .ok "(Some x) : (user/Opt Int)" := by
  obtain ⟨-, -, -, htypes, hforms⟩ := check_predicts_eval 100 declaresTwice runsAll_declaresTwice
  exact ⟨runsAll_declaresTwice, htypes _, ((hforms someX).2 _ eval_someX).trans (by cbv)⟩

end Checker

end TypedLisp
