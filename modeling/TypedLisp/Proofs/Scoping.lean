import TypedLisp.Analysis.TopLevel
import TypedLisp.Form.Reader
import TypedLisp.Proofs.Expression
import TypedLisp.Proofs.Monads

/-!
# Analysed forms are scoped

Analysis makes a new local at every binding, so an expression that comes from a form is scoped: it
refers only to locals that are bound around it, and what it binds is not yet bound. The vars it
refers to are vars of the environment. The maps of forms have keys and values in turn
(`Form.EvenMaps`), as reading sees to, and so do those of expressions.
-/

namespace TypedLisp

variable {fs : List Form} {c inner : Scope} {s s' s₁ : Supply} {xs : List Local} {env : Env}
  {ns sym source : String} {r : Range} {e : Expr Unit} {f : Form} {name : String}

mutual

/-- Whether the items of all maps in a form come in pairs. -/
def Form.EvenMaps : Form → Prop
  | .atom _ _ => True
  | .seq b items _ => (b = .map → items.length % 2 = 0) ∧ Form.EvenMapsAll items

/-- The same for several forms. -/
def Form.EvenMapsAll : List Form → Prop
  | [] => True
  | f :: fs => f.EvenMaps ∧ Form.EvenMapsAll fs

end

theorem Form.evenMapsAll_iff : Form.EvenMapsAll fs ↔ ∀ f ∈ fs, f.EvenMaps := by
  induction fs with
  | nil => simp [EvenMapsAll]
  | cons f fs ih => simp [EvenMapsAll, ih]

/-! ## New locals -/

/-- Whether the locals in scope have numbers that are used up. -/
def Scope.Below (c : Scope) (s : Supply) : Prop := ∀ x ∈ c.locals, x.id < s.localId

/-- What analysis of expressions takes from a supply: locals, but no type variables. -/
structure Supply.TakesLocals (s s' : Supply) : Prop where
  localId_le : s.localId ≤ s'.localId
  tyVar_eq : s'.tyVar = s.tyVar

namespace Supply.TakesLocals

theorem refl (s : Supply) : s.TakesLocals s := ⟨Nat.le_refl _, rfl⟩

theorem trans {s s₁ s' : Supply} (h : s.TakesLocals s₁) (h' : s₁.TakesLocals s') :
    s.TakesLocals s' :=
  ⟨Nat.le_trans h.localId_le h'.localId_le, h'.tyVar_eq.trans h.tyVar_eq⟩

theorem one (s : Supply) : s.TakesLocals { s with localId := s.localId + 1 } :=
  ⟨Nat.le_succ _, rfl⟩

end Supply.TakesLocals

theorem Scope.Below.mono (h : c.Below s) (hs : s.TakesLocals s') :
    c.Below s' := fun x hx => Nat.lt_of_lt_of_le (h x hx) hs.localId_le

theorem run_newLocal {x : Local} :
    (newLocal name).run s = .ok (x, s') ↔
      x = ⟨name, s.localId⟩ ∧ s' = { s with localId := s.localId + 1 } := by
  simp only [newLocal, run_bind_eq_ok, run_get_eq_ok, run_set_eq_ok, run_pure_eq_ok]
  constructor
  · rintro ⟨_, _, ⟨rfl, rfl⟩, _, _, rfl, rfl, rfl⟩
    exact ⟨rfl, rfl⟩
  · rintro ⟨rfl, rfl⟩
    exact ⟨s, s, ⟨rfl, rfl⟩, ⟨⟩, _, rfl, rfl, rfl⟩

theorem Scope.Below.not_mem (h : c.Below s) (name : String) :
    (⟨name, s.localId⟩ : Local) ∉ c.locals := fun hx => Nat.lt_irrefl _ (h _ hx)

theorem Scope.Below.bind (h : c.Below s) (name : String) :
    (c.bind ⟨name, s.localId⟩).Below { s with localId := s.localId + 1 } := by
  intro x hx
  rcases List.mem_cons.1 hx with rfl | hx
  · exact Nat.lt_succ_self _
  · exact Nat.lt_succ_of_lt (h x hx)

/-- The scope after new bindings: the same environment, and the locals `xs` with those before. -/
structure Scope.Inner (c inner : Scope) (s s' : Supply) (xs : List Local) : Prop where
  takes : s.TakesLocals s'
  below : inner.Below s'
  env_eq : inner.env = c.env
  locals_eq : inner.locals = xs.reverse ++ c.locals

theorem Scope.Inner.nil (h : c.Below s) : c.Inner c s s [] :=
  ⟨.refl s, h, rfl, rfl⟩

theorem Scope.Inner.cons
    (hs : s.TakesLocals s₁) (h : (c.bind ⟨name, s₁.localId⟩).Inner inner
      { s₁ with localId := s₁.localId + 1 } s' xs) :
    c.Inner inner s s' (⟨name, s₁.localId⟩ :: xs) :=
  ⟨(hs.trans (.one s₁)).trans h.takes, h.below, h.env_eq,
    h.locals_eq.trans (by simp [Scope.bind])⟩

theorem bindParams_scoped (h : (bindParams c fs).run s = .ok ((xs, inner), s')) (hc : c.Below s) :
    c.Inner inner s s' xs ∧ xs.Nodup ∧ ∀ x ∈ xs, x ∉ c.locals := by
  induction fs generalizing c s xs with
  | nil =>
    rw [bindParams, run_pure_eq_ok] at h
    obtain ⟨⟨⟩, rfl⟩ := h
    exact ⟨.nil hc, by simp, by simp⟩
  | cons f fs ih =>
    simp only [bindParams, run_bind_eq_ok, run_pure_eq_ok, run_liftM_eq_ok, run_newLocal] at h
    obtain ⟨name, _, ⟨-, rfl⟩, _, _, ⟨rfl, rfl⟩, ⟨ys, _⟩, _, hys, ⟨⟩, rfl⟩ := h
    obtain ⟨hinner, hnodup, hnew⟩ := ih hys (hc.bind name)
    refine ⟨.cons (.refl _) hinner, List.nodup_cons.2 ⟨fun hx => ?_, hnodup⟩,
      List.forall_mem_cons.2 ⟨hc.not_mem name, fun x hx hxc => ?_⟩⟩
    · exact hnew _ hx (by simp [Scope.bind])
    · exact hnew x hx (List.mem_cons_of_mem _ hxc)

/-! ## Forms that denote expressions -/

/-- Whether an environment has a var. -/
def Env.HasVar (env : Env) (v : Var) : Prop := ∃ g, env.var? g = some v

theorem Env.hasVar_of_resolveVar {v : Var} (h : env.resolveVar ns sym = some v) : env.HasVar v := by
  unfold resolveVar resolveIn at h
  split at h
  · rename_i w hw
    obtain rfl := Option.some.inj h
    exact ⟨_, hw⟩
  · split at h
    · exact ⟨_, h⟩
    · exact ⟨_, h⟩

theorem Env.hasVar_of_resolveQualifiedVar {qualifier : String} {v : Var}
    (h : env.resolveQualifiedVar ns qualifier sym = some v) : env.HasVar v := by
  obtain ⟨target, -, hv⟩ := Option.bind_eq_some_iff.1 h
  exact ⟨_, hv⟩

/-- What analysis makes of a form where an expression is expected. -/
structure AnalysedIn (c : Scope) (s s' : Supply) (e : Expr Unit) : Prop where
  takes : s.TakesLocals s'
  isScoped : e.Scoped c.locals
  hasVars : ∀ v ∈ e.vars, c.env.HasVar v

/-- The same for several forms. -/
structure AnalysedAll (c : Scope) (s s' : Supply) (es : List (Expr Unit)) : Prop where
  takes : s.TakesLocals s'
  isScoped : Expr.ScopedAll c.locals es
  hasVars : ∀ v ∈ Expr.varsAll es, c.env.HasVar v

theorem atomExpr_scoped {a : Atom} (s : Supply) (h : atomExpr c a r = .ok e) :
    AnalysedIn c s s e := by
  have hglobal : ∀ v, c.env.HasVar v → AnalysedIn c s s (.globalVar v (plainNote r)) :=
    fun v hv => ⟨.refl s, trivial, by simpa [Expr.vars] using hv⟩
  have hnone : ∀ v ∈ ([] : List Var), c.env.HasVar v := by simp
  unfold atomExpr at h
  split at h
  · cases h; exact ⟨.refl s, trivial, hnone⟩
  · cases h; exact ⟨.refl s, trivial, hnone⟩
  · cases h; exact ⟨.refl s, trivial, hnone⟩
  · split at h
    · rename_i x hx
      cases h
      exact ⟨.refl s, List.mem_of_find?_eq_some hx, hnone⟩
    · split at h
      · rename_i hv
        cases h
        exact hglobal _ (Env.hasVar_of_resolveVar hv)
      · cases h
  · split at h
    · rename_i hv
      cases h
      exact hglobal _ (Env.hasVar_of_resolveQualifiedVar hv)
    · cases h

theorem mkCall_scoped {callee : Expr Unit} {args : List (Expr Unit)}
    (hargs : AnalysedAll c s s₁ args) (hcallee : AnalysedIn c s₁ s' callee) :
    AnalysedIn c s s' (Expr.mkCall callee args r) := by
  have htakes := hargs.takes.trans hcallee.takes
  have hvars : ∀ v ∈ callee.vars ++ Expr.varsAll args, c.env.HasVar v :=
    List.forall_mem_append.2 ⟨hcallee.hasVars, hargs.hasVars⟩
  unfold Expr.mkCall
  split
  · exact ⟨htakes, hargs.isScoped, hvars⟩
  · exact ⟨htakes, ⟨hcallee.isScoped, hargs.isScoped⟩, hvars⟩

/-! ### Inversion -/

theorem symbol?_of_bindingName (h : bindingName f = .ok name) :
    f.symbol? = some name := by
  unfold bindingName at h
  split at h
  · split at h
    · cases h
    · cases h
      rfl
  · cases h

theorem ifForm_cases (h : (ifForm c r fs).run s = .ok (e, s')) :
    ∃ test a b et ea eb, fs = [test, a, b] ∧ e = .ite et ea eb (plainNote r) ∧
      (exprForms c fs).run s = .ok ([et, ea, eb], s') := by
  unfold ifForm at h
  split at h
  · simp only [run_bind_eq_ok, run_pure_eq_ok] at h
    obtain ⟨et, s₁, ht, ea, s₂, ha, eb, _, hb, rfl, rfl⟩ := h
    refine ⟨_, _, _, et, ea, eb, rfl, rfl, ?_⟩
    simp only [exprForms, run_bind_eq_ok, run_pure_eq_ok]
    exact ⟨et, s₁, ht, _, _, ⟨ea, s₂, ha, _, _, ⟨eb, _, hb, _, _, ⟨rfl, rfl⟩, rfl, rfl⟩, rfl, rfl⟩,
      rfl, rfl⟩
  · exact absurd h run_throw_ne_ok

theorem fnForm_cases (h : (fnForm c r fs).run s = .ok (e, s')) :
    ∃ b params pr body, b ∈ [Bracket.list, .vector] ∧ fs = [.seq b params pr, body] ∧
      (fnParts c params body r).run s = .ok (e, s') := by
  unfold fnForm at h
  split at h
  · exact ⟨.list, _, _, _, by decide, rfl, h⟩
  · exact ⟨.vector, _, _, _, by decide, rfl, h⟩
  · exact absurd h run_throw_ne_ok
  · exact absurd h run_throw_ne_ok

theorem letForm_cases (h : (letForm c r fs).run s = .ok (e, s')) :
    ∃ items vr body bs inner s₁ b, fs = [.seq .vector items vr, body] ∧ items.length % 2 = 0 ∧
      e = .letIn bs b (plainNote r) ∧ (bindingForms c items).run s = .ok ((bs, inner), s₁) ∧
      (exprForm inner body).run s₁ = .ok (b, s') := by
  unfold letForm at h
  split at h
  · split at h
    · exact absurd h run_throw_ne_ok
    · rename_i heven
      simp only [run_bind_eq_ok, run_pure_eq_ok] at h
      obtain ⟨⟨bs, inner⟩, s₁, hbs, b, _, hb, rfl, rfl⟩ := h
      exact ⟨_, _, _, bs, inner, s₁, b, rfl, by omega, rfl, hbs, hb⟩
  · exact absurd h run_throw_ne_ok
  · exact absurd h run_throw_ne_ok

theorem defForm_cases (h : (defForm c r fs).run s = .ok (e, s')) :
    ∃ target body name b, fs = [target, body] ∧
      e = .define ⟨c.ns, name⟩ ((c.env.var? ⟨c.ns, name⟩).bind (·.declared)) b (plainNote r) ∧
      ((∃ tr, target = .atom (.symbol name) tr ∧ (exprForm c body).run s = .ok (b, s')) ∨
        ∃ nameForm params tr, target = .seq .list (nameForm :: params) tr ∧
          nameForm.symbol? = some name ∧ (fnParts c params body r).run s = .ok (b, s')) := by
  unfold defForm at h
  split at h
  · rename_i target body
    split at h
    · simp only [run_bind_eq_ok, run_pure_eq_ok] at h
      obtain ⟨b, _, hb, _, _, ⟨rfl, rfl⟩, rfl, rfl⟩ := h
      exact ⟨_, body, _, b, rfl, rfl, .inl ⟨_, rfl, hb⟩⟩
    · exact absurd h run_throw_ne_ok
    · simp only [run_bind_eq_ok, run_pure_eq_ok, run_liftM_eq_ok] at h
      obtain ⟨name, _, ⟨hname, rfl⟩, b, _, hb, _, _, ⟨rfl, rfl⟩, rfl, rfl⟩ := h
      exact ⟨_, body, name, b, rfl, rfl, .inr ⟨_, _, _, rfl, symbol?_of_bindingName hname, hb⟩⟩
    · exact absurd h run_throw_ne_ok
  · exact absurd h run_throw_ne_ok

theorem fnParts_scoped {ps : List Form} {body : Form} (hc : c.Below s)
    (h : (fnParts c ps body r).run s = .ok (e, s'))
    (hbody : ∀ {inner s₁ b}, inner.Below s₁ → (exprForm inner body).run s₁ = .ok (b, s') →
      AnalysedIn inner s₁ s' b) : AnalysedIn c s s' e := by
  simp only [fnParts, run_bind_eq_ok, run_pure_eq_ok] at h
  obtain ⟨⟨xs, inner⟩, s₁, hxs, b, _, hb, rfl, rfl⟩ := h
  obtain ⟨hinner, hnodup, hnew⟩ := bindParams_scoped hxs hc
  obtain ⟨htakes, hscoped, hvars⟩ := hbody hinner.below hb
  refine ⟨hinner.takes.trans htakes, ⟨hnodup, hnew, hscoped.widen (fun x => ?_) fun x _ => ?_⟩, ?_⟩
  · simp [hinner.locals_eq]
  · simp [hinner.locals_eq]
  · rwa [hinner.env_eq] at hvars

mutual

theorem exprForm_scoped {c : Scope} {s s' : Supply} {e : Expr Unit} (f : Form) (hf : f.EvenMaps)
    (hc : c.Below s) (h : (exprForm c f).run s = .ok (e, s')) : AnalysedIn c s s' e := by
  match f with
  | .atom a r =>
    rw [exprForm, run_liftM_eq_ok] at h
    obtain ⟨ha, rfl⟩ := h
    exact atomExpr_scoped _ ha
  | .seq .vector items r | .seq .set items r =>
    simp only [exprForm, run_bind_eq_ok, run_pure_eq_ok] at h
    obtain ⟨es, _, hes, rfl, rfl⟩ := h
    obtain ⟨-, htakes, hscoped, hvars⟩ := exprForms_scoped items hf.2 hc hes
    exact ⟨htakes, ⟨hscoped, nofun⟩, hvars⟩
  | .seq .map items r =>
    simp only [exprForm, run_bind_eq_ok, run_pure_eq_ok] at h
    obtain ⟨es, _, hes, rfl, rfl⟩ := h
    obtain ⟨hlen, htakes, hscoped, hvars⟩ := exprForms_scoped items hf.2 hc hes
    exact ⟨htakes, ⟨hscoped, fun _ => by rw [hlen]; exact hf.1 rfl⟩, hvars⟩
  | .seq .list [] r =>
    rw [exprForm] at h
    exact absurd h run_throw_ne_ok
  | .seq .list (head :: args) r =>
    obtain ⟨hhead, hargs⟩ := hf.2
    unfold exprForm at h
    split at h
    · obtain ⟨items, vr, body, bs, inner, s₁, b, rfl, -, rfl, hbs, hb⟩ := letForm_cases h
      obtain ⟨hinner, hscoped, hvars⟩ := bindingForms_scoped items hargs.1.2 hc hbs
      obtain ⟨htakes, hbody, hvars'⟩ := exprForm_scoped body hargs.2.1 hinner.below hb
      refine ⟨hinner.takes.trans htakes, ⟨hscoped, hinner.locals_eq ▸ hbody⟩,
        List.forall_mem_append.2 ⟨hvars, ?_⟩⟩
      rwa [hinner.env_eq] at hvars'
    · obtain ⟨test, a, b, et, ea, eb, rfl, rfl, hes⟩ := ifForm_cases h
      obtain ⟨-, htakes, ⟨hst, hsa, hsb, -⟩, hvars⟩ := exprForms_scoped [test, a, b] hargs hc hes
      exact ⟨htakes, ⟨hst, hsa, hsb⟩, by simpa [Expr.vars, Expr.varsAll] using hvars⟩
    · obtain ⟨_, params, pr, body, -, rfl, hfn⟩ := fnForm_cases h
      exact fnParts_scoped hc hfn fun hi hb => exprForm_scoped body hargs.2.1 hi hb
    · split at h
      · exact absurd h run_throw_ne_ok
      · simp only [run_bind_eq_ok, run_pure_eq_ok] at h
        obtain ⟨es, s₁, hes, callee, _, hcallee, rfl, rfl⟩ := h
        have hall := (exprForms_scoped args hargs hc hes).2
        exact mkCall_scoped hall (exprForm_scoped head hhead (hc.mono hall.takes) hcallee)
termination_by sizeOf f
decreasing_by all_goals (subst_vars; simp_wf <;> omega)

theorem exprForms_scoped {c : Scope} {s s' : Supply} {es : List (Expr Unit)} (fs : List Form)
    (hfs : Form.EvenMapsAll fs) (hc : c.Below s) (h : (exprForms c fs).run s = .ok (es, s')) :
    es.length = fs.length ∧ AnalysedAll c s s' es := by
  match fs with
  | [] =>
    rw [exprForms, run_pure_eq_ok] at h
    obtain ⟨rfl, rfl⟩ := h
    exact ⟨rfl, .refl s, trivial, nofun⟩
  | f :: fs =>
    simp only [exprForms, run_bind_eq_ok, run_pure_eq_ok] at h
    obtain ⟨e, s₁, he, es', _, hes, rfl, rfl⟩ := h
    obtain ⟨htakes, hscoped, hvars⟩ := exprForm_scoped f hfs.1 hc he
    obtain ⟨hlen, htakes', hall, hvars'⟩ := exprForms_scoped fs hfs.2 (hc.mono htakes) hes
    exact ⟨by simp [hlen], htakes.trans htakes', ⟨hscoped, hall⟩,
      List.forall_mem_append.2 ⟨hvars, hvars'⟩⟩
termination_by sizeOf fs
decreasing_by all_goals (subst_vars; simp_wf <;> omega)

theorem bindingForms_scoped {c inner : Scope} {s s' : Supply} {bs : List (Local × Expr Unit)}
    (fs : List Form) (hfs : Form.EvenMapsAll fs) (hc : c.Below s)
    (h : (bindingForms c fs).run s = .ok ((bs, inner), s')) :
    c.Inner inner s s' (bs.map Prod.fst) ∧ Expr.ScopedLet c.locals bs ∧
      ∀ v ∈ Expr.varsLet bs, c.env.HasVar v := by
  match fs with
  | [] =>
    rw [bindingForms, run_pure_eq_ok] at h
    · obtain ⟨⟨⟩, rfl⟩ := h
      exact ⟨.nil hc, trivial, nofun⟩
    · exact nofun
  | [f] =>
    rw [bindingForms, run_pure_eq_ok] at h
    · obtain ⟨⟨⟩, rfl⟩ := h
      exact ⟨.nil hc, trivial, nofun⟩
    · exact nofun
  | target :: value :: rest =>
    simp only [bindingForms, run_bind_eq_ok, run_pure_eq_ok, run_liftM_eq_ok, run_newLocal] at h
    obtain ⟨name, _, ⟨-, rfl⟩, e, s₁, he, _, _, ⟨rfl, rfl⟩, ⟨bs', _⟩, _, hbs, ⟨⟩, rfl⟩ := h
    obtain ⟨htakes, hscoped, hvars⟩ := exprForm_scoped value hfs.2.1 hc he
    have hc₁ := hc.mono htakes
    obtain ⟨hinner, hlet, hvars'⟩ := bindingForms_scoped rest hfs.2.2 (hc₁.bind name) hbs
    exact ⟨.cons htakes hinner, ⟨hc₁.not_mem name, hscoped, hlet⟩,
      List.forall_mem_append.2 ⟨hvars, hvars'⟩⟩
termination_by sizeOf fs
decreasing_by all_goals (subst_vars; simp_wf <;> omega)

end

/-! ## Forms at top level -/

theorem Scope.below_nil (s : Supply) :
    ({ env, ns } : Scope).Below s := nofun

theorem defForm_scoped (hfs : Form.EvenMapsAll fs)
    (h : (defForm { env, ns } r fs).run s = .ok (e, s')) :
    ∃ name body, e = .define name ((env.var? name).bind (·.declared)) body (plainNote r) ∧
      AnalysedIn { env, ns } s s' body := by
  obtain ⟨target, body, name, b, rfl, rfl, ⟨_, -, hb⟩ | ⟨_, params, _, -, -, hb⟩⟩ :=
    defForm_cases h
  · exact ⟨_, b, rfl, exprForm_scoped body hfs.2.1 (Scope.below_nil s) hb⟩
  · exact ⟨_, b, rfl, fnParts_scoped (Scope.below_nil s) hb fun hi hb =>
      exprForm_scoped body hfs.2.1 hi hb⟩

/-- How a form at top level comes to be a declaration. -/
inductive Declares (env : Env) (ns : String) (s s' : Supply) : Declaration → Prop where
  | ascribe {r : Range} {args : List Form} {d : Declaration}
      (h : (ascribeForm { env, ns } r args).run s = .ok (d, s')) : Declares env ns s s' d
  | data {r : Range} {args : List Form} {d : Declaration}
      (h : (dataForm { env, ns } r args).run s = .ok (d, s')) : Declares env ns s s' d
  | host {r : Range} {args : List Form} {d : Declaration}
      (h : (hostForm { env, ns } r args).run s = .ok (d, s')) : Declares env ns s s' d
  | ns {r : Range} {args : List Form} {d : NsDecl} (h : nsForm env args r = .ok d)
      (hs : s' = s) : Declares env ns s s' (.ns d)

/-- What analysis makes of a form at top level: a definition, a declaration, or an expression on its
own. -/
theorem analyse_cases (hf : f.EvenMaps) (h : (analyse env ns f).run s = .ok (e, s')) :
    (∃ name body n, e = .define name ((env.var? name).bind (·.declared)) body n ∧
      AnalysedIn { env, ns } s s' body) ∨
    (∃ d n, e = .declare d n ∧ Declares env ns s s' d) ∨
    AnalysedIn { env, ns } s s' e := by
  unfold analyse at h
  split at h
  · rename_i head args r
    split at h
    · obtain ⟨name, body, rfl, hbody⟩ := defForm_scoped hf.2.2 h
      exact .inl ⟨name, body, _, rfl, hbody⟩
    · simp only [run_bind_eq_ok, run_pure_eq_ok] at h
      obtain ⟨d, _, hd, rfl, rfl⟩ := h
      exact .inr (.inl ⟨d, _, rfl, .ascribe hd⟩)
    · simp only [run_bind_eq_ok, run_pure_eq_ok] at h
      obtain ⟨d, _, hd, rfl, rfl⟩ := h
      exact .inr (.inl ⟨d, _, rfl, .data hd⟩)
    · simp only [run_bind_eq_ok, run_pure_eq_ok] at h
      obtain ⟨d, _, hd, rfl, rfl⟩ := h
      exact .inr (.inl ⟨d, _, rfl, .host hd⟩)
    · simp only [run_bind_eq_ok, run_pure_eq_ok, run_liftM_eq_ok] at h
      obtain ⟨d, _, ⟨hd, rfl⟩, rfl, rfl⟩ := h
      exact .inr (.inl ⟨.ns d, _, rfl, .ns hd rfl⟩)
    · exact .inr (.inr (exprForm_scoped _ hf (Scope.below_nil s) h))
  · exact .inr (.inr (exprForm_scoped _ hf (Scope.below_nil s) h))

/-! ## Forms that are read -/

namespace Reading

/-- Whether the maps of all forms of a reading in progress have keys and values in turn. -/
structure EvenMaps (r : Reading) : Prop where
  forms : ∀ f ∈ r.forms, f.EvenMaps
  items : ∀ o ∈ r.openForms, ∀ f ∈ o.items, f.EvenMaps

variable {text : List Char} {r : Reading}

theorem EvenMaps.add (h : r.EvenMaps) {f : Form} (hf : f.EvenMaps) : (r.add f).EvenMaps := by
  unfold Reading.add
  split
  · exact ⟨List.forall_mem_cons.2 ⟨hf, h.forms⟩, h.items⟩
  · rename_i o os ho
    have hitems := h.items
    rw [ho] at hitems
    obtain ⟨ho, hos⟩ := List.forall_mem_cons.1 hitems
    exact ⟨h.forms, List.forall_mem_cons.2 ⟨List.forall_mem_cons.2 ⟨hf, ho⟩, hos⟩⟩

theorem EvenMaps.step (h : r.EvenMaps) (t : Token × Span) : (r.step text t).EvenMaps := by
  obtain ⟨t, s⟩ := t
  cases t with
  | opening b => exact ⟨h.forms, List.forall_mem_cons.2 ⟨by simp, h.items⟩⟩
  | closing c =>
    rw [Reading.step]
    split
    · exact ⟨h.forms, h.items⟩
    · rename_i o os ho
      have hitems := h.items
      rw [ho] at hitems
      obtain ⟨hoi, hos⟩ := List.forall_mem_cons.1 hitems
      split
      · unfold Reading.close
        split
        · exact ⟨h.forms, hos⟩
        · rename_i hodd
          have hrest : EvenMaps { r with openForms := os } := ⟨h.forms, hos⟩
          refine hrest.add (And.intro (fun hb => ?_) ?_)
          · rw [List.length_reverse]
            by_contra hne
            exact hodd ⟨hb, hne⟩
          · exact Form.evenMapsAll_iff.2 fun f hf => hoi f (List.mem_reverse.1 hf)
      · exact ⟨h.forms, h.items⟩
  | _ => exact h.add trivial

theorem forms_finish (r : Reading) : (r.finish text).forms = r.forms := by
  have key : ∀ (os : List OpenForm) (r : Reading),
      (os.foldl (fun r o => r.report text (.unclosed o.bracket) o.span) r).forms = r.forms := by
    intro os
    induction os with
    | nil => exact fun _ => rfl
    | cons o os ih => exact fun r => ih _
  exact key _ r

end Reading

/-- **Forms that are read have maps with keys and values in turn.** -/
theorem read_evenMaps (h : f ∈ (read source).1) : f.EvenMaps := by
  have key : ∀ (ts : List (Token × Span)) (r : Reading), r.EvenMaps →
      (ts.foldl (Reading.step source.toList) r).EvenMaps := by
    intro ts
    induction ts with
    | nil => exact fun _ h => h
    | cons t ts ih => exact fun r hr => ih _ (hr.step t)
  have hr := key (tokens source) {} ⟨by simp, by simp⟩
  rw [read, Reading.forms_finish] at h
  exact hr.forms f (List.mem_reverse.1 h)

theorem readAll_evenMaps {forms : List Form} (h : readAll source = .ok forms) (hf : f ∈ forms) :
    f.EvenMaps := by
  unfold readAll at h
  split at h
  · rename_i hread
    cases h
    exact read_evenMaps (by rwa [hread])
  · cases h

end TypedLisp
