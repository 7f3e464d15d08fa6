import TypedLisp.Proofs.Checking.Sessions
import TypedLisp.Proofs.Inference.Completeness

/-!
# Ascriptions

**A definition is accepted exactly if its declared type is an instance of the type of its body**
(`ascription_exact`). `Ty.subtypeOf` tests that only for types without common variables; the
variables of declared types are used up by the time a definition is analysed, in every session and
in every check without running (`Reached.declaredBelow`).
-/

namespace TypedLisp

/-! ## Declared types and the supply -/

namespace Env.DeclaredBelow

variable {env : Env} {k k' : TyVar}

theorem mono (h : env.DeclaredBelow k) (hk : k ≤ k') : env.DeclaredBelow k' :=
  fun g v t hv ht x hx => Nat.lt_of_lt_of_le (h g v t hv ht x hx) hk

theorem of_sketch (h : env.sketch.DeclaredBelow k) : env.DeclaredBelow k := fun g v t hv ht =>
  h g v.sketch t (by rw [var?_sketch, hv]; rfl) ht

theorem sketch (h : env.DeclaredBelow k) : env.sketch.DeclaredBelow k := fun g w t hw ht => by
  rw [var?_sketch, Option.map_eq_some_iff] at hw
  obtain ⟨v, hv, rfl⟩ := hw
  exact h g v t hv ht

theorem withVar (h : env.DeclaredBelow k) {v : Var}
    (hv : ∀ t, v.declared = some t → ∀ x ∈ t.vars, x < k) : (env.withVar v).DeclaredBelow k :=
  fun g w t hw ht => by
    rcases Table.get?_insert_eq_some hw with ⟨rfl, rfl⟩ | ⟨-, hw⟩
    · exact hv t ht
    · exact h g w t hw ht

theorem withDataType (h : env.DeclaredBelow k) (d : DataType) {vs : List Var}
    (hvs : ∀ v ∈ vs, v.declared = none) : (env.withDataType d vs).DeclaredBelow k :=
  fun g w t hw ht => by
    rcases Table.get?_foldl_insert_eq_some hw with ⟨v, hv, rfl, rfl⟩ | hw
    · cases (hvs v hv).symm.trans ht
    · exact h g w t hw ht

theorem enterSketch (h : env.DeclaredBelow k) {t : Expr Ty} (ht : Session.Formed k t) :
    (t.enterSketch env).DeclaredBelow k := by
  cases t with
  | define name declared body n => exact h.withVar ht.1
  | declare d n =>
    cases ht with
    | ns d => exact h
    | ascribe name hty => exact h.withVar fun t ht => Option.some.inj ht ▸ hty
    | host name ref hty => exact h.withVar fun t ht => Option.some.inj ht ▸ hty
    | @data d _ _ =>
      refine h.withDataType d fun v hv => ?_
      obtain ⟨c, -, rfl⟩ := List.mem_map.1 hv
      rfl
  | _ => exact h

end Env.DeclaredBelow

/-- The checks that can be reached: the forms have the maps that reading gives them. -/
inductive Checker.Reachable : Checker → Prop where
  | start : Reachable .start
  | check {c : Checker} (h : Reachable c) {f : Form} (hf : f.EvenMaps) :
      Reachable (Checker.check f c).2

/-- **A form that is checked leaves declared types with variables from the supply**, whether it is
accepted or refused. -/
theorem Checker.declaredBelow_check {c : Checker} (h : c.env.DeclaredBelow c.supply.tyVar)
    {f : Form} (hf : f.EvenMaps) :
    (Checker.check f c).2.env.DeclaredBelow (Checker.check f c).2.supply.tyVar := by
  unfold check
  cases ha : (analyse c.env c.ns f).run c.supply with
  | error e => exact h
  | ok r =>
    obtain ⟨e, supply⟩ := r
    dsimp only
    cases ht : (infer e).run supply.tyVar with
    | error err => exact h.mono (Session.tyVar_le_of_analyse hf ha)
    | ok r =>
      obtain ⟨t, k⟩ := r
      obtain ⟨hle, hformed⟩ := Session.formed_of_infer_of_lt h hf ha ht
      obtain ⟨henv, -, hsupply⟩ :=
        Checker.declare_sketch { c with supply := { supply with tyVar := k } } f t
      dsimp only
      rw [hsupply]
      refine .of_sketch ?_
      rw [henv]
      exact (h.mono hle).sketch.enterSketch hformed

theorem Checker.Reachable.declaredBelow {c : Checker} (h : c.Reachable) :
    c.env.DeclaredBelow c.supply.tyVar := by
  induction h with
  | start => exact (Session.Reachable.start 0).declaredBelow
  | check _ hf ih => exact declaredBelow_check ih hf

/-- The environments that forms are analysed in, with the supply that is left then: those of the
sessions and of the checks that can be reached. -/
inductive Reached : Env → Supply → Prop where
  | session {s : Session} (h : s.Reachable) : Reached s.env s.supply
  | checker {c : Checker} (h : c.Reachable) : Reached c.env c.supply

theorem Reached.declaredBelow {env : Env} {s : Supply} (h : Reached env s) :
    env.DeclaredBelow s.tyVar := by
  cases h with
  | session h => exact h.declaredBelow
  | checker h => exact h.declaredBelow

/-! ## The test of a definition -/

section Define

variable {name : GlobalName} {d : Ty} {body : Expr Unit} {n : Note Unit} {k k' : TyVar}
  {t : Expr Ty}

/-- A definition with a declared type is accepted if the test of the type of its body succeeds. -/
theorem infer_define_iff {r : Expr Ty × TyVar} :
    (infer (.define name (some d) body n)).run k = .ok r ↔ ∃ t,
      (infer body).run k = .ok (t, r.2) ∧ d.subtypeOf t.ann = true ∧
        r.1 = .define name (some d) t ⟨n.range, .effect⟩ := by
  obtain ⟨t, k'⟩ := r
  simp only [run_infer, run_define]
  constructor
  · rintro ⟨_, ⟨w, hw, hd, rfl⟩, rfl⟩
    exact ⟨w.expr, ⟨w, hw, rfl⟩, hd d rfl, rfl⟩
  · rintro ⟨_, ⟨w, hw, rfl⟩, hd, rfl⟩
    exact ⟨_, ⟨w, hw, fun d' hd' => Option.some.inj hd' ▸ hd, rfl⟩, rfl⟩

/-- If the test fails then the error has the declared type and the type that was found. -/
theorem infer_define_eq_error (ht : (infer body).run k = .ok (t, k'))
    (hd : d.subtypeOf t.ann = false) :
    (infer (.define name (some d) body n)).run k =
      .error (.ascription name d t.ann n.range) := by
  obtain ⟨u, hu, rfl⟩ := run_infer.1 ht
  rw [← inferIn_eq] at hu
  have hd' : d.subtypeOf u.ty = false := hd
  have hok : ∀ f : Typing × TyVar → Except TypeError (Expr Ty × TyVar),
      (Except.ok (u, k') >>= f) = f (u, k') := fun _ => rfl
  rw [infer, inferIn, bind_assoc, StateT.run_bind, hu, hok]
  simp only [hd', Bool.false_eq_true, if_false]
  rfl

end Define

/-- In every definition that is analysed, the variables of the declared type are older than those of
the type of the body. -/
theorem Reached.disjoint {env : Env} {s s' : Supply} (h : Reached env s) {ns : String} {f : Form}
    (hf : f.EvenMaps) {name : GlobalName} {d : Ty} {body : Expr Unit} {n : Note Unit}
    (ha : (analyse env ns f).run s = .ok (.define name (some d) body n, s')) {t : Expr Ty}
    {k : TyVar} (ht : (infer body).run s'.tyVar = .ok (t, k)) : ∀ v ∈ d.vars, v ∉ t.ann.vars := by
  intro v hv hvt
  obtain ⟨name', body', n', he, hbody⟩ | ⟨decl, m, he, -⟩ | he := analyse_cases hf ha
  · obtain ⟨rfl, hdeclared, -, -⟩ := Expr.define.inj he
    obtain ⟨w, hw, hwd⟩ := Option.bind_eq_some_iff.1 hdeclared.symm
    have hlt : v < s'.tyVar := hbody.takes.tyVar_eq ▸ h.declaredBelow _ w d hw hwd v hv
    obtain ⟨u, hu, rfl⟩ := run_infer.1 ht
    have hge := ((inferInBy_ranges body hu).tys _ u.expr.ann_mem_anns v hvt).1
    exact Nat.not_lt.2 hge hlt
  · cases he
  · exact he.isScoped

/-- **Ascription is the test for instances.** The test is exact on types without common variables.
In every definition that is analysed in a session or in a check, the declared type and the type that
is inferred for the body have no common variable. So the definition is accepted exactly if its body
has a type of which the declared one is an instance, and otherwise the two types are reported. -/
theorem ascription_exact :
    (∀ d t : Ty, (∀ v ∈ d.vars, v ∉ t.vars) →
      (d.subtypeOf t = true ↔ ∃ s : Subst, t.apply s = d)) ∧
    ∀ (env : Env) (s s' : Supply) (ns : String) (f : Form) (name : GlobalName) (d : Ty)
      (body : Expr Unit) (n : Note Unit), Reached env s → f.EvenMaps →
      (analyse env ns f).run s = .ok (.define name (some d) body n, s') →
      ((∃ r, (infer (.define name (some d) body n)).run s'.tyVar = .ok r) ↔
        ∃ t k, (infer body).run s'.tyVar = .ok (t, k) ∧ ∃ u : Subst, t.ann.apply u = d) ∧
      ∀ t k, (infer body).run s'.tyVar = .ok (t, k) → (∀ v ∈ d.vars, v ∉ t.ann.vars) ∧
        ((¬ ∃ u : Subst, t.ann.apply u = d) →
          (infer (.define name (some d) body n)).run s'.tyVar =
            .error (.ascription name d t.ann n.range)) := by
  refine ⟨fun d t => Ty.subtypeOf_iff, fun env s s' ns f name d body n h hf ha => ?_⟩
  have htest : ∀ t k, (infer body).run s'.tyVar = .ok (t, k) →
      (d.subtypeOf t.ann = true ↔ ∃ u : Subst, t.ann.apply u = d) := fun t k ht =>
    Ty.subtypeOf_iff (h.disjoint hf ha ht)
  refine ⟨⟨?_, ?_⟩, fun t k ht => ⟨h.disjoint hf ha ht, fun hnot => ?_⟩⟩
  · rintro ⟨⟨r, k⟩, hr⟩
    obtain ⟨t, ht, hd, -⟩ := infer_define_iff.1 hr
    exact ⟨t, k, ht, (htest t k ht).1 hd⟩
  · rintro ⟨t, k, ht, hinst⟩
    exact ⟨(_, k), infer_define_iff.2 ⟨t, ht, (htest t k ht).2 hinst, rfl⟩⟩
  · exact infer_define_eq_error ht (Bool.eq_false_iff.2 fun hd => hnot ((htest t k ht).1 hd))

/-- The form `(:: id (Fn a b))`. -/
def declareChange : Form :=
  let sym (s : String) : Form := .atom (.symbol s) .nowhere
  let list (fs : List Form) : Form := .seq .list fs .nowhere
  list [sym "::", sym "id", list [sym "Fn", sym "a", sym "b"]]

/-- What is reached by `declareChange`. -/
def changeDeclared : Checker := (Checker.check declareChange .start).2

/-- What analysis makes of the body of `defineIdentity`. -/
def identityBody : Expr Unit :=
  .fn [⟨"x", 1⟩] (.localVar ⟨"x", 1⟩ ⟨.nowhere, ()⟩) ⟨.nowhere, ()⟩

theorem reachable_changeDeclared : changeDeclared.Reachable :=
  .check .start (by simp [declareChange, Form.EvenMaps, Form.EvenMapsAll])

theorem analyse_changeDeclared :
    (analyse changeDeclared.env changeDeclared.ns defineIdentity).run changeDeclared.supply =
      .ok (.define ⟨userNs, "id"⟩ (some (.fn [.var 11] (.var 12))) identityBody ⟨.nowhere, ()⟩,
        ⟨13, 2⟩) :=
  rfl

/-- The identity is refused as a function from `a` to `b`. -/
theorem ascription_exact_identity :
    Reached changeDeclared.env changeDeclared.supply ∧
    (infer (.define ⟨userNs, "id"⟩ (some (.fn [.var 11] (.var 12))) identityBody
        ⟨.nowhere, ()⟩)).run 13 =
      .error (.ascription ⟨userNs, "id"⟩ (.fn [.var 11] (.var 12)) (.fn [.var 13] (.var 13))
        .nowhere) := by
  have hreached : Reached changeDeclared.env changeDeclared.supply :=
    .checker reachable_changeDeclared
  have hbody : (infer identityBody).run 13 =
      .ok (.fn [⟨"x", 1⟩] (.localVar ⟨"x", 1⟩ ⟨.nowhere, .var 13⟩)
        ⟨.nowhere, .fn [.var 13] (.var 13)⟩, 14) := rfl
  obtain ⟨-, hdefine⟩ := ascription_exact
  obtain ⟨-, hrefused⟩ := hdefine _ _ _ _ _ _ _ _ _ hreached
    (by simp [defineIdentity, Form.EvenMaps, Form.EvenMapsAll]) analyse_changeDeclared
  refine ⟨hreached, (hrefused _ _ hbody).2 ?_⟩
  rintro ⟨u, hu⟩
  -- one type would be put in the place of the variable as parameter and as result
  have hfn : Ty.fn [u.toFun 13] (u.toFun 13) = .fn [.var 11] (.var 12) := by
    rw [← hu, Ty.apply_eq_bind]
    rfl
  obtain ⟨hparam, hresult⟩ := Ty.fn.inj hfn
  cases hresult.symm.trans (List.cons.inj hparam).1

end TypedLisp
