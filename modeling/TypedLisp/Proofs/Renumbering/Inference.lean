import TypedLisp.Proofs.Inference.Steps
import TypedLisp.Proofs.Renumbering.Expressions
import TypedLisp.Proofs.Renumbering.Runs

/-!
# Inference under other numbers and in other places

Inference of a recast expression, started at a new variable with its new number, follows inference
of the expression: it gives the recast typing, or it fails with the renumbered error at the other
place (`Recasting.follows_infer`).
-/

namespace TypedLisp

/-- The error with other numbers for its variables. -/
def TypeError.rename (f : TyVar → TyVar) : TypeError → TypeError
  | .unification cause r => .unification (cause.rename f) r
  | .ascription name declared inferred r =>
    .ascription name (declared.rename f) (inferred.rename f) r

/-- The error with its range moved. -/
def TypeError.relocate (g : Range → Range) : TypeError → TypeError
  | .unification cause r => .unification cause (g r)
  | .ascription name declared inferred r => .ascription name declared inferred (g r)

@[simp] theorem TypeError.relocate_id (e : TypeError) : e.relocate id = e := by
  cases e <;> rfl

theorem TypeError.rename_id (e : TypeError) : e.rename Renumbering.id.tyVar = e := by
  have hty : ∀ t : Ty, t.rename Renumbering.id.tyVar = t := Renumbering.onTy_id
  cases e with
  | unification cause r =>
    cases cause with
    | mismatch t u => simp only [rename, UnifyError.rename, hty]
    | circular v t =>
      simp only [rename, UnifyError.rename, hty]
      rfl
  | ascription name declared inferred r => simp only [rename, hty]

namespace Renumbering

variable (ρ : Renumbering)

/-- The change that inference is followed under. -/
def inferring : Change TyVar TypeError where
  state := ρ.tyVar
  error := TypeError.rename ρ.tyVar
  Good := Shifts ρ.tyVar

theorem onTy_apply (s : Subst) (t : Ty) :
    (ρ.onTy t).apply (s.rename ρ.tyVar) = ρ.onTy (t.apply s) :=
  Ty.apply_rename ρ.tyVar_injective s t

/-! ## Demands -/

def onDemands (d : Demands) : Demands := d.map fun b => (ρ.onLocal b.1, ρ.onTy b.2)

@[simp] theorem onDemands_nil : ρ.onDemands [] = [] := rfl

theorem lookup_onDemands (d : Demands) (x : Local) :
    (ρ.onDemands d).lookup (ρ.onLocal x) = (d.lookup x).map ρ.onTy :=
  lookup_map_of_injective ρ.onLocal_injective ρ.onTy d x

theorem onDemands_apply (s : Subst) (d : Demands) :
    (ρ.onDemands d).apply (s.rename ρ.tyVar) = ρ.onDemands (d.apply s) := by
  simp only [Demands.apply, onDemands, List.map_map]
  exact List.map_congr_left fun b _ => congrArg (ρ.onLocal b.1, ·) (ρ.onTy_apply s b.2)

theorem onDemands_without (d : Demands) (xs : List Local) :
    (ρ.onDemands d).without (xs.map ρ.onLocal) = ρ.onDemands (d.without xs) := by
  simp only [Demands.without, onDemands, List.filter_map]
  congr 1
  exact List.filter_congr fun b _ => decide_eq_decide.2 (not_congr ρ.onLocal_mem)

theorem vars_onDemands (d : Demands) : (ρ.onDemands d).vars = d.vars.map ρ.tyVar := by
  simp only [Demands.vars, onDemands, List.flatMap_map, List.map_flatMap]
  exact List.flatMap_congr fun b _ => Ty.vars_rename ρ.tyVar b.2

theorem locals_onDemands (ds : List Demands) :
    Demands.locals (ds.map ρ.onDemands) = (Demands.locals ds).map ρ.onLocal := by
  have hkeys : (ds.map ρ.onDemands).flatten.map Prod.fst =
      (ds.flatten.map Prod.fst).map ρ.onLocal := by
    simp only [List.map_flatten, List.map_map]
    exact congrArg List.flatten (List.map_congr_left fun d _ => by simp [onDemands])
  rw [Demands.locals, Demands.locals, hkeys, eraseDups_map ρ.onLocal_injective.injOn]

theorem on_onDemands (ds : List Demands) (x : Local) :
    Demands.on (ds.map ρ.onDemands) (ρ.onLocal x) = (Demands.on ds x).map ρ.onTy := by
  simp only [Demands.on, List.filterMap_map, List.map_filterMap]
  exact List.filterMap_congr fun d _ => ρ.lookup_onDemands d x

theorem merge_onDemands (ds : List Demands) {next : TyVar} (hnext : Shifts ρ.tyVar next)
    (xs : List Local) :
    Demands.merge (ds.map ρ.onDemands) (ρ.tyVar next) (xs.map ρ.onLocal) =
      (ρ.onDemands (Demands.merge ds next xs).1,
        (Demands.merge ds next xs).2.1.map (Equation.rename ρ.tyVar),
        ρ.tyVar (Demands.merge ds next xs).2.2) := by
  induction xs generalizing next with
  | nil => rfl
  | cons x xs ih =>
    rw [List.map_cons]
    by_cases hone : ∃ t, Demands.on ds x = [t]
    · obtain ⟨t, ht⟩ := hone
      have ht' : Demands.on (ds.map ρ.onDemands) (ρ.onLocal x) = [ρ.onTy t] := by
        rw [on_onDemands, ht]
        rfl
      rw [Demands.merge_cons_of_single ht, Demands.merge_cons_of_single ht', ih hnext]
      rfl
    · have hmany : ∀ t, Demands.on ds x ≠ [t] := fun t ht => hone ⟨t, ht⟩
      have hmany' : ∀ t, Demands.on (ds.map ρ.onDemands) (ρ.onLocal x) ≠ [t] := fun t ht => by
        rw [on_onDemands, List.map_eq_singleton_iff] at ht
        obtain ⟨u, hu, -⟩ := ht
        exact hmany u hu
      have hsucc : ρ.tyVar next + 1 = ρ.tyVar (next + 1) := (hnext 1).symm
      rw [Demands.merge_cons_of_many hmany, Demands.merge_cons_of_many hmany', hsucc,
        ih (hnext.add 1), on_onDemands]
      simp only [List.map_append, List.map_map]
      rfl

end Renumbering

/-! ## Typings -/

namespace Recasting

open Renumbering

variable (ρ : Recasting)

/-- The change that inference is followed under. -/
def inferring : Change TyVar TypeError where
  state := ρ.tyVar
  error e := (e.rename ρ.tyVar).relocate ρ.onRange
  Good := Shifts ρ.tyVar

theorem onExpr_apply (s : Subst) (e : Expr Ty) :
    (ρ.onExpr ρ.onTy e).apply (s.rename ρ.tyVar) = ρ.onExpr ρ.onTy (e.apply s) := by
  have hafter := ρ.map_onExpr_map id ρ.onTy (Ty.apply (s.rename ρ.tyVar)) e
  have hbefore := ρ.map_onExpr_map (Ty.apply s) ρ.onTy id e
  rw [Expr.map_id] at hafter hbefore
  rw [Expr.apply, hafter, Expr.apply, hbefore]
  congr 1
  funext t
  exact ρ.onTy_apply s t

def onTyping (t : Typing) : Typing := ⟨ρ.onExpr ρ.onTy t.expr, ρ.onDemands t.demands⟩

def onLetType (b : LetType) : LetType := ⟨ρ.onTy b.ty, ρ.onDemands b.demands⟩

def onLetScope (c : LetScope) : LetScope := c.map fun b => (ρ.onLocal b.1, ρ.onLetType b.2)

@[simp] theorem ty_onTyping (t : Typing) : (ρ.onTyping t).ty = ρ.onTy t.ty :=
  ρ.ann_onExpr ρ.onTy t.expr

/-! ## The steps of inference -/

theorem follows_fresh : Follows ρ.inferring ρ.onTy Infer.fresh Infer.fresh :=
  .get_bind fun _ hk => .bind (.set (hk 1) (hk.add 1)) fun _ => .pure rfl

theorem follows_ofVar (v : Var) :
    Follows ρ.inferring ρ.onTy (Infer.ofVar v) (Infer.ofVar (ρ.onVar v)) := by
  unfold Infer.ofVar
  rw [ρ.visible_onVar]
  cases v.visible with
  | none => exact ρ.follows_fresh
  | some t =>
    refine .get_bind fun k hk => ?_
    have hinst : (ρ.onTy t).instantiate (ρ.tyVar k) = _ :=
      Ty.instantiate_rename ρ.tyVar_mono hk t
    show Follows _ _ _ (do set ((ρ.onTy t).instantiate (ρ.tyVar k)).2; _)
    rw [hinst]
    exact .bind (.set rfl (hk.add _)) fun _ => .pure (congrArg Prod.fst hinst).symm

theorem follows_ofLet (b : LetType) :
    Follows ρ.inferring ρ.onLetType (Infer.ofLet b) (Infer.ofLet (ρ.onLetType b)) := by
  refine .get_bind fun k hk => ?_
  have hvars : sortVars ((ρ.onLetType b).ty.vars ++ (ρ.onLetType b).demands.vars) =
      (sortVars (b.ty.vars ++ b.demands.vars)).map ρ.tyVar := by
    rw [← sortVars_map ρ.tyVar_mono, List.map_append, ← vars_onDemands, ← Ty.vars_rename]
    rfl
  simp only [hvars, List.length_map]
  refine .bind (.set (hk _) (hk.add _)) fun _ => .pure ?_
  have hfresh :
      Subst.fresh ((sortVars (b.ty.vars ++ b.demands.vars)).map ρ.tyVar) (ρ.tyVar k) = _ :=
    Subst.fresh_rename hk _
  show LetType.mk _ _ = LetType.mk _ _
  rw [show ρ.inferring.state k = ρ.tyVar k from rfl, hfresh]
  exact congrArg₂ LetType.mk (ρ.onTy_apply _ b.ty).symm (ρ.onDemands_apply _ b.demands).symm

/-- The demands and the substitution that solving gives. -/
def onSolved (p : Demands × Subst) : Demands × Subst := (ρ.onDemands p.1, p.2.rename ρ.tyVar)

theorem follows_solve (r : Range) (parts : List Demands) (es : List Equation) :
    Follows ρ.inferring ρ.onSolved (Infer.solve r parts es)
      (Infer.solve (ρ.onRange r) (parts.map ρ.onDemands) (es.map (Equation.rename ρ.tyVar))) := by
  refine .get_bind fun k hk => ?_
  have hunion : Demands.union (parts.map ρ.onDemands) (ρ.tyVar k) =
      (ρ.onDemands (Demands.union parts k).1,
        (Demands.union parts k).2.1.map (Equation.rename ρ.tyVar),
        ρ.tyVar (Demands.union parts k).2.2) := by
    rw [Demands.union, locals_onDemands]
    exact ρ.merge_onDemands parts hk _
  rw [show ρ.inferring.state k = ρ.tyVar k from rfl]
  simp only [hunion]
  refine .bind (.set rfl (hk.mono Demands.le_union)) fun _ => ?_
  rw [← List.map_append, unify_rename ρ.tyVar_injective]
  cases unify (es ++ (Demands.union parts k).2.1) with
  | error e => exact .throw rfl
  | ok s => exact .pure (Prod.ext (ρ.onDemands_apply s _).symm rfl)

theorem follows_ofParam (d : Demands) (x : Local) :
    Follows ρ.inferring ρ.onTy (Infer.ofParam d x)
      (Infer.ofParam (ρ.onDemands d) (ρ.onLocal x)) := by
  unfold Infer.ofParam
  rw [lookup_onDemands]
  cases d.lookup x with
  | none => exact ρ.follows_fresh
  | some t => exact .pure rfl

/-- What inference of a collection works with. -/
def onParts (p : Ty × List Equation × List Demands) : Ty × List Equation × List Demands :=
  (ρ.onTy p.1, p.2.1.map (Equation.rename ρ.tyVar), p.2.2.map ρ.onDemands)

theorem equations_onTyping (t : Ty) (items : List Typing) :
    (items.map ρ.onTyping).map (fun i => (ρ.onTy t, i.ty)) =
      (items.map fun i => (t, i.ty)).map (Equation.rename ρ.tyVar) := by
  simp only [List.map_map]
  exact List.map_congr_left fun i _ => congrArg (ρ.onTy t, ·) (ρ.ty_onTyping i)

theorem demands_onTyping (items : List Typing) :
    (items.map ρ.onTyping).map (·.demands) = (items.map (·.demands)).map ρ.onDemands := by
  simp only [List.map_map]
  rfl

theorem follows_collectionTy (kind : Collection) (items : List Typing) :
    Follows ρ.inferring ρ.onParts (collectionTy kind items)
      (collectionTy kind (items.map ρ.onTyping)) := by
  cases kind with
  | vector =>
    refine ρ.follows_fresh.bind fun e => .pure ?_
    rw [equations_onTyping, demands_onTyping]
    rfl
  | set =>
    refine ρ.follows_fresh.bind fun e => .pure ?_
    rw [equations_onTyping, demands_onTyping]
    rfl
  | map =>
    refine ρ.follows_fresh.bind fun k => ρ.follows_fresh.bind fun v => .pure ?_
    rw [keys_map, values_map, ← List.map_append (f := ρ.onTyping), demands_onTyping,
      equations_onTyping, equations_onTyping, ← List.map_append]
    rfl

/-! ## Expressions -/

/-- Whether inference of a renumbered expression follows inference of the expression. -/
def Infers (e : Expr Unit) : Prop :=
  ∀ scope : LetScope, Follows ρ.inferring ρ.onTyping (inferIn scope e)
    (inferIn (ρ.onLetScope scope) (ρ.onExpr id e))

theorem follows_inferAll_of {es : List (Expr Unit)} (h : ∀ e ∈ es, ρ.Infers e)
    (scope : LetScope) : Follows ρ.inferring (List.map ρ.onTyping) (inferAll scope es)
      (inferAll (ρ.onLetScope scope) (es.map (ρ.onExpr id))) := by
  induction es with
  | nil => exact .pure rfl
  | cons e es ih =>
    obtain ⟨he, hes⟩ := List.forall_mem_cons.1 h
    rw [List.map_cons, inferAll, inferAll]
    exact (he scope).bind fun t => (ih hes).bind fun ts => .pure rfl

/-- The typings of bindings, and the scope after them. -/
def onTypedBindings (p : List (Local × Typing) × LetScope) : List (Local × Typing) × LetScope :=
  (p.1.map fun b => (ρ.onLocal b.1, ρ.onTyping b.2), ρ.onLetScope p.2)

theorem follows_inferBindings_of {bs : List (Local × Expr Unit)} (h : ∀ b ∈ bs, ρ.Infers b.2)
    (scope : LetScope) : Follows ρ.inferring ρ.onTypedBindings (inferBindings scope bs)
      (inferBindings (ρ.onLetScope scope)
        (bs.map fun b => (ρ.onLocal b.1, ρ.onExpr id b.2))) := by
  induction bs generalizing scope with
  | nil => exact .pure rfl
  | cons b bs ih =>
    obtain ⟨x, e⟩ := b
    obtain ⟨he, hbs⟩ := List.forall_mem_cons.1 h
    rw [List.map_cons, inferBindings, inferBindings]
    refine (he scope).bind fun t => ?_
    have hwithout : (ρ.onTyping t).demands.without [ρ.onLocal x] =
        ρ.onDemands (t.demands.without [x]) := ρ.onDemands_without t.demands [x]
    have hrest := ih hbs ((x, ⟨t.ty, t.demands.without [x]⟩) :: scope)
    rw [hwithout, ty_onTyping]
    refine hrest.bind ?_
    rintro ⟨rest, inner⟩
    exact .pure rfl

theorem map_expr_apply (ts : List Typing) (s : Subst) :
    (ts.map ρ.onTyping).map (·.expr.apply (s.rename ρ.tyVar)) =
      (ts.map (·.expr.apply s)).map (ρ.onExpr ρ.onTy) := by
  simp only [List.map_map]
  exact List.map_congr_left fun t _ => ρ.onExpr_apply s t.expr

theorem map_ty_onTyping (ts : List Typing) :
    (ts.map ρ.onTyping).map (·.ty) = (ts.map (·.ty)).map ρ.onTy := by
  simp only [List.map_map]
  exact List.map_congr_left fun t _ => ρ.ty_onTyping t

/-- **Inference does not depend on the numbers of variables and locals.** -/
theorem follows_inferIn (e : Expr Unit) : ρ.Infers e := by
  induction e with
  | literal v n =>
    intro scope
    refine .pure ?_
    cases v <;> rfl
  | collection kind es n ih =>
    intro scope
    rw [onExpr, onExprs_eq_map, inferIn, inferIn]
    refine (ρ.follows_inferAll_of ih scope).bind fun ts => (ρ.follows_collectionTy kind ts).bind ?_
    rintro ⟨t, equations, parts⟩
    refine (ρ.follows_solve n.range parts equations).bind ?_
    rintro ⟨d, s⟩
    refine .pure ?_
    simp only [onTyping, onExpr, onExprs_eq_map, map_expr_apply, onTy_apply]
    rfl
  | localVar x n =>
    intro scope
    rw [onExpr, inferIn, inferIn, onLetScope, lookup_map_of_injective ρ.onLocal_injective]
    cases scope.lookup x with
    | none => exact ρ.follows_fresh.bind fun t => .pure rfl
    | some b => exact (ρ.follows_ofLet b).bind fun b => .pure rfl
  | globalVar v n =>
    intro scope
    rw [onExpr, inferIn, inferIn]
    exact (ρ.follows_ofVar v).bind fun t => .pure rfl
  | call f es n ihf ih =>
    intro scope
    rw [onExpr, onExprs_eq_map, inferIn, inferIn]
    refine (ihf scope).bind fun c => (ρ.follows_inferAll_of ih scope).bind fun ts =>
      ρ.follows_fresh.bind fun result => ?_
    have hsolve := ρ.follows_solve n.range (c.demands :: ts.map (·.demands))
      [(c.ty, .fn (ts.map (·.ty)) result)]
    rw [List.map_cons, ← demands_onTyping] at hsolve
    simp only [List.map_cons, List.map_nil, Equation.rename, Ty.rename_fn] at hsolve
    rw [ty_onTyping, map_ty_onTyping]
    refine hsolve.bind ?_
    rintro ⟨d, s⟩
    refine .pure ?_
    simp only [onTyping, onExpr, onExprs_eq_map, map_expr_apply, onTy_apply, onExpr_apply]
    rfl
  | callVar v es n ih =>
    intro scope
    rw [onExpr, onExprs_eq_map, inferIn, inferIn]
    refine (ρ.follows_inferAll_of ih scope).bind fun ts => ρ.follows_fresh.bind fun result =>
      (ρ.follows_ofVar v).bind fun c => ?_
    have hsolve := ρ.follows_solve n.range (ts.map (·.demands)) [(c, .fn (ts.map (·.ty)) result)]
    rw [← demands_onTyping] at hsolve
    simp only [List.map_cons, List.map_nil, Equation.rename, Ty.rename_fn] at hsolve
    rw [map_ty_onTyping]
    refine hsolve.bind ?_
    rintro ⟨d, s⟩
    refine .pure ?_
    simp only [onTyping, onExpr, onExprs_eq_map, map_expr_apply, onTy_apply]
    rfl
  | letIn bs e n ihbs ihe =>
    intro scope
    rw [onExpr, onBindings_eq_map, inferIn, inferIn]
    refine (ρ.follows_inferBindings_of ihbs scope).bind ?_
    rintro ⟨ts, inner⟩
    refine (ihe inner).bind fun u => ?_
    have hdemands : (ts.map fun b => (ρ.onLocal b.1, ρ.onTyping b.2)).map (·.2.demands) ++
        [(ρ.onTyping u).demands] = (ts.map (·.2.demands) ++ [u.demands]).map ρ.onDemands := by
      simp only [List.map_append, List.map_map]
      rfl
    have hsolve := ρ.follows_solve n.range (ts.map (·.2.demands) ++ [u.demands]) []
    rw [← hdemands] at hsolve
    refine hsolve.bind ?_
    rintro ⟨d, s⟩
    refine .pure ?_
    have hnames : (ts.map fun b => (ρ.onLocal b.1, ρ.onTyping b.2)).map Prod.fst =
        (ts.map Prod.fst).map ρ.onLocal := by
      simp only [List.map_map]
      rfl
    have hexprs : (ts.map fun b => (ρ.onLocal b.1, ρ.onTyping b.2)).map
          (fun b => (b.1, b.2.expr.apply (s.rename ρ.tyVar))) =
        (ts.map fun b => (b.1, b.2.expr.apply s)).map
          fun b => (ρ.onLocal b.1, ρ.onExpr ρ.onTy b.2) := by
      simp only [List.map_map]
      exact List.map_congr_left fun b _ => congrArg (ρ.onLocal b.1, ·) (ρ.onExpr_apply s b.2.expr)
    simp only [hnames, hexprs, ty_onTyping, onTy_apply, onDemands_without]
    simp only [onTyping, onExpr, onBindings_eq_map, onExpr_apply]
    rfl
  | ite test a b n iht iha ihb =>
    intro scope
    rw [onExpr, inferIn, inferIn]
    refine (iht scope).bind fun t => (iha scope).bind fun u => (ihb scope).bind fun w =>
      ρ.follows_fresh.bind fun result => ?_
    have hsolve := ρ.follows_solve n.range [t.demands, u.demands, w.demands]
      [(t.ty, .bool), (result, u.ty), (result, w.ty)]
    simp only [List.map_cons, List.map_nil, Equation.rename, Ty.rename_bool] at hsolve
    rw [ty_onTyping, ty_onTyping, ty_onTyping]
    refine hsolve.bind ?_
    rintro ⟨d, s⟩
    refine .pure ?_
    simp only [onTyping, onExpr, onTy_apply, onExpr_apply]
    rfl
  | fn ps e n ih =>
    intro scope
    rw [onExpr, inferIn, inferIn]
    refine (ih scope).bind fun u =>
      (Follows.mapM fun x _ => ρ.follows_ofParam u.demands x).bind fun ts => .pure ?_
    simp only [onTyping, onExpr, onNote, onDemands_without, onTy, Ty.rename_fn]
    rw [show (Typing.mk (ρ.onExpr ρ.onTy u.expr) (ρ.onDemands u.demands)).ty = ρ.onTy u.ty from
      ρ.ty_onTyping u]
    rfl
  | define g declared e n ih =>
    intro scope
    rw [onExpr, inferIn, inferIn]
    refine (ih scope).bind fun u => ?_
    cases declared with
    | none => exact .bind (r := id) (.pure rfl) fun _ => .pure rfl
    | some t =>
      show Follows _ _ (do if t.subtypeOf u.ty then _ else _; _)
        (do if (ρ.onTy t).subtypeOf (ρ.onTyping u).ty then _ else _; _)
      rw [ty_onTyping, onTy, onTy, Ty.subtypeOf_rename ρ.tyVar_injective]
      split
      · exact .bind (r := id) (.pure rfl) fun _ => .pure rfl
      · exact .bind (r := id) (.throw rfl) fun _ => .pure rfl
  | declare d n =>
    intro scope
    exact .pure rfl

/-- **Inference at top level does not depend on the numbers of variables and locals.** -/
theorem follows_infer (e : Expr Unit) :
    Follows ρ.inferring (ρ.onExpr ρ.onTy) (infer e) (infer (ρ.onExpr id e)) :=
  (ρ.follows_inferIn e []).bind fun _ => .pure rfl

end Recasting

theorem Renumbering.follows_infer (ρ : Renumbering) (e : Expr Unit) :
    Follows ρ.inferring (ρ.onExpr ρ.onTy) (infer e) (infer (ρ.onExpr id e)) := by
  have h := ρ.recasting.follows_infer e
  simp only [Recasting.inferring, TypeError.relocate_id] at h
  exact h

end TypedLisp
