import Mathlib.Logic.Equiv.Fintype
import TypedLisp.Proofs.Inference.Completeness
import TypedLisp.Proofs.Renumbering.Types

/-!
# Inference does not depend on the order of locals

If inference of an expression succeeds with some orders of the locals at its nodes, then what it
finds is a derivation. So it succeeds with all orders, and every result is an instance of every
other (`inferInBy_general`). So the results differ in the names of variables only
(`infer_order_independent`).
-/

namespace TypedLisp

variable {k k₂ : TyVar} {f g : TyVar → Ty}

section General

variable {α : Type} {order' : α → JoinOrder} {k k₂ : TyVar} {e : Expr α}

/-- **What inference finds with one order becomes what it finds with another**, and it succeeds with
all orders if it does with one. -/
theorem inferInBy_general (order : α → JoinOrder) (he : e.Scoped []) {u : Typing}
    (hu : (inferInBy order' [] e).run k = .ok (u, k₂)) :
    ∃ t k₁ f, (inferInBy order [] e).run k = .ok (t, k₁) ∧ t.expr.map (Ty.bind f) = u.expr := by
  obtain ⟨p, rfl, hp⟩ := inferInBy_typedAs e hu
  have hcovers : LetScope.Covers [] (fun _ => .bool) [] := ⟨⟨nofun, nofun⟩, nofun, nofun⟩
  have hcomplete : CompleteOf order p := inferInBy_complete p
  obtain ⟨t, k₁, f, ht, hf, -⟩ := hcomplete (c := []) k
    (hp ▸ inferInBy_isDerivation he hu) ((Expr.scoped_map p []).1 he) hcovers
  exact ⟨t, k₁, f, ht, hf.trans hp⟩

variable {env : Env} {ns : String} {form : Form} {s s' : Supply}

theorem inferBy_general (order : α → JoinOrder) (henv : env.DeclaredBelow s.tyVar)
    (hform : form.EvenMaps) (ha : (analyse env ns form).run s = .ok (e.erase, s')) {u : Expr Ty}
    (hu : (inferBy order' e).run s'.tyVar = .ok (u, k₂)) :
    ∃ t k₁ f, (inferBy order e).run s'.tyVar = .ok (t, k₁) ∧ t.map (Ty.bind f) = u := by
  obtain ⟨w, hw, rfl⟩ := run_inferBy.1 hu
  obtain ⟨name, body, n, he, hbody⟩ | ⟨d, n, he, -⟩ | he := analyse_cases hform ha
  · cases e with
    | define g declared b m =>
      obtain ⟨rfl, rfl, rfl, -⟩ := Expr.define.inj he
      obtain ⟨w, hb, hdeclared, rfl⟩ := run_define.1 hw
      obtain ⟨t, k₁, f, ht, hf⟩ :=
        inferInBy_general order ((Expr.scoped_map b []).1 hbody.isScoped) hb
      refine ⟨_, k₁, f, run_inferBy.2 ⟨_, run_define.2 ⟨t, ht, fun d hd => ?_, rfl⟩, rfl⟩, ?_⟩
      · -- declared variables were there before those of the type that is found
        obtain ⟨v, hv, hvd⟩ := Option.bind_eq_some_iff.1 hd
        have hty : t.ty.bind f = w.ty := Typing.ty_bind hf
        have hinst : d.InstanceOf t.ty := (Ty.instanceOf_of_subtypeOf (hdeclared d hd)).trans
          (hty ▸ Ty.instanceOf_bind t.ty f)
        refine (Ty.subtypeOf_iff fun x hx hxt => ?_).2 hinst
        have hlt : x < s'.tyVar := hbody.takes.tyVar_eq ▸ henv _ v d hv hvd x hx
        exact Nat.not_lt.2 ((inferInBy_ranges b ht).tys _ t.expr.ann_mem_anns x hxt).1 hlt
      · rw [Expr.map, hf]
        rfl
    | _ => cases he
  · cases e with
    | declare d m =>
      obtain ⟨rfl, -⟩ := run_pure_eq_ok.1 hw
      exact ⟨_, s'.tyVar, .var, rfl, rfl⟩
    | _ => cases he
  · obtain ⟨t, k₁, f, ht, hf⟩ := inferInBy_general order ((Expr.scoped_map e []).1 he.isScoped) hw
    exact ⟨t.expr, k₁, f, run_inferBy.2 ⟨t, ht, rfl⟩, hf⟩

theorem le_of_inferBy {order : α → JoinOrder} {t : Expr Ty}
    (ht : (inferBy order e).run k = .ok (t, k₂)) : ∀ a ∈ t.anns, ∀ v ∈ a.vars, k ≤ v := by
  obtain ⟨u, hu, rfl⟩ := run_inferBy.1 ht
  exact fun a ha v hv => ((inferInBy_ranges e hu).tys a ha v hv).1

end General

/-! ## Renamings -/

/-- A renaming that is one-to-one on some variables can be made one of all variables. If it goes
from variables above a bound to such variables, those below the bound can keep their names. -/
theorem exists_perm_of_injOn {vs : List TyVar} {φ : TyVar → TyVar}
    (hinj : ∀ v ∈ vs, ∀ w ∈ vs, φ v = φ w → v = w) (hk : ∀ v ∈ vs, k ≤ v ∧ k ≤ φ v) :
    ∃ ρ : Equiv.Perm TyVar, (∀ v < k, ρ v = v) ∧ ∀ v ∈ vs, ρ v = φ v := by
  obtain ⟨ρ, hρ⟩ := Equiv.Perm.exists_extending_pair
    (fun v : {v // v ∈ List.range k ++ vs} => v.1) (fun v => if v.1 < k then v.1 else φ v.1)
    Subtype.val_injective (by
      rintro ⟨v, hv⟩ ⟨w, hw⟩ heq
      have habove : ∀ v ∈ List.range k ++ vs, ¬ v < k → v ∈ vs := fun v hv hlt =>
        (List.mem_append.1 hv).resolve_left fun h => hlt (List.mem_range.1 h)
      refine Subtype.ext ?_
      dsimp only at heq
      split at heq <;> split at heq
      · exact heq
      · exact absurd (heq ▸ (hk w (habove w hw ‹_›)).2) (Nat.not_le.2 ‹_›)
      · exact absurd (heq ▸ (hk v (habove v hv ‹_›)).2) (Nat.not_le.2 ‹_›)
      · exact hinj v (habove v hv ‹_›) w (habove w hw ‹_›) heq)
  refine ⟨ρ, fun v hv => ?_, fun v hv => ?_⟩
  · exact (hρ ⟨v, List.mem_append_left _ (List.mem_range.2 hv)⟩).trans (if_pos hv)
  · exact (hρ ⟨v, List.mem_append_right _ hv⟩).trans (if_neg (Nat.not_lt.2 (hk v hv).1))

theorem Ty.exists_var_of_bind {t : Ty} {v : TyVar} (h : t.bind g = .var v) : ∃ w, t = .var w := by
  cases t with
  | var w => exact ⟨w, rfl⟩
  | _ => simp [Ty.bind] at h

/-- Types that become others and back differ in the names of their variables only. -/
theorem Ty.exists_perm_of_bind {ts : List Ty} (h : ∀ t ∈ ts, (t.bind f).bind g = t)
    (hk : ∀ t ∈ ts, ∀ v ∈ t.vars, k ≤ v) (hk' : ∀ t ∈ ts, ∀ v ∈ (t.bind f).vars, k ≤ v) :
    ∃ ρ : Equiv.Perm TyVar, (∀ v < k, ρ v = v) ∧ ∀ t ∈ ts, t.rename ρ = t.bind f := by
  have hback : ∀ v ∈ ts.flatMap Ty.vars, (f v).bind g = .var v := fun v hv => by
    obtain ⟨t, ht, hv⟩ := List.mem_flatMap.1 hv
    have ht := h t ht
    rw [Ty.bind_bind] at ht
    exact Ty.bind_eq_self_iff.1 ht v hv
  have hvar : ∀ v ∈ ts.flatMap Ty.vars, f v = .var (Ty.varOr (f v) v) := fun v hv => by
    obtain ⟨w, hw⟩ := Ty.exists_var_of_bind (hback v hv)
    rw [hw]
    rfl
  have hinj : ∀ v ∈ ts.flatMap Ty.vars, ∀ w ∈ ts.flatMap Ty.vars,
      Ty.varOr (f v) v = Ty.varOr (f w) w → v = w := fun v hv w hw heq => by
    have hfv : f v = f w := by rw [hvar v hv, hvar w hw, heq]
    exact Ty.var.inj ((hback v hv).symm.trans (hfv ▸ hback w hw))
  have habove : ∀ v ∈ ts.flatMap Ty.vars, k ≤ v ∧ k ≤ Ty.varOr (f v) v := fun v hmem => by
    obtain ⟨t, ht, hv⟩ := List.mem_flatMap.1 hmem
    refine ⟨hk t ht v hv, hk' t ht _ (Ty.mem_vars_bind.2 ⟨v, hv, ?_⟩)⟩
    rw [hvar v hmem]
    exact List.mem_singleton_self _
  obtain ⟨ρ, hfix, hρ⟩ := exists_perm_of_injOn hinj habove
  refine ⟨ρ, hfix, fun t ht => Ty.bind_congr fun v hv => ?_⟩
  have hmem := List.mem_flatMap.2 ⟨t, ht, hv⟩
  rw [hρ v hmem, ← hvar v hmem]

/-- Expressions that become each other differ in the names of their variables only. -/
theorem Expr.exists_rename {t u : Expr Ty} (h : t.map (Ty.bind f) = u) (h' : u.map (Ty.bind g) = t)
    (ht : ∀ a ∈ t.anns, ∀ v ∈ a.vars, k ≤ v) (hu : ∀ a ∈ u.anns, ∀ v ∈ a.vars, k ≤ v) :
    ∃ ρ : Equiv.Perm TyVar, (∀ v < k, ρ v = v) ∧ t.map (Ty.rename ρ) = u := by
  have hround : t.map (Ty.bind g ∘ Ty.bind f) = t := by rw [← Expr.map_map, h, h']
  have hback : ∀ a ∈ t.anns, (a.bind f).bind g = a := by
    have hanns := congrArg Expr.anns hround
    rw [Expr.anns_map, ← List.map_id t.anns, List.map_map] at hanns
    exact List.map_inj_left.1 hanns
  have hanns : ∀ a ∈ t.anns, a.bind f ∈ u.anns := fun a ha => by
    rw [← h, Expr.anns_map]
    exact List.mem_map_of_mem ha
  obtain ⟨ρ, hfix, hρ⟩ := Ty.exists_perm_of_bind hback ht fun a ha => hu _ (hanns a ha)
  exact ⟨ρ, hfix, (Expr.map_congr hρ).trans h⟩

section Independence

variable {α : Type} {env : Env} {ns : String} {form : Form} {s s' : Supply}

/-- **Inference does not depend on the order of locals**: of an expression that analysis gives, with
any two choices of an order at each node, it fails with both or succeeds with both, and the types
that it finds then differ in the names of new variables only. Inference itself is the case of first
uses. -/
theorem infer_order_independent (henv : env.DeclaredBelow s.tyVar) (hform : form.EvenMaps)
    {e : Expr α} (ha : (analyse env ns form).run s = .ok (e.erase, s'))
    (order order' : α → JoinOrder) :
    infer e.erase = inferBy (fun _ => .firstUse) e ∧
    ((∃ err err', (inferBy order e).run s'.tyVar = .error err ∧
        (inferBy order' e).run s'.tyVar = .error err') ∨
      ∃ t k t' k', (inferBy order e).run s'.tyVar = .ok (t, k) ∧
        (inferBy order' e).run s'.tyVar = .ok (t', k') ∧
        ∃ ρ : Equiv.Perm TyVar, (∀ v < s'.tyVar, ρ v = v) ∧ t.map (Ty.rename ρ) = t') := by
  refine ⟨(inferBy_firstUse e).symm, ?_⟩
  cases hrun : (inferBy order e).run s'.tyVar with
  | ok r =>
    obtain ⟨t, k⟩ := r
    obtain ⟨t', k', f, hrun', h'⟩ := inferBy_general order' henv hform ha hrun
    obtain ⟨u, k₁, g, hu, h⟩ := inferBy_general order henv hform ha hrun'
    obtain ⟨rfl, rfl⟩ : u = t ∧ k₁ = k := by
      rw [hrun] at hu
      exact (Prod.mk.inj (Except.ok.inj hu)).imp Eq.symm Eq.symm
    exact .inr ⟨u, k₁, t', k', rfl, hrun',
      Expr.exists_rename h h' (le_of_inferBy hrun) (le_of_inferBy hrun')⟩
  | error err =>
    cases hrun' : (inferBy order' e).run s'.tyVar with
    | error err' => exact .inl ⟨err, err', rfl, rfl⟩
    | ok r =>
      obtain ⟨t, k, f, ht, -⟩ := inferBy_general order henv hform ha hrun'
      cases hrun.symm.trans ht

end Independence

/-- The form `(fn (f x y) (f [x y] x y))`. -/
def sharedLocals : Form :=
  let sym (s : String) : Form := .atom (.symbol s) .nowhere
  let list (fs : List Form) : Form := .seq .list fs .nowhere
  list [sym "fn", list [sym "f", sym "x", sym "y"],
    list [sym "f", .seq .vector [sym "x", sym "y"] .nowhere, sym "x", sym "y"]]

/-- What analysis makes of `sharedLocals`, with a mark at the call. -/
def markedCall : Expr Bool :=
  let use (name : String) (id : Nat) : Expr Bool := .localVar ⟨name, id⟩ ⟨.nowhere, false⟩
  .fn [⟨"f", 1⟩, ⟨"x", 2⟩, ⟨"y", 3⟩]
    (.call (use "f" 1)
      [.collection .vector [use "x" 2, use "y" 3] ⟨.nowhere, false⟩, use "x" 2, use "y" 3]
      ⟨.nowhere, true⟩) ⟨.nowhere, false⟩

/-- The order of first uses, but backwards at marked nodes. -/
def reversedAtMarks (mark : Bool) : JoinOrder := if mark then .reversed else .firstUse

/-- The type of `sharedLocals`, with a variable for the type of `x` and `y`. -/
def sharedTy (v : TyVar) : Ty :=
  .fn [.fn [.vector (.var v), .var v, .var v] (.var 6), .var v, .var v] (.var 6)

theorem ann_firstUse_markedCall :
    ((inferBy (fun _ => .firstUse) markedCall).run 0).map (·.1.ann) = .ok (sharedTy 5) := by cbv

theorem ann_reversedAtMarks_markedCall :
    ((inferBy reversedAtMarks markedCall).run 0).map (·.1.ann) = .ok (sharedTy 4) := by cbv

/-- Two orders that find different names for the same types. -/
theorem infer_order_independent_markedCall :
    (analyse {} userNs sharedLocals).run {} = .ok (markedCall.erase, ⟨0, 4⟩) ∧
      ∃ t k t' k', (inferBy (fun _ => .firstUse) markedCall).run 0 = .ok (t, k) ∧
        (inferBy reversedAtMarks markedCall).run 0 = .ok (t', k') ∧
        t.ann = sharedTy 5 ∧ t'.ann = sharedTy 4 ∧
        ∃ ρ : Equiv.Perm TyVar, t.map (Ty.rename ρ) = t' := by
  have ha : (analyse {} userNs sharedLocals).run {} = .ok (markedCall.erase, ⟨0, 4⟩) := by cbv
  have henv : ({} : Env).DeclaredBelow 0 := by rintro g v t ⟨⟩
  have hform : sharedLocals.EvenMaps := by
    simp [sharedLocals, Form.EvenMaps, Form.EvenMapsAll]
  have hfirst := ann_firstUse_markedCall
  have hreversed := ann_reversedAtMarks_markedCall
  obtain ⟨-, ⟨err, _, herr, -⟩ | ⟨t, k, t', k', ht, ht', ρ, -, hρ⟩⟩ :=
    infer_order_independent henv hform ha (fun _ => .firstUse) reversedAtMarks
  · rw [herr] at hfirst
    cases hfirst
  · rw [ht] at hfirst
    rw [ht'] at hreversed
    exact ⟨ha, t, k, t', k', ht, ht', Except.ok.inj hfirst, Except.ok.inj hreversed, ρ, hρ⟩

end TypedLisp
