import TypedLisp.Proofs.Inference.Admitted
import TypedLisp.Proofs.Session.Reachable

/-!
# Completeness of inference

If an expression has a derivation then inference succeeds on it, and the derivation is what becomes
of the typing that it finds by a replacement of variables (**`inferInBy_complete`**). The proof goes
along the derivation; what a use of a local bound by `let` makes of the typing of its binding meets
the same demands.
-/

namespace TypedLisp

/-! ## Types of locals -/

section Types

variable {G : Local → Ty} {ps bound : List Local} {scope : LetScope}

/-- The types that a typing can be given, where the parameters have the types `G`. -/
def LetType.Instances (b : LetType) (G : Local → Ty) (t : Ty) : Prop :=
  ∃ f, b.ty.bind f = t ∧ b.demands.MetAt f G

/-- The types at which the locals may be used, where the parameters have the types `G`. -/
def LetScope.types (scope : LetScope) (G : Local → Ty) : LocalTypes := fun x t =>
  match scope.lookup x with
  | some b => b.Instances G t
  | none => t = G x

/-- The types of the locals inside a function. -/
def enterTypes (G : Local → Ty) (ps : List Local) (ts : List Ty) (x : Local) : Ty :=
  ((ps.zip ts).lookup x).getD (G x)

theorem enterTypes_of_notMem {ts : List Ty} {x : Local} (h : x ∉ ps) :
    enterTypes G ps ts x = G x := by
  rw [enterTypes, lookup_zip_of_notMem h, Option.getD_none]

/-- Parameters of a function have no part in the types of the `let`s around it. -/
theorem LetScope.types_enter (h : scope.Inside bound) (hps : ∀ p ∈ ps, p ∉ bound) (G : Local → Ty)
    (ts : List Ty) : scope.types (enterTypes G ps ts) = (scope.types G).enter ps ts := by
  funext x
  cases hx : (ps.zip ts).lookup x with
  | some t =>
    have hxps : x ∈ ps := by
      by_contra hxps
      cases hx.symm.trans (lookup_zip_of_notMem hxps)
    rw [LocalTypes.enter_of_lookup hx]
    funext u
    simp only [types, h.lookup_eq_none (hps x hxps), enterTypes, hx, Option.getD_some]
  | none =>
    rw [LocalTypes.enter_of_lookup_none hx]
    funext u
    simp only [types]
    split
    · rename_i b hb
      have hG : ∀ z w, b.demands.lookup z = some w → enterTypes G ps ts z = G z := fun z w hw =>
        enterTypes_of_notMem fun hz => hps z hz (h.demands x b hb z ⟨w, hw⟩)
      refine propext (exists_congr fun f => and_congr_right fun _ => ?_)
      exact forall₃_congr fun z w hw => by rw [hG z w hw]
    · simp only [enterTypes, hx, Option.getD_none]

end Types

/-! ## Runs that find a typing -/

section Runs

variable {α : Type} {order : α → JoinOrder} {scope inner : LetScope} {k k₁ k₂ : TyVar}
  {f g : TyVar → Ty} {G : Local → Ty} {e : Expr α} {n : Note α} {T : Ty}

/-- Whether inference finds a typing that becomes a tree of types by a replacement, where the
parameters have the types `G`. -/
def Finds (order : α → JoinOrder) (scope : LetScope) (G : Local → Ty) (e : Expr α) (k : TyVar)
    (d : Expr Ty) : Prop :=
  ∃ t k' f, (inferInBy order scope e).run k = .ok (t, k') ∧ t.expr.map (Ty.bind f) = d ∧
    t.demands.MetAt f G

theorem Typing.ty_bind {t : Typing} {d : Expr Ty} (h : t.expr.map (Ty.bind f) = d) :
    t.ty.bind f = d.ann := by
  rw [← h, Expr.ann_map, Typing.ty]

theorem finds_literal (v : Literal) (k : TyVar) :
    Finds order scope G (.literal v n) k (.literal v ⟨n.range, v.ty⟩) :=
  ⟨_, k, .var, rfl, by cases v <;> rfl, nofun⟩

theorem finds_localVar {x : Local} (hT : scope.types G x T) (k : TyVar) :
    Finds order scope G (.localVar x n) k (.localVar x ⟨n.range, T⟩) := by
  unfold LetScope.types at hT
  unfold Finds inferInBy
  cases hx : scope.lookup x with
  | some b =>
    rw [hx] at hT
    obtain ⟨f, rfl, hmet⟩ := hT
    obtain ⟨g, hg⟩ := Subst.exists_bind_toFun_fresh b.vars k f
    have hbind : ∀ t : Ty, (∀ v ∈ t.vars, v ∈ b.vars) →
        (t.apply (Subst.fresh b.vars k)).bind g = t.bind f := fun t ht => by
      rw [Ty.apply_eq_bind, Ty.bind_bind]
      exact Ty.bind_congr fun v hv => hg v (ht v hv)
    refine ⟨⟨.localVar x ⟨n.range, b.ty.apply (Subst.fresh b.vars k)⟩,
      b.demands.apply (Subst.fresh b.vars k)⟩, k + b.vars.length, g, rfl, ?_, fun z u hu => ?_⟩
    · rw [Expr.map, Note.map, hbind _ fun v hv => by simp [LetType.vars, hv]]
    · obtain ⟨w, hw, rfl⟩ := Demands.lookup_apply_eq_some.1 hu
      rw [hbind w fun v hv => ?_, hmet z w hw]
      have hm : b.demands.Mentions v := ⟨z, w, hw, hv⟩
      simp [LetType.vars, hm.mem_vars]
  | none =>
    rw [hx] at hT
    subst hT
    refine ⟨⟨.localVar x ⟨n.range, .var k⟩, [(x, .var k)]⟩, k + 1, fun _ => G x, rfl, rfl, ?_⟩
    intro z u hu
    obtain ⟨rfl, rfl⟩ | ⟨-, hu⟩ := lookup_cons_eq_some.1 hu
    · rfl
    · simp at hu

theorem finds_globalVar {v : Var} (hT : v.Admits T) (k : TyVar) :
    Finds order scope G (.globalVar v n) k (.globalVar v ⟨n.range, T⟩) := by
  obtain ⟨u, k', g, hu, rfl⟩ := exists_run_ofVar hT k
  refine ⟨⟨.globalVar v ⟨n.range, u⟩, []⟩, k', g, ?_, rfl, nofun⟩
  simp only [inferInBy, run_bind_eq_ok, run_pure_eq_ok]
  exact ⟨u, k', hu, rfl, rfl⟩

theorem finds_former {φ : Former} {es : List (Expr α)} {ts : List Typing}
    (hφ : φ.Takes es.length) (hts : (inferAllBy order scope es).run k = .ok (ts, k₁))
    (hmet : ∀ d ∈ ts.map (·.demands), d.MetAt f G) (hT : φ.Holds (ts.map (·.ty.bind f)) T) :
    Finds order scope G (φ.expr es n) k
      (φ.expr (ts.map (·.expr.map (Ty.bind f))) ⟨n.range, T⟩) := by
  have hφ' : φ.Takes ts.length := inferAll_length hts ▸ hφ
  have hr := inferAllBy_ranges hts
  obtain ⟨τ, eqs, parts, k₂, g, hτ, hgf, hg, rfl⟩ := φ.exists_run_ty hφ' hT fun t ht v hv =>
    (hr.tys _ (tys_subset ts (List.mem_map_of_mem ht)) v hv).2
  obtain ⟨t, k', f', ht, hnode, hmet'⟩ := (φ.within hφ' hr hτ n.range).exists_run_solve
    (order n.ann) n.range hg fun d hd => hr.metAt_congr (fun v hv => hgf v hv.2)
      (φ.parts_subset hφ' hτ hd) (hmet d (φ.parts_subset hφ' hτ hd))
  refine ⟨t, k', f', (run_former hφ).2 ⟨ts, k₁, τ, eqs, parts, k₂, hts, hφ', hτ, ht⟩, ?_, hmet'⟩
  rw [hnode, Expr.map_former, List.map_map]
  refine congrArg (φ.expr · ⟨n.range, τ.bind g⟩) (List.map_congr_left fun t ht => ?_)
  exact Expr.map_congr fun a ha => hr.bind_congr (fun v hv => hgf v hv.2) a
    (List.mem_flatMap.2 ⟨t, ht, ha⟩)

theorem finds_letIn {bs : List (Local × Expr α)} {ts : List (Local × Typing)} {u : Typing}
    (hts : (inferBindingsBy order scope bs).run k = .ok ((ts, inner), k₁))
    (hu : (inferInBy order inner e).run k₁ = .ok (u, k₂))
    (hf : ∀ d ∈ ts.map (·.2.demands), d.MetAt f G) (hg : u.demands.MetAt g G) :
    Finds order scope G (.letIn bs e n) k
      (.letIn (bindBindings f ts) (u.expr.map (Ty.bind g)) ⟨n.range, u.ty.bind g⟩) := by
  have hrs := inferBindingsBy_ranges hts
  have hru := inferInBy_ranges e hu
  have hlow : ∀ v, Between k k₁ v → below k₁ f g v = f v := fun v hv => below_of_lt f g hv.2
  have hhigh : ∀ v, Between k₁ k₂ v → below k₁ f g v = g v := fun v hv => below_of_le f g hv.1
  have hmets : ∀ d ∈ ts.map (·.2.demands) ++ [u.demands], d.MetAt (below k₁ f g) G :=
    List.forall_mem_append.2 ⟨fun d hd => hrs.metAt_congr hlow hd (hf d hd),
      by simpa using hru.metAt_congr hhigh (List.mem_singleton_self _) hg⟩
  obtain ⟨w, k', f', hw, hnode, hmet⟩ := (letJoin_within hrs hru n.range).exists_run_solve
    (order n.ann) n.range (Unify.solves_nil _) hmets
  refine ⟨_, k', f', run_letIn.2 ⟨ts, inner, k₁, u, k₂, w, hts, hu, hw, rfl⟩, ?_,
    fun z t ht => hmet z t (Demands.lookup_without_eq_some.1 ht).2⟩
  have hbs : ts.map (fun b => (b.1, b.2.expr.map (Ty.bind (below k₁ f g)))) = bindBindings f ts :=
    List.map_congr_left fun b hb => congrArg (Prod.mk b.1) (Expr.map_congr fun a ha =>
      hrs.bind_congr hlow a (List.mem_flatMap.2 ⟨b, hb, ha⟩))
  show w.expr.map (Ty.bind f') = _
  rw [hnode, Expr.map, Expr.mapBindings_eq_map, List.map_map,
    Expr.map_congr (hru.bind_congr hhigh), Note.map,
    hru.bind_congr hhigh u.ty u.expr.ann_mem_anns]
  exact congrArg (Expr.letIn · _ _) hbs

theorem finds_fn {ps : List Local} {u : Typing} {Ts : List Ty} (hnodup : ps.Nodup)
    (hlen : Ts.length = ps.length) (hu : (inferInBy order scope e).run k = .ok (u, k₁))
    (hmet : u.demands.MetAt f (enterTypes G ps Ts)) :
    Finds order scope G (.fn ps e n) k
      (.fn ps (u.expr.map (Ty.bind f)) ⟨n.range, .fn Ts (u.ty.bind f)⟩) := by
  have hr := inferInBy_ranges e hu
  have hparams : ∀ x ∈ ps, ∀ t, u.demands.lookup x = some t →
      (ps.zip Ts).lookup x = some (t.bind f) := fun x hx t ht => by
    obtain ⟨T, hT, -⟩ := Context.exists_lookup_params (c := []) hlen hx
    rw [hmet x t ht, enterTypes, hT, Option.getD_some]
  obtain ⟨ts, k', g, hts, hgf, hg⟩ := exists_run_params hlen hnodup
    (fun v hv => (hr.demands _ (List.mem_singleton_self _) v hv).2) hparams
  have hgf' : ∀ v, Between k k₁ v → g v = f v := fun v hv => hgf v hv.2
  refine ⟨_, k', g, run_fn.2 ⟨u, k₁, ts, hu, hts, rfl⟩, ?_, fun x t ht => ?_⟩
  · rw [Expr.map, Note.map, Expr.map_congr (hr.bind_congr hgf'), Ty.bind, Ty.bindAll_eq_map, hg,
      hr.bind_congr hgf' u.ty u.expr.ann_mem_anns]
  · obtain ⟨hx, ht⟩ := Demands.lookup_without_eq_some.1 ht
    rw [hr.metAt_congr hgf' (List.mem_singleton_self _) hmet x t ht, enterTypes_of_notMem hx]

end Runs

/-! ## Derivations -/

/-- Whether the locals may be used at all types that a context gives them, where the `let`s have
typings and the parameters have the types `G`, whose variables are fixed. -/
structure LetScope.Covers (scope : LetScope) (G : Local → Ty) (c : Context) : Prop where
  inside : scope.Inside (c.map Prod.fst)
  fixed : ∀ z, (G z).vars ⊆ c.fixed
  admits : ∀ x t, c.lookup x = some t → ∀ u, t.Admits u → scope.types G x u

namespace LetScope.Covers

variable {scope : LetScope} {G : Local → Ty} {c : Context}

theorem params (h : scope.Covers G c) {ps : List Local} {ts : List Ty}
    (hlen : ts.length = ps.length) (hps : ∀ p ∈ ps, p ∉ c.map Prod.fst) :
    scope.Covers (enterTypes G ps ts) (c.params ps ts) := by
  refine ⟨?_, fun z v hv => ?_, fun x t hx u hu => ?_⟩
  · rw [Context.keys_params hlen]
    exact h.inside.mono (List.subset_append_right _ _)
  · by_cases hz : z ∈ ps
    · obtain ⟨t, ht, hlookup⟩ := Context.exists_lookup_params (c := c) hlen hz
      rw [enterTypes, ht] at hv
      exact Context.vars_subset_fixed hlookup hv
    · rw [enterTypes_of_notMem hz] at hv
      obtain ⟨y, t, hy, hvt⟩ := Context.mem_fixed.1 (h.fixed z hv)
      exact Context.mem_fixed.2 ⟨y, t, List.mem_append_right _ hy, hvt⟩
  · rw [types_enter h.inside hps]
    by_cases hxp : x ∈ ps
    · obtain ⟨T, hT, hlookup⟩ := Context.exists_lookup_params (c := c) hlen hxp
      obtain rfl := Option.some.inj (hx.symm.trans hlookup)
      rwa [LocalTypes.enter_of_lookup hT]
    · rw [Context.lookup_params_of_not_mem hxp] at hx
      rw [LocalTypes.enter_of_lookup_none (lookup_zip_of_notMem hxp)]
      exact h.admits x t hx u hu

/-- The typing of a binding covers all that the derivation may use its local at. -/
theorem bind (h : scope.Covers G c) (x : Local) {t : Typing} {f : TyVar → Ty}
    (ht : ∀ z, t.demands.IsOn z → z ∈ c.map Prod.fst) (hmet : t.demands.MetAt f G) :
    LetScope.Covers ((x, ⟨t.ty, t.demands.without [x]⟩) :: scope) G (c.bind x (t.ty.bind f)) := by
  refine ⟨h.inside.bind x fun z hz => ht z (Demands.isOn_without.1 hz).2, fun z => ?_,
    fun y lt hy u hu => ?_⟩
  · rw [Context.fixed_bind]
    exact h.fixed z
  · by_cases hyx : y = x
    · subst hyx
      rw [Context.lookup_bind_self] at hy
      obtain rfl := Option.some.inj hy
      obtain ⟨s, rfl, hfix⟩ := hu
      simp only [types, List.lookup_cons_self]
      -- the replacement leaves the types of the parameters as they are
      refine ⟨fun v => (f v).bind s.toFun, ?_, fun z w hw => ?_⟩
      · rw [Ty.apply_eq_bind, Ty.bind_bind]
      · rw [← Ty.bind_bind, hmet z w (Demands.lookup_without_eq_some.1 hw).2, Ty.bind_eq_self_iff]
        exact fun v hv => (Ty.apply_eq_bind s (.var v)).symm.trans (hfix v (h.fixed z hv))
    · rw [Context.lookup_bind_of_ne hyx] at hy
      simpa only [types, lookup_cons_of_ne hyx] using h.admits y lt hy u hu

end LetScope.Covers

section Complete

variable {α : Type} {order : α → JoinOrder} {scope : LetScope} {G : Local → Ty} {c : Context}

/-- Whether inference finds the derivations of an expression, whose nodes carry a type besides what
gives the order of locals. -/
def CompleteOf (order : α → JoinOrder) (p : Expr (α × Ty)) : Prop :=
  ∀ {scope : LetScope} {G : Local → Ty} {c : Context} (k : TyVar),
    (p.map Prod.snd).IsDerivation c → p.Scoped (c.map Prod.fst) → scope.Covers G c →
      Finds order scope G (p.map Prod.fst) k (p.map Prod.snd)

theorem inferAllBy_complete_of {ps : List (Expr (α × Ty))} (h : ∀ p ∈ ps, CompleteOf order p)
    (k : TyVar) (hps : Expr.IsDerivationAll c (ps.map (Expr.map Prod.snd)))
    (hs : Expr.ScopedAll (c.map Prod.fst) ps) (hscope : scope.Covers G c) :
    ∃ ts k' f, (inferAllBy order scope (ps.map (Expr.map Prod.fst))).run k = .ok (ts, k') ∧
      ts.map (·.expr.map (Ty.bind f)) = ps.map (Expr.map Prod.snd) ∧
      ∀ d ∈ ts.map (·.demands), d.MetAt f G := by
  induction ps generalizing k with
  | nil => exact ⟨[], k, .var, run_inferAll_nil.2 ⟨rfl, rfl⟩, rfl, by simp⟩
  | cons p ps ih =>
    obtain ⟨hp, htail⟩ := List.forall_mem_cons.1 h
    obtain ⟨t, k₁, f, ht, hexpr, hmet⟩ := hp k hps.1 hs.1 hscope
    obtain ⟨ts, k', g, hts, hexprs, hmets⟩ := ih htail k₁ hps.2 hs.2
    have hr := inferInBy_ranges _ ht
    have hrs := inferAllBy_ranges hts
    have hlow : ∀ v, Between k k₁ v → below k₁ f g v = f v := fun v hv => below_of_lt f g hv.2
    have hhigh : ∀ v, Between k₁ k' v → below k₁ f g v = g v := fun v hv => below_of_le f g hv.1
    refine ⟨t :: ts, k', below k₁ f g, run_inferAll_cons.2 ⟨t, ts, k₁, ht, hts, rfl⟩, ?_,
      List.forall_mem_cons.2 ⟨hr.metAt_congr hlow (List.mem_singleton_self _) hmet,
        fun d hd => hrs.metAt_congr hhigh hd (hmets d hd)⟩⟩
    rw [List.map_cons, List.map_cons, Expr.map_congr (hr.bind_congr hlow), hexpr, ← hexprs]
    exact congrArg (_ :: ·) (List.map_congr_left fun t ht => Expr.map_congr fun a ha =>
      hrs.bind_congr hhigh a (List.mem_flatMap.2 ⟨t, ht, ha⟩))

theorem inferBindingsBy_complete_of {bs : List (Local × Expr (α × Ty))}
    (h : ∀ b ∈ bs, CompleteOf order b.2) (k : TyVar)
    (hbs : Expr.IsDerivationLet c (bs.map fun b => (b.1, b.2.map Prod.snd)))
    (hs : Expr.ScopedLet (c.map Prod.fst) bs) (hscope : scope.Covers G c) :
    ∃ ts inner k' f, (inferBindingsBy order scope (bs.map fun b => (b.1, b.2.map Prod.fst))).run k =
        .ok ((ts, inner), k') ∧ bindBindings f ts = bs.map (fun b => (b.1, b.2.map Prod.snd)) ∧
      (∀ d ∈ ts.map (·.2.demands), d.MetAt f G) ∧
      inner.Covers G (c.bindAll (bs.map fun b => (b.1, b.2.map Prod.snd))) := by
  induction bs generalizing scope c k with
  | nil => exact ⟨[], scope, k, .var, run_inferBindings_nil.2 ⟨rfl, rfl⟩, rfl, by simp, hscope⟩
  | cons b bs ih =>
    obtain ⟨x, e⟩ := b
    obtain ⟨he, htail⟩ := List.forall_mem_cons.1 h
    obtain ⟨hx, hse, hsbs⟩ := hs
    obtain ⟨t, k₁, f, ht, hexpr, hmet⟩ := he k hbs.1 hse hscope
    have hcovers := hscope.bind x
      (fun z => mem_of_isOn ht ((Expr.scoped_map e _).2 hse) hscope.inside) hmet
    rw [Typing.ty_bind hexpr] at hcovers
    obtain ⟨ts, inner, k', g, hts, hexprs, hmets, hinner⟩ := ih htail k₁ hbs.2 hsbs hcovers
    have hr := (inferInBy_ranges _ ht).without [x]
    have hrs := inferBindingsBy_ranges hts
    have hlow : ∀ v, Between k k₁ v → below k₁ f g v = f v := fun v hv => below_of_lt f g hv.2
    have hhigh : ∀ v, Between k₁ k' v → below k₁ f g v = g v := fun v hv => below_of_le f g hv.1
    have hmet' : (t.demands.without [x]).MetAt f G := fun z w hw =>
      hmet z w (Demands.lookup_without_eq_some.1 hw).2
    refine ⟨_, inner, k', below k₁ f g, run_inferBindings_cons.2 ⟨t, ts, k₁, ht, hts, rfl⟩, ?_,
      List.forall_mem_cons.2 ⟨hr.metAt_congr hlow (List.mem_singleton_self _) hmet',
        fun d hd => hrs.metAt_congr hhigh hd (hmets d hd)⟩, hinner⟩
    rw [bindBindings, List.map_cons, List.map_cons, Expr.map_congr (hr.bind_congr hlow), hexpr,
      ← hexprs]
    exact congrArg (_ :: ·) (List.map_congr_left fun b hb => congrArg (Prod.mk b.1)
      (Expr.map_congr fun a ha => hrs.bind_congr hhigh a (List.mem_flatMap.2 ⟨b, hb, ha⟩)))

/-- **Inference finds every derivation** of an expression, up to a replacement of variables. -/
theorem inferInBy_complete (p : Expr (α × Ty)) : CompleteOf order p := by
  induction p using Expr.indFormer with
  | literal v n =>
    intro scope G c k hd _ _
    simp only [Expr.map, Note.map, show n.ann.2 = v.ty from hd]
    exact finds_literal v k
  | localVar x n =>
    rintro scope G c k ⟨t, hx, hadmits⟩ _ hscope
    exact finds_localVar (hscope.admits x t hx _ hadmits) k
  | globalVar v n => exact fun k hd _ _ => finds_globalVar hd k
  | former φ ps n hφ ih =>
    intro scope G c k hd hs hscope
    rw [Expr.map_former] at hd ⊢
    obtain ⟨hps, hholds⟩ := Expr.isDerivation_former.1 hd
    obtain ⟨ts, k₁, f, hts, hexprs, hmet⟩ :=
      inferAllBy_complete_of ih k hps (Expr.scoped_former.1 hs).1 hscope
    have htys : ts.map (·.ty.bind f) = (ps.map (Expr.map Prod.snd)).map Expr.ann := by
      simp [← hexprs, Typing.ty, Function.comp_def]
    rw [Expr.map_former, ← hexprs]
    exact finds_former (by simpa using hφ) hts hmet (htys ▸ hholds)
  | letIn bs e n ihbs ihe =>
    intro scope G c k hd hs hscope
    simp only [Expr.map, Expr.mapBindings_eq_map] at hd ⊢
    obtain ⟨hbs, he, hann⟩ := hd
    obtain ⟨ts, inner, k₁, f, hts, hexprs, hmets, hinner⟩ :=
      inferBindingsBy_complete_of ihbs k hbs hs.1 hscope
    have hkeys : (c.bindAll (bs.map fun b => (b.1, b.2.map Prod.snd))).map Prod.fst =
        (bs.map Prod.fst).reverse ++ c.map Prod.fst := by
      simp [Context.keys_bindAll, Function.comp_def]
    obtain ⟨u, k₂, g, hu, hexpr, hmet⟩ := ihe k₁ he (hkeys ▸ hs.2) hinner
    have hfinds := finds_letIn (n := n.map Prod.fst) hts hu hmets hmet
    rwa [hexprs, hexpr, Typing.ty_bind hexpr, ← hann] at hfinds
  | fn ps e n ih =>
    rintro scope G c k ⟨ts, hlen, hann, hbody⟩ ⟨hnodup, hps, hs⟩ hscope
    obtain ⟨u, k₁, f, hu, hexpr, hmet⟩ := ih k hbody (by rwa [Context.keys_params hlen])
      (hscope.params hlen hps)
    have hfinds := finds_fn (n := n.map Prod.fst) hnodup hlen hu hmet
    rwa [hexpr, Typing.ty_bind hexpr, ← hann] at hfinds
  | define | declare => exact fun _ _ h => h.elim

end Complete

/-! ## Forms at top level -/

/-- Whether the variables of declared types lie below a bound. They lie below the next type variable
of a session, since they were taken from its supply. -/
def Env.DeclaredBelow (env : Env) (k : TyVar) : Prop :=
  ∀ g v t, env.var? g = some v → v.declared = some t → ∀ x ∈ t.vars, x < k

theorem Session.Reachable.declaredBelow {s : Session} (h : s.Reachable) :
    s.env.DeclaredBelow s.supply.tyVar :=
  fun g v t hv ht => (h.coherent.coherent g v hv).declared_lt t ht

theorem inferInBy_principal {order : Unit → JoinOrder} {d : Expr Ty} (hd : d.IsDerivation [])
    (hscoped : d.erase.Scoped []) (k : TyVar) :
    ∃ t k', (inferInBy order [] d.erase).run k = .ok (t, k') ∧ d.ann.InstanceOf t.ty := by
  have hcovers : LetScope.Covers [] (fun _ => .bool) [] := ⟨⟨nofun, nofun⟩, nofun, nofun⟩
  have hsnd : (d.map fun t => ((), t)).map Prod.snd = d := (d.map_map _ _).trans d.map_id
  have hcomplete : CompleteOf order (d.map fun t => ((), t)) := inferInBy_complete _
  obtain ⟨t, k', f, ht, hf, -⟩ := hcomplete (c := []) k (hsnd.symm ▸ hd)
    ((Expr.scoped_map d []).2 ((Expr.scoped_map d []).1 hscoped)) hcovers
  rw [Expr.map_map] at ht
  refine ⟨t, k', ht, ?_⟩
  rw [← hsnd, ← Typing.ty_bind hf]
  exact Ty.instanceOf_bind _ f

section TopLevel

variable {env : Env} {ns : String} {f : Form} {s s' : Supply} {e : Expr Unit}

theorem infer_principal (henv : env.DeclaredBelow s.tyVar) (hf : f.EvenMaps)
    (ha : (analyse env ns f).run s = .ok (e, s')) {T : Ty} (hT : e.HasType T) :
    ∃ t k, (infer e).run s'.tyVar = .ok (t, k) ∧ T.InstanceOf t.ann := by
  obtain ⟨d, rfl, hd, rfl⟩ := hT
  suffices h : ∃ t k, (inferInBy (fun _ => .firstUse) [] d.erase).run s'.tyVar = .ok (t, k) ∧
      d.ann.InstanceOf t.ty by
    obtain ⟨t, k, ht, hinst⟩ := h
    exact ⟨t.expr, k, run_infer.2 ⟨t, ht, rfl⟩, hinst⟩
  obtain ⟨name, body, n, he, hbody⟩ | ⟨decl, n, he, -⟩ | he := analyse_cases hf ha
  · cases d with
    | define g declared b m =>
      obtain ⟨rfl, rfl, rfl, -⟩ := Expr.define.inj he
      obtain ⟨hb, hann, hdeclared⟩ := hd
      obtain ⟨w, k, hw, hinst⟩ := inferInBy_principal hb hbody.isScoped s'.tyVar
      refine ⟨_, k, run_define.2 ⟨w, hw, fun t ht => ?_, rfl⟩, ?_⟩
      · -- declared variables were there before those of the type that is found
        obtain ⟨v, hv, hvt⟩ := Option.bind_eq_some_iff.1 ht
        refine (Ty.subtypeOf_iff fun x hx hxw => ?_).2 ((hdeclared t ht).trans hinst)
        have hlt : x < s'.tyVar := hbody.takes.tyVar_eq ▸ henv _ v t hv hvt x hx
        have hge := ((inferInBy_ranges _ hw).tys _ w.expr.ann_mem_anns x hxw).1
        exact Nat.not_lt.2 hge hlt
      · show m.ann.InstanceOf .effect
        rw [hann]
        exact .refl _
    | _ => cases he
  · cases d with
    | declare d m =>
      refine ⟨_, s'.tyVar, rfl, ?_⟩
      show m.ann.InstanceOf .effect
      rw [show m.ann = .effect from hd]
      exact .refl _
    | _ => cases he
  · exact inferInBy_principal hd he.isScoped s'.tyVar

/-- **Inference is complete and principal**: of a form that has a type it finds one that all types
of the form are instances of, and it fails on exactly those forms that have no type. That declared
types have used up their variables holds of all sessions (`Session.Reachable.declaredBelow`). -/
theorem infer_complete (henv : env.DeclaredBelow s.tyVar) (hf : f.EvenMaps)
    (ha : (analyse env ns f).run s = .ok (e, s')) :
    (∀ T, e.HasType T → ∃ t k, (infer e).run s'.tyVar = .ok (t, k) ∧ e.HasType t.ann ∧
      T.InstanceOf t.ann) ∧
    ((∃ err, (infer e).run s'.tyVar = .error err) ↔ ∀ T, ¬ e.HasType T) := by
  have hsound : ∀ t k, (infer e).run s'.tyVar = .ok (t, k) → e.HasType t.ann := fun t k ht =>
    ⟨t, erase_of_infer ht, isDerivation_of_infer hf ha ht, rfl⟩
  refine ⟨fun T hT => ?_, fun ⟨err, herr⟩ T hT => ?_, fun hnone => ?_⟩
  · obtain ⟨t, k, ht, hinst⟩ := infer_principal henv hf ha hT
    exact ⟨t, k, ht, hsound t k ht, hinst⟩
  · obtain ⟨t, k, ht, -⟩ := infer_principal henv hf ha hT
    cases herr.symm.trans ht
  · cases hrun : (infer e).run s'.tyVar with
    | error err => exact ⟨err, rfl⟩
    | ok r => exact absurd (hsound r.1 r.2 hrun) (hnone r.1.ann)

end TopLevel

/-- An environment in which `id` has been declared to be of type `(Fn a a)`. -/
def identityDeclared : Env where
  vars := [(⟨userNs, "id"⟩,
    { name := ⟨userNs, "id"⟩
      kind := .declared
      cell := ⟨0, "user/id"⟩
      declared := some (.fn [.var 0] (.var 0)) })]

/-- The form `(def id (fn (x) x))`. -/
def defineIdentity : Form :=
  let sym (s : String) : Form := .atom (.symbol s) .nowhere
  let list (fs : List Form) : Form := .seq .list fs .nowhere
  list [sym "def", sym "id", list [sym "fn", list [sym "x"], sym "x"]]

/-- What analysis makes of `defineIdentity`, with the declared type at its nodes. -/
def identityDerivation : Expr Ty :=
  .define ⟨userNs, "id"⟩ (some (.fn [.var 0] (.var 0)))
    (.fn [⟨"x", 1⟩] (.localVar ⟨"x", 1⟩ ⟨.nowhere, .var 0⟩) ⟨.nowhere, .fn [.var 0] (.var 0)⟩)
    ⟨.nowhere, .effect⟩

theorem declaredBelow_identityDeclared : identityDeclared.DeclaredBelow 1 := by
  intro g v t hv ht x hx
  obtain ⟨-, rfl⟩ : g = ⟨userNs, "id"⟩ ∧ _ := by
    simpa [Env.var?, Table.get?, identityDeclared] using lookup_cons_eq_some.1 hv
  obtain rfl := Option.some.inj ht
  obtain rfl : x = 0 := by simpa [Ty.vars, Ty.varsAll] using hx
  exact Nat.one_pos

theorem infer_complete_defineIdentity :
    ∃ e s', (analyse identityDeclared userNs defineIdentity).run ⟨1, 1⟩ = .ok (e, s') ∧
      e.HasType .effect ∧
      (∀ T, e.HasType T → ∃ t k, (infer e).run s'.tyVar = .ok (t, k) ∧ e.HasType t.ann ∧
        T.InstanceOf t.ann) ∧
      ((∃ err, (infer e).run s'.tyVar = .error err) ↔ ∀ T, ¬ e.HasType T) := by
  have ha : (analyse identityDeclared userNs defineIdentity).run ⟨1, 1⟩ =
      .ok (identityDerivation.erase, ⟨1, 2⟩) := rfl
  refine ⟨_, _, ha, ⟨identityDerivation, rfl, ?_, rfl⟩,
    infer_complete declaredBelow_identityDeclared ?_ ha⟩
  · refine ⟨⟨[.var 0], rfl, rfl, .param (.var 0), rfl, rfl⟩, rfl, fun t ht => ?_⟩
    obtain rfl := Option.some.inj ht
    exact .refl _
  · simp [defineIdentity, Form.EvenMaps, Form.EvenMapsAll]

end TypedLisp
