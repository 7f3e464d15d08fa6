import TypedLisp.Proofs.Inference.FreeLocals
import TypedLisp.Proofs.Renaming
import TypedLisp.Proofs.Scoping

/-!
# Soundness of inference

What `infer` finds is a derivation. Later solutions still go over the typing of a part, so the
statement for a part is that it becomes a derivation under every replacement of variables that
*fits* it (`Fits`): the demands hold in the context, and the variables that no later solution can
know, since neither the type nor the demands show them, stay as they are.
-/

namespace TypedLisp

variable {α : Type} {order : α → JoinOrder} {es : List (Expr α)} {scope inner : LetScope}
  {k k' : TyVar} {ts : List Typing} {f : TyVar → Ty} {bs : List (Local × Expr α)} {e : Expr α}

/-- The replacement by a substitution and then by another replacement. -/
def Subst.followedBy (s : Subst) (f : TyVar → Ty) (v : TyVar) : Ty := (s.toFun v).bind f

theorem Ty.bind_followedBy (s : Subst) (f : TyVar → Ty) (t : Ty) :
    t.bind (s.followedBy f) = (t.apply s).bind f := by
  rw [Ty.apply_eq_bind, Ty.bind_bind]
  rfl

theorem Expr.map_apply (s : Subst) (f : TyVar → Ty) (e : Expr Ty) :
    (e.apply s).map (Ty.bind f) = e.map (Ty.bind (s.followedBy f)) := by
  rw [Expr.apply, Expr.map_map]
  exact congrArg (e.map ·) (funext fun t => (Ty.bind_followedBy s f t).symm)

theorem Unify.Solves.followedBy {s : Subst} {es : List Equation} (h : Solves s.toFun es)
    (f : TyVar → Ty) : Solves (s.followedBy f) es := fun e he => by
  rw [Ty.bind_followedBy, Ty.bind_followedBy, Ty.apply_eq_bind, Ty.apply_eq_bind, h e he]

/-- Whether a variable made in a run is not in types nor in demands. -/
def Hidden (tys : List Ty) (ds : List Demands) (k k' : TyVar) (v : TyVar) : Prop :=
  Between k k' v ∧ (∀ t ∈ tys, v ∉ t.vars) ∧ ∀ d ∈ ds, ¬ d.Mentions v

/-- Whether a replacement of variables suits types and demands in a context: it leaves alone what is
hidden, and makes the demands hold. -/
structure Fits (tys : List Ty) (ds : List Demands) (k k' : TyVar) (f : TyVar → Ty) (c : Context) :
    Prop where
  fixes : ∀ v, Hidden tys ds k k' v → f v = .var v
  apart : ∀ v w, Hidden tys ds k k' w → w ∈ (f v).vars → v = w
  met : ∀ d ∈ ds, ∀ x t, d.lookup x = some t → c.lookup x = some (.param (t.bind f))
  avoids : ∀ v, Hidden tys ds k k' v → v ∉ c.fixed

namespace Fits

variable {tys tys' : List Ty} {ds ds' : List Demands} {k k₁ k₂ k₃ : TyVar} {f : TyVar → Ty}
  {c : Context}

/-- A replacement that suits more suits less if what it has to leave alone was so before. -/
theorem of_hidden (h : Fits tys ds k k₂ f c)
    (hidden : ∀ v, Hidden tys' ds' k₁ k₃ v → Hidden tys ds k k₂ v)
    (met : ∀ d ∈ ds', ∀ x t, d.lookup x = some t → c.lookup x = some (.param (t.bind f))) :
    Fits tys' ds' k₁ k₃ f c :=
  ⟨fun v hv => h.fixes v (hidden v hv), fun v w hw => h.apart v w (hidden w hw), met,
    fun v hv => h.avoids v (hidden v hv)⟩

theorem left {us : List Ty} (h : Fits (tys ++ tys') (ds ++ ds') k k₂ f c)
    (h' : Ranges us ds' k₁ k₂) (hus : tys' ⊆ us) : Fits tys ds k k₁ f c := by
  refine h.of_hidden (fun v hv => ?_) fun d hd => h.met d (List.mem_append_left _ hd)
  obtain ⟨hb, htys, hds⟩ := hv
  have later : ¬ Between k₁ k₂ v := fun hv => Nat.lt_irrefl _ (Nat.lt_of_lt_of_le hb.2 hv.1)
  refine ⟨hb.mono (Nat.le_refl _) h'.le, List.forall_mem_append.2 ⟨htys, fun t ht hv => ?_⟩,
    List.forall_mem_append.2 ⟨hds, fun d hd hv => ?_⟩⟩
  · exact later (h'.tys t (hus ht) v hv)
  · exact later (h'.demands d hd v hv)

theorem right {us : List Ty} (h : Fits (tys ++ tys') (ds ++ ds') k k₂ f c)
    (h' : Ranges us ds k k₁) (hus : tys ⊆ us) : Fits tys' ds' k₁ k₂ f c := by
  refine h.of_hidden (fun v hv => ?_) fun d hd => h.met d (List.mem_append_right _ hd)
  obtain ⟨hb, htys, hds⟩ := hv
  have earlier : ¬ Between k k₁ v := fun hv => Nat.lt_irrefl _ (Nat.lt_of_lt_of_le hv.2 hb.1)
  refine ⟨hb.mono h'.le (Nat.le_refl _), List.forall_mem_append.2 ⟨fun t ht hv => ?_, htys⟩,
    List.forall_mem_append.2 ⟨fun d hd hv => ?_, hds⟩⟩
  · exact earlier (h'.tys t (hus ht) v hv)
  · exact earlier (h'.demands d hd v hv)

theorem congr_demands (h : Fits tys ds k k₁ f c) (hds : ∀ d, d ∈ ds' ↔ d ∈ ds) :
    Fits tys ds' k k₁ f c :=
  h.of_hidden (fun _ hv => ⟨hv.1, hv.2.1, fun d hd => hv.2.2 d ((hds d).2 hd)⟩)
    fun d hd => h.met d ((hds d).1 hd)

theorem add_ty (h : Fits [] ds k k₁ f c) (tys : List Ty) : Fits tys ds k k₁ f c :=
  h.of_hidden (fun _ hv => ⟨hv.1, by simp, hv.2.2⟩) h.met

theorem of_without {d : Demands} {xs : List Local} (h : Fits tys [d.without xs] k k₁ f c)
    (hxs : ∀ x t, d.lookup x = some t → x ∉ xs) : Fits tys [d] k k₁ f c := by
  refine h.of_hidden (fun v hv => ⟨hv.1, hv.2.1, ?_⟩) ?_
  · simpa using fun hm => hv.2.2 d (by simp) (Demands.Mentions.of_without hm)
  · simpa using fun x t ht => h.met _ (by simp) x t
      (Demands.lookup_without_eq_some.2 ⟨hxs x t ht, ht⟩)

/-- The context may become larger if the variables of its parameters stay the same. -/
theorem of_context {c' : Context} (h : Fits tys ds k k₁ f c) (hfixed : c'.fixed = c.fixed)
    (hlookup : ∀ x t, c.lookup x = some (.param t) → c'.lookup x = some (.param t)) :
    Fits tys ds k k₁ f c' :=
  ⟨h.fixes, h.apart, fun d hd x t ht => hlookup x _ (h.met d hd x t ht),
    fun v hv => hfixed ▸ h.avoids v hv⟩

/-- **A replacement that suits a node, after the solution found at the node, suits its parts.** -/
theorem of_solved {j : Join} {s : Subst} {t : Typing} (hk : k₁ ≤ k₂) (hs : j.Solved k₂ k₃ s t)
    (hvars : ∀ v, v ∈ j.node.ann.vars ∨ v ∈ Unify.vars j.equations →
      Between k₁ k₂ v ∨ ∃ t ∈ tys, v ∈ t.vars)
    (h : Fits [t.ty] [t.demands] k k₃ f c) : Fits tys j.parts k k₁ (s.followedBy f) c := by
  have hnew : ∀ v, Hidden tys j.parts k k₁ v →
      ¬ (Between k₁ k₂ v ∨ ∃ t ∈ tys, v ∈ t.vars) := by
    rintro v ⟨hb, htys, -⟩ (hv | ⟨t, ht, hv⟩)
    · exact Nat.lt_irrefl _ (Nat.lt_of_lt_of_le hb.2 hv.1)
    · exact htys t ht hv
  -- what is hidden from the node's equations is not in them, and stays hidden at the node
  have outside : ∀ v, Hidden tys j.parts k k₁ v → ¬ j.Involved k₂ k₃ v := by
    rintro v hv (hv' | hv' | ⟨d, hd, hv'⟩)
    · exact hnew v hv (hvars v (.inr hv'))
    · exact Nat.lt_irrefl _ (Nat.lt_of_lt_of_le hv.1.2 (Nat.le_trans hk hv'.1))
    · exact hv.2.2 d hd hv'
  have hidden : ∀ v, Hidden tys j.parts k k₁ v → Hidden [t.ty] [t.demands] k k₃ v := by
    intro v hv
    refine ⟨hv.1.mono (Nat.le_refl _) (Nat.le_trans hk hs.le), ?_, ?_⟩
    · simp only [List.mem_singleton, forall_eq, hs.ty, Ty.apply_eq_bind, Ty.mem_vars_bind]
      rintro ⟨u, hu, hvu⟩
      rcases hs.vars u v hvu with rfl | hvi
      · exact hnew v hv (hvars v (.inl hu))
      · exact outside v hv hvi
    · simpa using fun hm => outside v hv (hs.mentions v hm)
  refine ⟨fun v hv => ?_, fun v w hw hwv => ?_, fun d hd x u hu => ?_, fun v hv => ?_⟩
  · rw [Subst.followedBy, hs.fixes v (outside v hv), Ty.bind, h.fixes v (hidden v hv)]
  · obtain ⟨u, hu, hwu⟩ := Ty.mem_vars_bind.1 hwv
    obtain rfl : u = w := h.apart u w (hidden w hw) hwu
    rcases hs.vars v u hu with rfl | hui
    · rfl
    · exact absurd hui (outside u hw)
  · rw [h.met t.demands (by simp) x _ (hs.lookup d hd x u hu), Ty.bind_followedBy]
  · exact h.avoids v (hidden v hv)

/-- A parameter's type shows what the body demands of it, so a replacement that suits a function
suits its body. -/
theorem of_params {τ : Ty} {d : Demands} {ps : List Local} {ts : List Ty}
    (hts : (ps.mapM (Infer.ofParam d)).run k₁ = .ok (ts, k₂)) (hps : ∀ p ∈ ps, p ∉ c.map Prod.fst)
    (h : Fits [.fn ts τ] [d.without ps] k k₂ f c) :
    Fits [τ] [d] k k₁ f (c.params ps (ts.map (Ty.bind f))) := by
  obtain ⟨hle, -, hvars⟩ := params_vars hts
  have shown : ∀ v, Hidden [τ] [d] k k₁ v → ∀ t ∈ ts, v ∉ t.vars := by
    intro v hv t ht hvt
    rcases hvars t ht v hvt with hb | hm
    · exact Nat.lt_irrefl _ (Nat.lt_of_lt_of_le hv.1.2 hb.1)
    · exact hv.2.2 _ (by simp) hm
  have hidden : ∀ v, Hidden [τ] [d] k k₁ v → Hidden [.fn ts τ] [d.without ps] k k₂ v := by
    intro v hv
    refine ⟨hv.1.mono (Nat.le_refl _) hle, ?_, ?_⟩
    · simp only [List.mem_singleton, forall_eq, Ty.vars, List.mem_append, Ty.mem_varsAll, not_or,
        not_exists, not_and]
      exact ⟨shown v hv, hv.2.1 _ (by simp)⟩
    · simpa using fun hm => hv.2.2 _ (by simp) (Demands.Mentions.of_without hm)
  refine ⟨fun v hv => h.fixes v (hidden v hv), fun v w hw => h.apart v w (hidden w hw), ?_,
    fun v hv hvf => ?_⟩
  · simp only [List.mem_singleton, forall_eq]
    intro x t ht
    by_cases hx : x ∈ ps
    · refine Context.lookup_params_of_mem ?_
      rw [List.zip_map_right]
      exact (lookup_map_snd (Ty.bind f) _ _).trans (by rw [lookup_params hts hx ht]; rfl)
    · refine Context.lookup_params_of_lookup hps (h.met _ (List.mem_singleton_self _) x t ?_)
      exact Demands.lookup_without_eq_some.2 ⟨hx, ht⟩
  · rcases Context.mem_fixed_params hvf with ⟨u, hu, hvu⟩ | hvf
    · obtain ⟨t, ht, rfl⟩ := List.mem_map.1 hu
      obtain ⟨w, hw, hvw⟩ := Ty.mem_vars_bind.1 hvu
      obtain rfl : w = v := h.apart w v (hidden v hv) hvw
      exact shown w hv t ht hw
    · exact h.avoids v (hidden v hv) hvf

end Fits

/-! ## Locals bound by `let` -/

/-- Whether the `let`s in scope are in the context with the same types up to a replacement, which
makes their demands hold and leaves alone what the demands do not show. -/
def LetScope.Agrees (scope : LetScope) (c : Context) : Prop :=
  ∀ y b, scope.lookup y = some b → ∃ f vs, c.lookup y = some (.bound (b.ty.bind f) vs) ∧
    (∀ z t, b.demands.lookup z = some t →
      c.lookup z = some (.param (t.bind f)) ∧ (t.bind f).vars ⊆ vs) ∧
    ∀ v ∈ b.ty.vars, ¬ b.demands.Mentions v → f v = .var v ∧ v ∉ vs

namespace LetScope.Agrees

variable {scope : LetScope} {c c' : Context}

theorem of_context (h : scope.Agrees c)
    (hc : ∀ x t, c.lookup x = some t → c'.lookup x = some t) : scope.Agrees c' := by
  intro y b hy
  obtain ⟨f, vs, hb, hd, hv⟩ := h y b hy
  exact ⟨f, vs, hc y _ hb, fun z t ht => ⟨hc z _ (hd z t ht).1, (hd z t ht).2⟩, hv⟩

theorem admits (h : scope.Agrees c) {x : Local} {b : LetType} (hb : scope.lookup x = some b)
    {s : Subst} {f : TyVar → Ty}
    (hmet : ∀ z t, (b.demands.apply s).lookup z = some t →
      c.lookup z = some (.param (t.bind f))) :
    ∃ t, c.lookup x = some t ∧ t.Admits ((b.ty.apply s).bind f) := by
  obtain ⟨θ, vs, hx, hd, hv⟩ := h x b hb
  refine ⟨_, hx, ?_⟩
  -- on what the demands show, the use agrees with the binding
  have shown : ∀ v, b.demands.Mentions v → s.followedBy f v = θ v ∧ (θ v).vars ⊆ vs := by
    rintro v ⟨z, t, ht, hvt⟩
    obtain ⟨hz, hvs⟩ := hd z t ht
    have hz' := hmet z _ (Demands.lookup_apply_eq_some.2 ⟨t, ht, rfl⟩)
    rw [← Ty.bind_followedBy] at hz'
    have heq : t.bind (s.followedBy f) = t.bind θ :=
      LocalType.param.inj (Option.some.inj (hz'.symm.trans hz))
    exact ⟨Ty.eq_of_bind_eq heq v hvt, fun w hw => hvs (Ty.mem_vars_bind.2 ⟨v, hvt, hw⟩)⟩
  set g : TyVar → Ty := fun w => if w ∈ vs then .var w else s.followedBy f w with hg
  have key : ∀ v ∈ b.ty.vars, (θ v).bind g = s.followedBy f v := by
    intro v hvt
    by_cases hm : b.demands.Mentions v
    · obtain ⟨heq, hvs⟩ := shown v hm
      rw [heq, Ty.bind_eq_self_iff]
      exact fun w hw => if_pos (hvs hw)
    · obtain ⟨hθ, hvs⟩ := hv v hvt hm
      rw [hθ, Ty.bind, hg]
      exact if_neg hvs
  refine ⟨Subst.ofFun g ((b.ty.bind θ).vars ++ vs), ?_, fun v hv => ?_⟩
  · rw [Ty.apply_ofFun (List.subset_append_left _ _), Ty.bind_bind, ← Ty.bind_followedBy]
    exact Ty.bind_congr key
  · rw [Ty.apply_ofFun (by simpa [Ty.vars] using .inr hv), Ty.bind]
    exact if_pos hv

end LetScope.Agrees

/-! ## Expressions -/

/-- Whether the typing of an expression is a derivation under every replacement that fits. -/
def SoundOf (order : α → JoinOrder) (e : Expr α) : Prop :=
  ∀ {scope : LetScope} {c : Context} {k k' : TyVar} {t : Typing} {f : TyVar → Ty},
    (inferInBy order scope e).run k = .ok (t, k') → e.Scoped (c.map Prod.fst) →
    scope.Inside (c.map Prod.fst) → scope.Agrees c → Fits [t.ty] [t.demands] k k' f c →
    (t.expr.map (Ty.bind f)).IsDerivation c

theorem inferAllBy_sound_of (h : ∀ e ∈ es, SoundOf order e) {c : Context}
    (hts : (inferAllBy order scope es).run k = .ok (ts, k'))
    (hes : Expr.ScopedAll (c.map Prod.fst) es) (hon : scope.Inside (c.map Prod.fst))
    (hscope : scope.Agrees c) (hf : Fits (ts.map (·.ty)) (ts.map (·.demands)) k k' f c) :
    ∀ t ∈ ts, (t.expr.map (Ty.bind f)).IsDerivation c := by
  induction es generalizing k ts with
  | nil =>
    obtain ⟨rfl, -⟩ := run_inferAll_nil.1 hts
    simp
  | cons e es ih =>
    obtain ⟨u, us, k₁, hu, hus, rfl⟩ := run_inferAll_cons.1 hts
    obtain ⟨he, htail⟩ := List.forall_mem_cons.1 h
    have hf : Fits ([u.ty] ++ us.map (·.ty)) ([u.demands] ++ us.map (·.demands)) k k' f c := hf
    have hfu := hf.left (inferAllBy_ranges hus) (tys_subset us)
    have hfus := hf.right (inferInBy_ranges e hu) u.ty_subset
    exact List.forall_mem_cons.2 ⟨he hu hes.1 hon hscope hfu, ih htail hus hes.2 hfus⟩

/-- The typed bindings under a replacement. -/
def bindBindings (f : TyVar → Ty) (ts : List (Local × Typing)) : List (Local × Expr Ty) :=
  ts.map fun b => (b.1, b.2.expr.map (Ty.bind f))

theorem inferBindingsBy_sound_of (h : ∀ b ∈ bs, SoundOf order b.2) {c : Context}
    {ts : List (Local × Typing)}
    (hts : (inferBindingsBy order scope bs).run k = .ok ((ts, inner), k'))
    (hbs : Expr.ScopedLet (c.map Prod.fst) bs) (hon : scope.Inside (c.map Prod.fst))
    (hscope : scope.Agrees c) (hf : Fits [] (ts.map (·.2.demands)) k k' f c) :
    Expr.IsDerivationLet c (bindBindings f ts) ∧ inner.Agrees (c.bindAll (bindBindings f ts)) := by
  induction bs generalizing scope c k ts with
  | nil =>
    obtain ⟨⟨⟩, -⟩ := run_inferBindings_nil.1 hts
    exact ⟨trivial, hscope⟩
  | cons b bs ih =>
    obtain ⟨x, e⟩ := b
    obtain ⟨t, us, k₁, ht, hus, rfl⟩ := run_inferBindings_cons.1 hts
    obtain ⟨hx, hes, hbs⟩ := hbs
    obtain ⟨he, htail⟩ := List.forall_mem_cons.1 h
    have hf : Fits ([] ++ []) ([t.demands.without [x]] ++ us.map (·.2.demands)) k k' f c := hf
    -- the type of the binding is not in view of the body, so its own variables are hidden
    have hhead : Fits [] [t.demands.without [x]] k k₁ f c :=
      hf.left (inferBindingsBy_ranges hus) (List.nil_subset _)
    have hkeys : ∀ z, t.demands.IsOn z → z ∈ c.map Prod.fst := fun _ => mem_of_isOn ht hes hon
    have hder : (t.expr.map (Ty.bind f)).IsDerivation c := by
      refine he ht hes hon hscope ((hhead.add_ty _).of_without fun z u hu => ?_)
      exact fun hzx => hx (List.mem_singleton.1 hzx ▸ hkeys z ⟨u, hu⟩)
    set c' : Context := c.bind x (t.ty.bind f)
    have hlookup : ∀ z u, c.lookup z = some u → c'.lookup z = some u := fun z u hz =>
      Context.lookup_bind_of_lookup hx hz _
    have hagrees : LetScope.Agrees ((x, ⟨t.ty, t.demands.without [x]⟩) :: scope) c' := by
      intro y b hy
      obtain ⟨rfl, rfl⟩ | ⟨-, hy⟩ := lookup_cons_eq_some.1 hy
      · refine ⟨f, c.fixed, Context.lookup_bind_self _ _, fun z u hu => ?_, fun v hv hm => ?_⟩
        · have hz := hhead.met _ (by simp) z u hu
          exact ⟨hlookup z _ hz, Context.vars_subset_fixed hz⟩
        · have hidden : Hidden [] [t.demands.without [y]] k k₁ v :=
            ⟨(inferInBy_ranges e ht).tys _ t.expr.ann_mem_anns v hv, by simp, by simpa using hm⟩
          exact ⟨hhead.fixes v hidden, hhead.avoids v hidden⟩
      · exact hscope.of_context hlookup y b hy
    have hon' := hon.bind x (b := ⟨t.ty, t.demands.without [x]⟩) fun z hz =>
      hkeys z (Demands.isOn_without.1 hz).2
    have hrestf : Fits [] (us.map (·.2.demands)) k₁ k' f c' :=
      (hf.right ((inferInBy_ranges e ht).without [x]) (List.nil_subset _)).of_context
        (Context.fixed_bind _ _) fun z u => hlookup z _
    have hann : (t.expr.map (Ty.bind f)).ann = t.ty.bind f := Expr.ann_map _ _
    obtain ⟨hlet, hinner⟩ := ih (c := c') htail hus hbs hon' hagrees hrestf
    simp only [bindBindings, List.map_cons, Expr.IsDerivationLet, Context.bindAll, hann]
    exact ⟨⟨hder, hlet⟩, hinner⟩

theorem inferInBy_sound (e : Expr α) : SoundOf order e := by
  induction e using Expr.indFormer with
  | literal v n =>
    intro scope c k k' t f h _ _ _ _
    obtain ⟨rfl, rfl⟩ := run_pure_eq_ok.1 h
    cases v <;> rfl
  | localVar x n =>
    intro scope c k k' t f h hx hon hscope hf
    unfold inferInBy at h
    split at h
    · rename_i b hb
      simp only [run_bind_eq_ok, run_pure_eq_ok, run_ofLet] at h
      obtain ⟨u, _, ⟨rfl, rfl⟩, rfl, rfl⟩ := h
      exact hscope.admits hb fun z t => hf.met _ (by simp) z t
    · simp only [run_bind_eq_ok, run_pure_eq_ok, run_fresh] at h
      obtain ⟨_, _, ⟨rfl, rfl⟩, rfl, rfl⟩ := h
      exact ⟨_, hf.met [(x, .var k)] (List.mem_singleton_self _) x (.var k) (by simp), rfl⟩
  | globalVar v n =>
    intro scope c k k' t f h _ _ _ _
    simp only [inferInBy, run_bind_eq_ok, run_pure_eq_ok] at h
    obtain ⟨u, _, hu, rfl, rfl⟩ := h
    exact (run_ofVar hu).2.2 f
  | former φ es n hφ ih =>
    intro scope c k k' t f h hes hon hscope hf
    obtain ⟨ts, k₁, τ, eqs, parts, k₂, hts, hφ, hτ, hs⟩ := (run_former hφ).1 h
    obtain ⟨s, hs⟩ := Join.exists_solved hs
    obtain ⟨hes, heven⟩ := Expr.scoped_former.1 hes
    obtain ⟨hle, hvars⟩ := φ.ty_vars hφ hτ
    have hfit : Fits (ts.map (·.ty)) parts k k₁ (s.followedBy f) c :=
      .of_solved hle hs (by rwa [Expr.ann_former]) hf
    have hder := inferAllBy_sound_of ih hts hes hon hscope
      (hfit.congr_demands fun d => (φ.mem_parts hφ hτ (inferAll_length hts ▸ heven)).symm)
    have hholds := φ.holds_of_solves hφ hτ (hs.solves.followedBy f)
    rw [hs.expr, Expr.map_apply, Expr.map_former, Expr.isDerivation_former,
      Expr.isDerivationAll_iff]
    simp only [List.map_map, List.forall_mem_map, Function.comp_def, Expr.ann_map, Note.map]
    exact ⟨hder, hholds⟩
  | letIn bs e n ihbs ihe =>
    intro scope c k k' t f h hes hon hscope hf
    obtain ⟨ts, inner, k₁, u, k₂, w, hts, hu, hs, rfl⟩ := run_letIn.1 h
    obtain ⟨s, hs⟩ := Join.exists_solved hs
    obtain ⟨hbs, he⟩ := hes
    obtain ⟨hinner, hfst, -, -, -⟩ := inferBindingsBy_lead hts hbs hon
    -- the demands of the node are on locals from outside it
    have hkeys : ∀ x t, w.demands.lookup x = some t → x ∉ ts.map Prod.fst := fun x t ht hx =>
      hbs.not_mem (hfst ▸ hx)
        (letIn_mem_of_isOn hts hu hbs he hon ((Demands.isOn_of_solved hs).1 ⟨t, ht⟩))
    have hfit : Fits ([] ++ [u.ty]) (ts.map (·.2.demands) ++ [u.demands]) k k₂
        (s.followedBy f) c := by
      refine .of_solved (Nat.le_refl _) hs (fun v hv => .inr ⟨u.ty, by simp, ?_⟩)
        (hf.of_without hkeys)
      exact hv.resolve_right (by simp [Unify.vars])
    obtain ⟨hlet, hagrees⟩ := inferBindingsBy_sound_of ihbs hts hbs hon hscope
      (hfit.left (inferInBy_ranges e hu) u.ty_subset)
    have hnames : (bindBindings (s.followedBy f) ts).map Prod.fst = bs.map Prod.fst := by
      rw [← hfst]
      simp [bindBindings]
    have hbody : Fits [u.ty] [u.demands] k₁ k₂ (s.followedBy f)
        (c.bindAll (bindBindings (s.followedBy f) ts)) := by
      refine (hfit.right (inferBindingsBy_ranges hts) (List.nil_subset _)).of_context
        (Context.fixed_bindAll _) fun x t hx => ?_
      rw [Context.lookup_bindAll_of_not_mem, hx]
      exact fun hmem => hbs.not_mem (hnames ▸ hmem) (mem_keys_of_lookup hx)
    have hder := ihe hu (by rwa [Context.keys_bindAll, hnames])
      (by rwa [Context.keys_bindAll, hnames]) hagrees hbody
    show (w.expr.map (Ty.bind f)).IsDerivation c
    rw [hs.expr, Expr.map_apply]
    simp only [Expr.map, Expr.mapBindings_eq_map, Expr.IsDerivation, List.map_map,
      Function.comp_def, Note.map, Expr.ann_map]
    exact ⟨hlet, hder, rfl⟩
  | fn ps e n ih =>
    intro scope c k k' t f h hes hon hscope hf
    obtain ⟨u, k₁, ts, hu, hts, rfl⟩ := run_fn.1 h
    obtain ⟨-, hps, hbody⟩ := hes
    obtain ⟨-, hlen, -⟩ := params_vars hts
    have hkeys : (c.params ps (ts.map (Ty.bind f))).map Prod.fst = ps ++ c.map Prod.fst :=
      Context.keys_params (by simp [hlen])
    have hder := ih hu (by rwa [hkeys]) (by rw [hkeys]; exact hon.mono (List.subset_append_right _ _))
      (hscope.of_context fun x t => Context.lookup_params_of_lookup hps) (.of_params hts hps hf)
    refine ⟨ts.map (Ty.bind f), by simp [hlen], ?_, hder⟩
    simp [Note.map, Typing.ty]
  | define => exact fun _ h => h.elim
  | declare => exact fun _ h => h.elim

/-! ## Typed expressions -/

/-- Whether a tree of types is that of an expression: both are one expression whose nodes carry two
things. -/
def Expr.TypedAs (e : Expr α) (d : Expr Ty) : Prop :=
  ∃ p : Expr (α × Ty), p.map Prod.fst = e ∧ p.map Prod.snd = d

theorem Expr.TypedAs.erase {d : Expr Ty} (h : e.TypedAs d) : d.erase = e.erase := by
  obtain ⟨p, rfl, rfl⟩ := h
  rw [Expr.erase, Expr.erase, map_map, map_map]
  rfl

theorem Expr.TypedAs.apply {d : Expr Ty} (h : e.TypedAs d) (s : Subst) :
    e.TypedAs (d.apply s) := by
  obtain ⟨p, rfl, rfl⟩ := h
  refine ⟨p.map (Prod.map id (Ty.apply s)), map_map .., ?_⟩
  rw [Expr.apply, map_map, map_map]
  rfl

/-- Whether inference of an expression only adds types to it. -/
def TypesOf (order : α → JoinOrder) (e : Expr α) : Prop :=
  ∀ {scope : LetScope} {k k' : TyVar} {t : Typing}, (inferInBy order scope e).run k = .ok (t, k') →
    e.TypedAs t.expr

theorem inferAllBy_typedAs_of (h : ∀ e ∈ es, TypesOf order e)
    (hts : (inferAllBy order scope es).run k = .ok (ts, k')) :
    ∃ ps : List (Expr (α × Ty)), ps.map (Expr.map Prod.fst) = es ∧
      ps.map (Expr.map Prod.snd) = ts.map (·.expr) := by
  induction es generalizing k ts with
  | nil =>
    obtain ⟨rfl, -⟩ := run_inferAll_nil.1 hts
    exact ⟨[], rfl, rfl⟩
  | cons e es ih =>
    obtain ⟨u, us, k₁, hu, hus, rfl⟩ := run_inferAll_cons.1 hts
    obtain ⟨he, hes⟩ := List.forall_mem_cons.1 h
    obtain ⟨p, rfl, hp⟩ := he hu
    obtain ⟨ps, rfl, hps⟩ := ih hes hus
    exact ⟨p :: ps, rfl, congrArg₂ List.cons hp hps⟩

theorem inferBindingsBy_typedAs_of (h : ∀ b ∈ bs, TypesOf order b.2) {ts : List (Local × Typing)}
    (hts : (inferBindingsBy order scope bs).run k = .ok ((ts, inner), k')) :
    ∃ ps : List (Local × Expr (α × Ty)), (ps.map fun b => (b.1, b.2.map Prod.fst)) = bs ∧
      (ps.map fun b => (b.1, b.2.map Prod.snd)) = ts.map fun b => (b.1, b.2.expr) := by
  induction bs generalizing scope k ts with
  | nil =>
    obtain ⟨⟨⟩, -⟩ := run_inferBindings_nil.1 hts
    exact ⟨[], rfl, rfl⟩
  | cons b bs ih =>
    obtain ⟨x, e⟩ := b
    obtain ⟨t, us, k₁, ht, hus, rfl⟩ := run_inferBindings_cons.1 hts
    obtain ⟨he, hbs⟩ := List.forall_mem_cons.1 h
    obtain ⟨p, rfl, hp⟩ := he ht
    obtain ⟨ps, rfl, hps⟩ := ih hbs hus
    exact ⟨(x, p) :: ps, rfl, congrArg₂ List.cons (congrArg (Prod.mk x) hp) hps⟩

/-- **Inference adds types to an expression and changes nothing else.** -/
theorem inferInBy_typedAs (e : Expr α) : TypesOf order e := by
  induction e using Expr.indFormer with
  | literal v n =>
    intro scope k k' t h
    obtain ⟨rfl, rfl⟩ := run_pure_eq_ok.1 h
    exact ⟨.literal v ⟨n.range, (n.ann, v.ty)⟩, rfl, rfl⟩
  | localVar x n =>
    intro scope k k' t h
    unfold inferInBy at h
    split at h
    · simp only [run_bind_eq_ok, run_pure_eq_ok] at h
      obtain ⟨u, _, -, rfl, -⟩ := h
      exact ⟨.localVar x ⟨n.range, (n.ann, u.ty)⟩, rfl, rfl⟩
    · simp only [run_bind_eq_ok, run_pure_eq_ok] at h
      obtain ⟨u, _, -, rfl, -⟩ := h
      exact ⟨.localVar x ⟨n.range, (n.ann, u)⟩, rfl, rfl⟩
  | globalVar v n =>
    intro scope k k' t h
    simp only [inferInBy, run_bind_eq_ok, run_pure_eq_ok] at h
    obtain ⟨u, _, -, rfl, -⟩ := h
    exact ⟨.globalVar v ⟨n.range, (n.ann, u)⟩, rfl, rfl⟩
  | former φ es n hφ ih =>
    intro scope k k' t h
    obtain ⟨ts, k₁, τ, eqs, parts, k₂, hts, -, -, hs⟩ := (run_former hφ).1 h
    obtain ⟨s, hs⟩ := Join.exists_solved hs
    obtain ⟨ps, rfl, hps⟩ := inferAllBy_typedAs_of ih hts
    rw [hs.expr]
    refine .apply ⟨φ.expr ps ⟨n.range, (n.ann, τ)⟩, Expr.map_former .., ?_⟩ s
    rw [Expr.map_former, hps]
    rfl
  | letIn bs e n ihbs ihe =>
    intro scope k k' t h
    obtain ⟨ts, inner, k₁, u, k₂, w, hts, hu, hs, rfl⟩ := run_letIn.1 h
    obtain ⟨s, hs⟩ := Join.exists_solved hs
    obtain ⟨ps, rfl, hps⟩ := inferBindingsBy_typedAs_of ihbs hts
    obtain ⟨p, rfl, hp⟩ := ihe hu
    show Expr.TypedAs _ w.expr
    rw [hs.expr]
    refine .apply ⟨.letIn ps p ⟨n.range, (n.ann, u.ty)⟩, ?_, ?_⟩ s
    · rw [Expr.map, Expr.mapBindings_eq_map]
      rfl
    · rw [Expr.map, Expr.mapBindings_eq_map, hps, hp]
      rfl
  | fn ps e n ih =>
    intro scope k k' t h
    obtain ⟨u, k₁, ts, hu, hts, rfl⟩ := run_fn.1 h
    obtain ⟨p, rfl, hp⟩ := ih hu
    exact ⟨.fn ps p ⟨n.range, (n.ann, .fn ts u.ty)⟩, rfl, congrArg (Expr.fn ps · _) hp⟩
  | define g declared e n ih =>
    intro scope k k' t h
    obtain ⟨u, hu, -, rfl⟩ := run_define.1 h
    obtain ⟨p, rfl, hp⟩ := ih hu
    exact ⟨.define g declared p ⟨n.range, (n.ann, .effect)⟩, rfl,
      congrArg (Expr.define g declared · _) hp⟩
  | declare d n =>
    intro scope k k' t h
    obtain ⟨rfl, rfl⟩ := run_pure_eq_ok.1 h
    exact ⟨.declare d ⟨n.range, (n.ann, .effect)⟩, rfl, rfl⟩

/-! ## Forms at top level -/

theorem erase_self (e : Expr Unit) : e.erase = e := e.map_id

theorem inferInBy_isDerivation (he : e.Scoped []) {t : Typing}
    (h : (inferInBy order [] e).run k = .ok (t, k')) : t.expr.IsDerivation [] := by
  have hinside : LetScope.Inside [] [] := ⟨nofun, nofun⟩
  have hfits : Fits [t.ty] [t.demands] k k' .var [] := by
    refine ⟨fun _ _ => rfl, fun v w _ hw => ?_, ?_, fun v _ => by simp [Context.fixed]⟩
    · simpa [Ty.vars, eq_comm] using hw
    · simp only [List.mem_singleton, forall_eq]
      exact fun x u hu => absurd (mem_of_isOn h he hinside ⟨u, hu⟩) List.not_mem_nil
  have hder := inferInBy_sound e (c := []) h he hinside nofun hfits
  have hid : t.expr.map (Ty.bind .var) = t.expr := by
    rw [show Ty.bind .var = id from funext Ty.bind_var]
    exact Expr.map_id _
  rwa [hid] at hder

section TopLevel

variable {env : Env} {ns : String} {f : Form} {s s' : Supply} {e : Expr Unit} {k k' : TyVar}
  {t : Expr Ty}

theorem run_infer : (infer e).run k = .ok (t, k') ↔
    ∃ u, (inferInBy (fun _ => .firstUse) [] e).run k = .ok (u, k') ∧ u.expr = t := by
  rw [← run_inferBy, inferBy_firstUse, erase_self]

theorem erase_of_infer (ht : (infer e).run k = .ok (t, k')) : t.erase = e := by
  obtain ⟨u, hu, rfl⟩ := run_infer.1 ht
  rw [(inferInBy_typedAs e hu).erase, erase_self]

theorem isDerivation_of_infer (hf : f.EvenMaps) (ha : (analyse env ns f).run s = .ok (e, s'))
    (ht : (infer e).run k = .ok (t, k')) : t.IsDerivation [] := by
  obtain ⟨u, hu, rfl⟩ := run_infer.1 ht
  obtain ⟨name, body, n, rfl, hbody⟩ | ⟨d, n, rfl, -⟩ | he := analyse_cases hf ha
  · obtain ⟨w, hw, hsub, rfl⟩ := run_define.1 hu
    refine ⟨inferInBy_isDerivation hbody.isScoped hw, rfl, fun d hd => ?_⟩
    exact Ty.instanceOf_of_subtypeOf (hsub d hd)
  · obtain ⟨rfl, rfl⟩ := run_pure_eq_ok.1 hu
    rfl
  · exact inferInBy_isDerivation he.isScoped hu

/-- **Inference is sound**: what it finds for an analysed form is a derivation, and it is the form
itself with types at its nodes. -/
theorem infer_isDerivation (hf : f.EvenMaps) (ha : (analyse env ns f).run s = .ok (e, s'))
    (ht : (infer e).run k = .ok (t, k')) : t.IsDerivation [] ∧ t.erase = e :=
  ⟨isDerivation_of_infer hf ha ht, erase_of_infer ht⟩

end TopLevel

/-- The type of a form that stands at top level in an environment, with new variables from a
supply. -/
def Form.ty? (env : Env) (ns : String) (supply : Supply) (f : Form) : Option Ty :=
  match (analyse env ns f).run supply with
  | .ok (e, s) =>
    match (infer e).run s.tyVar with
    | .ok (t, _) => some t.ann
    | .error _ => none
  | .error _ => none

theorem Form.exists_of_ty? {env : Env} {ns : String} {supply : Supply} {f : Form} {τ : Ty}
    (h : f.ty? env ns supply = some τ) :
    ∃ e s t k, (analyse env ns f).run supply = .ok (e, s) ∧ (infer e).run s.tyVar = .ok (t, k) ∧
      t.ann = τ := by
  unfold Form.ty? at h
  split at h
  · rename_i e s ha
    split at h
    · rename_i t k ht
      exact ⟨e, s, t, k, ha, ht, Option.some.inj h⟩
    · cases h
  · cases h

/-- The form `(fn (x) (let [g (fn (y) x)] [(g true) (g 1)]))`, in which `g` is used at two types
that share the type of `x`. -/
def constantTwice : Form :=
  let sym (s : String) : Form := .atom (.symbol s) .nowhere
  let list (fs : List Form) : Form := .seq .list fs .nowhere
  let vector (fs : List Form) : Form := .seq .vector fs .nowhere
  list [sym "fn", list [sym "x"],
    list [sym "let", vector [sym "g", list [sym "fn", list [sym "y"], sym "x"]],
      vector [list [sym "g", .atom (.bool true) .nowhere], list [sym "g", .atom (.int 1) .nowhere]]]]

theorem evenMaps_constantTwice : constantTwice.EvenMaps := by
  simp [constantTwice, Form.EvenMaps, Form.EvenMapsAll]

theorem ty?_constantTwice :
    constantTwice.ty? {} userNs {} = some (.fn [.var 7] (.vector (.var 7))) := by cbv

theorem infer_isDerivation_constantTwice :
    ∃ e s t k, (analyse {} userNs constantTwice).run {} = .ok (e, s) ∧
      (infer e).run s.tyVar = .ok (t, k) ∧ t.ann = .fn [.var 7] (.vector (.var 7)) ∧
      t.IsDerivation [] ∧ t.erase = e := by
  obtain ⟨e, s, t, k, ha, ht, hty⟩ := Form.exists_of_ty? ty?_constantTwice
  exact ⟨e, s, t, k, ha, ht, hty, infer_isDerivation evenMaps_constantTwice ha ht⟩

end TypedLisp
