import TypedLisp.Proofs.Inference.Exactness
import TypedLisp.Proofs.Inference.OrderIndependence
import TypedLisp.Proofs.Inference.Unfolding

/-!
# A `let` is typed as its expansion

Two expressions that admit the same types have the same typings but for the names of variables
(`inferInBy_same`). A `let` and an expansion of its local admit the same types if the local is used,
so a `let` is typed as its expansion (**`letIn_typed_as_expansion`**). If the local is not used then
the `let` is typed exactly if its expression and its body are and their demands go together.
-/

namespace TypedLisp

/-! ## Expressions that admit the same types -/

/-- Whether a renaming of variables makes of a typing the type and the demands of another one. -/
structure Typing.RenamedBy (t : Typing) (ρ : Equiv.Perm TyVar) (t' : Typing) : Prop where
  ty : t'.ty = t.ty.rename ρ
  demands : ∀ z, t'.demands.lookup z = (t.demands.lookup z).map (Ty.rename ρ)

section Same

variable {order : Unit → JoinOrder} {scope : LetScope} {bound : List Local} {e e' : Expr Unit}
variable {k k' l l' : TyVar} {t t' : Typing}

/-- The types that a typing demands of the locals, without any replacement. -/
def Demands.types (d : Demands) (z : Local) : Ty := (d.lookup z).getD .bool

theorem Demands.metAt_types (d : Demands) : d.MetAt .var d.types := fun z t ht => by
  rw [Ty.bind_var, types, ht, Option.getD_some]

theorem admits_types (ht : (inferInBy order scope e).run k = .ok (t, k')) (hs : e.Scoped bound)
    (hscope : scope.Inside bound) : e.Admits (scope.types t.demands.types) t.ty :=
  (inferInBy_exact e _ k _ hs hscope).2 ⟨t, k', .var, ht, Ty.bind_var _, t.demands.metAt_types⟩

/-- Inference succeeds exactly if the expression admits a type for some types of the parameters. -/
theorem exists_run_inferInBy_iff (hs : e.Scoped bound) (hscope : scope.Inside bound) (k : TyVar) :
    (∃ r, (inferInBy order scope e).run k = .ok r) ↔ ∃ G T, e.Admits (scope.types G) T := by
  constructor
  · rintro ⟨⟨t, k'⟩, ht⟩
    exact ⟨_, _, admits_types ht hs hscope⟩
  · rintro ⟨G, T, hT⟩
    obtain ⟨t, k', -, ht, -⟩ := (inferInBy_exact e G k T hs hscope).1 hT
    exact ⟨(t, k'), ht⟩

/-- The typing of an expression that admits more types has the instances of the other one. -/
theorem exists_bind_of_admits (h : ∀ Γ T, e.Admits Γ T → e'.Admits Γ T) (hs : e.Scoped bound)
    (hs' : e'.Scoped bound) (hscope : scope.Inside bound)
    (ht : (inferInBy order scope e).run k = .ok (t, l)) (ht' : (inferInBy order scope e').run k' = .ok (t', l')) :
    ∃ f, t'.ty.bind f = t.ty ∧ t'.demands.MetAt f t.demands.types := by
  obtain ⟨u, _, f, hu, hty, hmet⟩ := (inferInBy_exact e' _ k' _ hs' hscope).1
    (h _ _ (admits_types ht hs hscope))
  obtain ⟨rfl, -⟩ := Prod.mk.inj (Except.ok.inj (ht'.symm.trans hu))
  exact ⟨f, hty, hmet⟩

/-- The typings of expressions that admit the same types demand something of the same locals. -/
theorem isOn_iff_of_admits (h : ∀ Γ T, e.Admits Γ T ↔ e'.Admits Γ T) (hs : e.Scoped bound)
    (hs' : e'.Scoped bound) (hscope : scope.Inside bound)
    (ht : (inferInBy order scope e).run k = .ok (t, l)) (ht' : (inferInBy order scope e').run k' = .ok (t', l'))
    (z : Local) : t.demands.IsOn z ↔ t'.demands.IsOn z := by
  have hadmits := admits_types ht hs hscope
  have hfree : ∀ y, y ∈ e.freeLocals [] ↔ y ∈ e'.freeLocals [] := fun y => by
    rw [hadmits.mem_freeLocals_iff, ((h _ _).1 hadmits).mem_freeLocals_iff, h]
  rw [inferInBy_isOn_iff e ht hs hscope, inferInBy_isOn_iff e' ht' hs' hscope]
  simp only [hfree]

/-- **Expressions that admit the same types are typed the same but for the names of variables.** -/
theorem inferInBy_same (h : ∀ Γ T, e.Admits Γ T ↔ e'.Admits Γ T) (hs : e.Scoped bound)
    (hs' : e'.Scoped bound) (hscope : scope.Inside bound)
    (ht : (inferInBy order scope e).run k = .ok (t, l)) (ht' : (inferInBy order scope e').run k' = .ok (t', l')) :
    ∃ ρ, t.RenamedBy ρ t' := by
  obtain ⟨g, hgty, hg⟩ := exists_bind_of_admits (fun Γ T => (h Γ T).1) hs hs' hscope ht ht'
  obtain ⟨f, hfty, hf⟩ := exists_bind_of_admits (fun Γ T => (h Γ T).2) hs' hs hscope ht' ht
  -- the demands on a local become each other by the same two replacements
  have hdemands : ∀ z u, t.demands.lookup z = some u →
      t'.demands.lookup z = some (u.bind f) ∧ (u.bind f).bind g = u := fun z u hu => by
    obtain ⟨u', hu'⟩ := (isOn_iff_of_admits h hs hs' hscope ht ht' z).1 ⟨u, hu⟩
    have hfu : u.bind f = u' := by rw [hf z u hu, Demands.types, hu', Option.getD_some]
    refine ⟨hfu ▸ hu', ?_⟩
    rw [hfu, hg z u' hu', Demands.types, hu, Option.getD_some]
  have hround : ∀ a ∈ t.ty :: bound.filterMap (t.demands.lookup ·), (a.bind f).bind g = a := by
    refine List.forall_mem_cons.2 ⟨by rw [hfty, hgty], fun a ha => ?_⟩
    obtain ⟨z, -, hz⟩ := List.mem_filterMap.1 ha
    exact (hdemands z a hz).2
  obtain ⟨ρ, -, hρ⟩ := Ty.exists_perm_of_bind (k := 0) hround (by simp) (by simp)
  refine ⟨ρ, ?_, fun z => ?_⟩
  · rw [hρ t.ty List.mem_cons_self, hfty]
  · cases hz : t.demands.lookup z with
    | some u =>
      have hmem : u ∈ bound.filterMap (t.demands.lookup ·) :=
        List.mem_filterMap.2 ⟨z, mem_of_isOn ht hs hscope ⟨u, hz⟩, hz⟩
      rw [(hdemands z u hz).1, Option.map_some, hρ u (List.mem_cons_of_mem _ hmem)]
    | none =>
      refine Option.eq_none_iff_forall_ne_some.2 fun u' hu' => ?_
      obtain ⟨u, hu⟩ := (isOn_iff_of_admits h hs hs' hscope ht ht' z).2 ⟨u', hu'⟩
      cases hz.symm.trans hu

end Same

/-! ## Locals that are not used -/

/-- Whether a substitution makes two demands on the same local the same. -/
def Demands.Unifiable (d d' : Demands) : Prop :=
  ∃ s : Subst, ∀ z t u, d.lookup z = some t → d'.lookup z = some u → t.apply s = u.apply s

namespace Demands

variable {d d' : Demands}

theorem Unifiable.of_metAt {f : TyVar → Ty} {G : Local → Ty} (h : d.MetAt f G)
    (h' : d'.MetAt f G) : d.Unifiable d' := by
  refine ⟨Subst.ofFun f (d.vars ++ d'.vars), fun z t u ht hu => ?_⟩
  have hvars : ∀ v ∈ t.vars, v ∈ d.vars := fun v hv => Mentions.mem_vars ⟨z, t, ht, hv⟩
  have hvars' : ∀ v ∈ u.vars, v ∈ d'.vars := fun v hv => Mentions.mem_vars ⟨z, u, hu, hv⟩
  rw [Ty.apply_ofFun fun v hv => List.mem_append_left _ (hvars v hv),
    Ty.apply_ofFun fun v hv => List.mem_append_right _ (hvars' v hv), h z t ht, h' z u hu]

theorem Unifiable.exists_metAt (h : d.Unifiable d') : ∃ f G, d.MetAt f G ∧ d'.MetAt f G := by
  obtain ⟨s, hs⟩ := h
  have htypes : ∀ z, types (d ++ d') z = ((d.lookup z).or (d'.lookup z)).getD .bool := fun z => by
    rw [types, List.lookup_append]
  refine ⟨s.toFun, fun z => (types (d ++ d') z).apply s, fun z t ht => ?_, fun z u hu => ?_⟩
  · simp only [htypes, ht, Option.some_or, Option.getD_some, Ty.apply_eq_bind]
  · rw [← Ty.apply_eq_bind]
    cases ht : d.lookup z with
    | some t => simp only [htypes, ht, Option.some_or, Option.getD_some, hs z t u ht hu]
    | none => simp only [htypes, ht, Option.none_or, hu, Option.getD_some]

end Demands

section Unused

variable {order : Unit → JoinOrder} {scope : LetScope} {bound : List Local} {x : Local}
  {e body : Expr Unit} {n : Note Unit}

/-- A `let` admits what its body does if its local is not used, but its expression has to admit
something too. -/
theorem admits_letIn_of_unused (hx : x ∉ body.freeLocals []) (Γ : LocalTypes) (T : Ty) :
    (Expr.letIn [(x, e)] body n).Admits Γ T ↔ (∃ U, e.Admits Γ U) ∧ body.Admits Γ T := by
  have hΓ : ∀ S, ∀ y ∈ body.freeLocals [], Γ.bind x S y = Γ y := fun S y hy => by
    have hyx : y ≠ x := fun hyx => hx (hyx ▸ hy)
    rw [LocalTypes.bind_of_ne hyx]
  simp only [Expr.Admits, Expr.Binds, and_assoc, exists_and_left, exists_eq_left]
  exact and_congr_right fun _ =>
    ⟨Expr.Admits.congr body (hΓ _), Expr.Admits.congr body fun y hy => (hΓ _ y hy).symm⟩

theorem exists_run_letIn_of_unused (hs : (Expr.letIn [(x, e)] body n).Scoped bound)
    (hscope : scope.Inside bound) (hx : x ∉ body.freeLocals []) (k : TyVar) :
    (∃ r, (inferInBy order scope (.letIn [(x, e)] body n)).run k = .ok r) ↔
      ∃ t k₁ u k₂, (inferInBy order scope e).run k = .ok (t, k₁) ∧
        (inferInBy order scope body).run k₁ = .ok (u, k₂) ∧ t.demands.Unifiable u.demands := by
  rw [exists_run_inferInBy_iff hs hscope]
  simp only [admits_letIn_of_unused hx]
  obtain ⟨⟨-, hse, -⟩, hsbody⟩ := hs
  have hscope' := hscope.mono (List.subset_cons_self x bound)
  constructor
  · rintro ⟨G, T, ⟨U, hU⟩, hT⟩
    obtain ⟨t, k₁, f, ht, -, hf⟩ := (inferInBy_exact e G k U hse hscope).1 hU
    obtain ⟨u, k₂, g, hu, -, hg⟩ := (inferInBy_exact body G k₁ T hsbody hscope').1 hT
    refine ⟨t, k₁, u, k₂, ht, hu, .of_metAt (f := below k₁ f g) (G := G) ?_ ?_⟩
    · exact hf.congr fun v hv => below_of_lt f g
        ((inferInBy_ranges e ht).demands _ (List.mem_singleton_self _) v hv).2
    · exact hg.congr fun v hv => below_of_le f g
        ((inferInBy_ranges body hu).demands _ (List.mem_singleton_self _) v hv).1
  · rintro ⟨t, k₁, u, k₂, ht, hu, htu⟩
    obtain ⟨f, G, hf, hg⟩ := htu.exists_metAt
    exact ⟨G, _, ⟨_, (inferInBy_exact e G k _ hse hscope).2 ⟨t, k₁, f, ht, rfl, hf⟩⟩,
      (inferInBy_exact body G k₁ _ hsbody hscope').2 ⟨u, k₂, f, hu, rfl, hg⟩⟩

end Unused

/-! ## Expansion -/

/-- **A `let` is typed as its expansion**, in the scope of any `let`s. If its local is used, then
there are expansions with new binders, and inference of each succeeds exactly if that of the `let`
does, with the same type and demands but for the names of variables. If its local is not used, then
inference succeeds exactly if it does on the expression and on the body and their demands can be
unified. -/
theorem letIn_typed_as_expansion {scope : LetScope} {bound : List Local} {x : Local}
    {e body : Expr Unit} {n : Note Unit} (hs : (Expr.letIn [(x, e)] body n).Scoped bound)
    (hscope : scope.Inside bound) :
    (x ∈ body.freeLocals [] → (∃ d, Expr.Expands x e body d ∧ d.Scoped bound) ∧
      ∀ d, Expr.Expands x e body d → d.Scoped bound → ∀ k k',
        ((∃ r, (inferIn scope (.letIn [(x, e)] body n)).run k = .ok r) ↔
          ∃ r, (inferIn scope d).run k' = .ok r) ∧
        ∀ t l t' l', (inferIn scope (.letIn [(x, e)] body n)).run k = .ok (t, l) →
          (inferIn scope d).run k' = .ok (t', l') → ∃ ρ, t.RenamedBy ρ t') ∧
    (x ∉ body.freeLocals [] → ∀ k, (∃ r, (inferIn scope (.letIn [(x, e)] body n)).run k = .ok r) ↔
      ∃ t k₁ u k₂, (inferIn scope e).run k = .ok (t, k₁) ∧
        (inferIn scope body).run k₁ = .ok (u, k₂) ∧ t.demands.Unifiable u.demands) := by
  simp only [inferIn_eq]
  refine ⟨fun hx => ⟨Expr.exists_expands hs.1.2.1 hs.2, fun d hd hsd k k' => ?_⟩,
    exists_run_letIn_of_unused hs hscope⟩
  have hsame := hd.admits_letIn hs hsd hx
  refine ⟨?_, fun t l t' l' ht ht' => inferInBy_same hsame hs hsd hscope ht ht'⟩
  rw [exists_run_inferInBy_iff hs hscope, exists_run_inferInBy_iff hsd hscope]
  simp only [hsame]

/-! In the scope of a parameter `p` and of a local `w`, which a `let` binds to the identity with a
demand on `p`, the local of `(let (x (fn (y) (w y))) (if (x true) (x p) p))` is used at two
types. -/

namespace UsedTwice

def use (x : Local) : Expr Unit := .localVar x ⟨.nowhere, ()⟩

def call (f arg : Expr Unit) : Expr Unit := .call f [arg] ⟨.nowhere, ()⟩

/-- The expression of `x`, whose binder has a number. -/
def wrap (i : Nat) : Expr Unit :=
  .fn [⟨"y", i⟩] (call (use ⟨"w", 2⟩) (use ⟨"y", i⟩)) ⟨.nowhere, ()⟩

/-- The body, with the expressions that are called in it. -/
def body (f g : Expr Unit) : Expr Unit :=
  .ite (call f (.literal (.bool true) ⟨.nowhere, ()⟩)) (call g (use ⟨"p", 1⟩)) (use ⟨"p", 1⟩)
    ⟨.nowhere, ()⟩

def expr : Expr Unit :=
  .letIn [(⟨"x", 3⟩, wrap 4)] (body (use ⟨"x", 3⟩) (use ⟨"x", 3⟩)) ⟨.nowhere, ()⟩

def scope : LetScope := [(⟨"w", 2⟩, ⟨.fn [.var 0] (.var 0), [(⟨"p", 1⟩, .var 1)]⟩)]

theorem inside_scope : scope.Inside [⟨"w", 2⟩, ⟨"p", 1⟩] := by
  have hlookup : ∀ y b, scope.lookup y = some b →
      y = ⟨"w", 2⟩ ∧ b.demands = [(⟨"p", 1⟩, .var 1)] := fun y b hy => by
    obtain ⟨rfl, rfl⟩ | ⟨-, hy⟩ := lookup_cons_eq_some.1 hy
    · exact ⟨rfl, rfl⟩
    · simp at hy
  refine ⟨fun y b hy => by simp [(hlookup y b hy).1], fun y b hy z => ?_⟩
  rw [(hlookup y b hy).2]
  rintro ⟨t, ht⟩
  obtain ⟨rfl, -⟩ | ⟨-, ht⟩ := lookup_cons_eq_some.1 ht
  · simp
  · simp at ht

theorem isCopy_wrap (i : Nat) : Expr.IsCopy (wrap 4) (wrap i) := by
  refine ⟨[⟨"y", i⟩], _, _, rfl, ⟨_, _, ?_, ⟨_, _, ?_, rfl, rfl⟩, .inl ⟨_, rfl⟩⟩, rfl⟩
  · exact ⟨_, rfl⟩
  · exact ⟨_, rfl⟩

theorem expands_body (i j : Nat) : Expr.Expands ⟨"x", 3⟩ (wrap 4)
    (body (use ⟨"x", 3⟩) (use ⟨"x", 3⟩)) (body (wrap i) (wrap j)) := by
  refine ⟨_, _, _, _, ⟨wrap i, _, ?_, ⟨_, _, ⟨_, rfl⟩, rfl, rfl⟩, .inl ⟨_, rfl⟩⟩,
    ⟨wrap j, _, ?_, ⟨_, _, ?_, rfl, rfl⟩, .inl ⟨_, rfl⟩⟩, ?_, rfl⟩
  · exact isCopy_wrap i
  · exact isCopy_wrap j
  · exact ⟨_, rfl⟩
  · exact ⟨_, rfl⟩

end UsedTwice

/-- Each use becomes a copy with a binder of its own. -/
theorem letIn_typed_as_expansion_usedTwice :
    UsedTwice.expr.Scoped [⟨"w", 2⟩, ⟨"p", 1⟩] ∧
    UsedTwice.scope.Inside [⟨"w", 2⟩, ⟨"p", 1⟩] ∧
    Expr.Expands ⟨"x", 3⟩ (UsedTwice.wrap 4)
      (UsedTwice.body (UsedTwice.use ⟨"x", 3⟩) (UsedTwice.use ⟨"x", 3⟩))
      (UsedTwice.body (UsedTwice.wrap 5) (UsedTwice.wrap 6)) ∧
    ∃ t l t' l', (inferIn UsedTwice.scope UsedTwice.expr).run 2 = .ok (t, l) ∧
      (inferIn UsedTwice.scope (UsedTwice.body (UsedTwice.wrap 5) (UsedTwice.wrap 6))).run 9 =
        .ok (t', l') ∧
      t.ty = .var 14 ∧ t'.ty = .var 21 ∧ ∃ ρ, t.RenamedBy ρ t' := by
  have hs : UsedTwice.expr.Scoped [⟨"w", 2⟩, ⟨"p", 1⟩] := by
    simp [UsedTwice.expr, UsedTwice.body, UsedTwice.wrap, UsedTwice.call, UsedTwice.use,
      Expr.Scoped, Expr.ScopedAll, Expr.ScopedLet]
  have hs' : (UsedTwice.body (UsedTwice.wrap 5) (UsedTwice.wrap 6)).Scoped
      [⟨"w", 2⟩, ⟨"p", 1⟩] := by
    simp [UsedTwice.body, UsedTwice.wrap, UsedTwice.call, UsedTwice.use, Expr.Scoped,
      Expr.ScopedAll]
  have hx : (⟨"x", 3⟩ : Local) ∈
      (UsedTwice.body (UsedTwice.use ⟨"x", 3⟩) (UsedTwice.use ⟨"x", 3⟩)).freeLocals [] := by
    simp [UsedTwice.body, UsedTwice.call, UsedTwice.use, Expr.freeLocals, Expr.freeLocalsAll]
  have hty : ((inferIn UsedTwice.scope UsedTwice.expr).run 2).map (·.1.ty) = .ok (.var 14) := by cbv
  have hty' : ((inferIn UsedTwice.scope
      (UsedTwice.body (UsedTwice.wrap 5) (UsedTwice.wrap 6))).run 9).map (·.1.ty) =
        .ok (.var 21) := by cbv
  obtain ⟨-, hall⟩ := (letIn_typed_as_expansion hs UsedTwice.inside_scope).1 hx
  obtain ⟨hiff, hsame⟩ := hall _ (UsedTwice.expands_body 5 6) hs' 2 9
  refine ⟨hs, UsedTwice.inside_scope, UsedTwice.expands_body 5 6, ?_⟩
  cases ht : (inferIn UsedTwice.scope UsedTwice.expr).run 2 with
  | error err =>
    rw [ht] at hty
    cases hty
  | ok r =>
    obtain ⟨⟨t', l'⟩, ht'⟩ := hiff.1 ⟨r, ht⟩
    rw [ht] at hty
    rw [ht'] at hty'
    exact ⟨r.1, r.2, t', l', rfl, ht', Except.ok.inj hty, Except.ok.inj hty',
      hsame r.1 r.2 t' l' ht ht'⟩

end TypedLisp
