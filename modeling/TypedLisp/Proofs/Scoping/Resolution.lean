import TypedLisp.Proofs.Scoping
import TypedLisp.Proofs.Scoping.Denotation

/-!
# Names are resolved by where they stand

Analysis searches a list of locals by name. Here the list is that of the binders around each part of
a form (`Scope.At`), so what analysis makes of a form is what the form denotes: every bare symbol is
the local of the innermost binder of its name around it, else a var.
-/

namespace TypedLisp

open Form (Step namesFrom targets)

variable {c : Scope} {s s' : Supply} {fs : List Form} {p : Form.Place} {r : Range} {e : Expr Unit}

/-! ## New locals at their places -/

/-- What is bound at different places between two supplies: the locals have the numbers in between,
in turn. -/
structure Mints (s s' : Supply) (M : Binders) : Prop where
  ids_eq : M.map (·.2.id) = List.range' s.localId M.length
  localId_eq : s'.localId = s.localId + M.length
  nodup_places : (M.map Prod.fst).Nodup

/-- Whether all binders are below a place, by one of some steps. -/
def Within (p : Form.Place) (S : Step → Prop) (M : Binders) : Prop :=
  ∀ m ∈ M, ∃ σ, S σ ∧ p ++ [σ] <+: m.1

namespace Mints

variable {s s₁ s' : Supply} {M N : Binders}

theorem nil (s : Supply) : Mints s s [] := ⟨rfl, rfl, .nil⟩

theorem one (s : Supply) (q : Form.Place) (name : String) :
    Mints s { s with localId := s.localId + 1 } [(q, ⟨name, s.localId⟩)] :=
  ⟨rfl, rfl, List.nodup_singleton q⟩

theorem append (h : Mints s s₁ M) (h' : Mints s₁ s' N) (hdisj : ∀ m ∈ M, ∀ n ∈ N, m.1 ≠ n.1) :
    Mints s s' (M ++ N) := by
  refine ⟨?_, ?_, ?_⟩
  · rw [List.map_append, h.ids_eq, h'.ids_eq, h.localId_eq, List.length_append,
      List.range'_append_1]
  · rw [h'.localId_eq, h.localId_eq, List.length_append, Nat.add_assoc]
  · rw [List.map_append, List.nodup_append]
    refine ⟨h.nodup_places, h'.nodup_places, ?_⟩
    simpa only [List.forall_mem_map] using hdisj

theorem nodup_locals (h : Mints s s' M) : (M.map Prod.snd).Nodup := by
  refine List.Nodup.of_map Local.id ?_
  rw [List.map_map]
  exact h.ids_eq ▸ List.nodup_range' 1

end Mints

namespace Within

variable {p : Form.Place} {S T : Step → Prop} {M N : Binders}

theorem nil : Within p S [] := nofun

theorem one (p : Form.Place) (σ : Step) (x : Local) : Within p (· = σ) [(p ++ [σ], x)] :=
  List.forall_mem_singleton.2 ⟨σ, rfl, List.prefix_rfl⟩

theorem mono (h : Within p S M) (hST : ∀ σ, S σ → T σ) : Within p T M := fun m hm =>
  let ⟨σ, hσ, hm⟩ := h m hm
  ⟨σ, hST σ hσ, hm⟩

theorem append (h : Within p S M) (h' : Within p S N) : Within p S (M ++ N) :=
  List.forall_mem_append.2 ⟨h, h'⟩

theorem disjoint (h : Within p S M) (h' : Within p T N) (hST : ∀ σ, S σ → ¬ T σ) :
    ∀ m ∈ M, ∀ n ∈ N, m.1 ≠ n.1 := by
  intro m hm n hn heq
  obtain ⟨σ, hσ, hpre⟩ := h m hm
  obtain ⟨τ, hτ, hpre'⟩ := h' n hn
  rw [heq] at hpre
  have hpp : p ++ [σ] = p ++ [τ] :=
    (List.prefix_of_prefix_length_le hpre hpre' (by simp)).eq_of_length (by simp)
  obtain rfl : σ = τ := by simpa using hpp
  exact hST σ hσ hτ

theorem below {σ : Step} (h : Within (p ++ [σ]) S M) : Within p (· = σ) M := by
  intro m hm
  obtain ⟨τ, -, hpre⟩ := h m hm
  exact ⟨σ, rfl, (List.prefix_append _ _).trans hpre⟩

end Within

theorem within_bindersAt (p : Form.Place) (k d : Nat) (xs : List Local) :
    Within p (fun σ => ∃ j, k ≤ j ∧ σ = .binding j) (bindersAt p k d xs) := by
  induction xs generalizing k with
  | nil => exact .nil
  | cons x xs ih =>
    refine List.forall_mem_cons.2 ⟨⟨_, ⟨k, Nat.le_refl k, rfl⟩, List.prefix_rfl⟩, ?_⟩
    refine (ih (k + d)).mono ?_
    rintro σ ⟨j, hj, rfl⟩
    exact ⟨j, by omega, rfl⟩

theorem bindParams_mints {inner : Scope} {xs : List Local} (p : Form.Place) (k : Nat)
    (h : (bindParams c fs).run s = .ok ((xs, inner), s')) :
    Names fs xs ∧ inner = { c with locals := xs.reverse ++ c.locals } ∧
      Mints s s' (bindersAt p k 1 xs) := by
  induction fs generalizing c s xs k with
  | nil =>
    rw [bindParams, run_pure_eq_ok] at h
    obtain ⟨⟨⟩, rfl⟩ := h
    exact ⟨rfl, rfl, .nil s⟩
  | cons f fs ih =>
    simp only [bindParams, run_bind_eq_ok, run_pure_eq_ok, run_liftM_eq_ok, run_newLocal] at h
    obtain ⟨name, _, ⟨hname, rfl⟩, _, _, ⟨rfl, rfl⟩, ⟨ys, _⟩, _, hys, ⟨⟩, rfl⟩ := h
    obtain ⟨hnames, rfl, hmints⟩ := ih (k + 1) hys
    refine ⟨.cons (symbol?_of_bindingName hname) hnames, by simp [Scope.bind], ?_⟩
    refine (Mints.one _ _ _).append hmints
      ((Within.one p (.binding k) _).disjoint (within_bindersAt p (k + 1) 1 ys) ?_)
    rintro σ rfl ⟨j, hj, hσ⟩
    cases hσ
    omega

/-! ## Forms that denote expressions -/

section

variable {env : Env} {ns : String} {root f : Form} {K M N : Binders} {p : Form.Place}
  {e : Expr Unit}

theorem Denotes.left (h : Denotes env ns root (K ++ M) p f e) (N : Binders) :
    Denotes env ns root (K ++ (M ++ N)) p f e :=
  h.mono (by rw [← List.append_assoc]; exact List.subset_append_left _ _)

theorem Denotes.right (h : Denotes env ns root (K ++ N) p f e) (M : Binders) :
    Denotes env ns root (K ++ (M ++ N)) p f e :=
  h.mono (List.append_subset.2 ⟨List.subset_append_left _ _,
    List.Subset.trans (List.subset_append_right M N) (List.subset_append_right _ _)⟩)

end

/-- What analysis makes of the part `f` at `p`: an expression that it denotes, whose binders `M` are
new, while `K` are those around the part. -/
structure Resolved (c : Scope) (root : Form) (K M : Binders) (p : Form.Place)
    (s s' : Supply) (f : Form) (e : Expr Unit) : Prop where
  binders_eq : M.map Prod.snd = e.binders
  mints : Mints s s' M
  within : Within p (fun _ => True) M
  denotes : Denotes c.env c.ns root (K ++ M) p f e

/-- The same for items from the `k`-th on. -/
structure ResolvedAll (c : Scope) (root : Form) (K M : Binders) (p : Form.Place) (k : Nat)
    (s s' : Supply) (fs : List Form) (es : List (Expr Unit)) : Prop where
  binders_eq : M.map Prod.snd = Expr.bindersAll es
  mints : Mints s s' M
  within : Within p (fun σ => ∃ i, k ≤ i ∧ σ = .item i) M
  length_eq : es.length = fs.length
  denotes : ∀ i f e, fs[i]? = some f → es[i]? = some e →
    Denotes c.env c.ns root (K ++ M) (p ++ [.item (i + k)]) f e

/-- The same for names and expressions from the `k`-th binding item on, and what is in scope after
them. -/
structure ResolvedLet (c inner : Scope) (root : Form) (K M : Binders) (p : Form.Place)
    (k : Nat) (s s' : Supply) (items : List Form) (bs : List (Local × Expr Unit)) : Prop where
  binders_eq : M.map Prod.snd = Expr.bindersLet bs
  mints : Mints s s' M
  within : Within p (fun σ => ∃ j, k ≤ j ∧ σ = .binding j) M
  inner_eq : inner = { c with locals := (bs.map Prod.fst).reverse ++ c.locals }
  names : Names (targets items) (bs.map Prod.fst)
  subset : bindersAt p k 2 (bs.map Prod.fst) ⊆ M
  denotes : ∀ j v e, items[2 * j + 1]? = some v → (bs.map Prod.snd)[j]? = some e →
    Denotes c.env c.ns root (K ++ M) (p ++ [.binding (k + 2 * j + 1)]) v e

section

variable {c inner : Scope} {root : Form} {K M N : Binders} {p : Form.Place} {s s₁ s' : Supply}
  {k : Nat} {r : Range} {es : List (Expr Unit)}

theorem ResolvedAll.cons {f : Form}
    (h : Resolved c root K M (p ++ [.item k]) s s₁ f e)
    (h' : ResolvedAll c root K N p (k + 1) s₁ s' fs es) :
    ResolvedAll c root K (M ++ N) p k s s' (f :: fs) (e :: es) := by
  refine ⟨?_, ?_, ?_, by simp [h'.length_eq], ?_⟩
  · rw [List.map_append, h.binders_eq, h'.binders_eq, Expr.bindersAll]
  · refine h.mints.append h'.mints (h.within.below.disjoint h'.within ?_)
    rintro σ rfl ⟨i, hi, hσ⟩
    cases hσ
    omega
  · refine .append (h.within.below.mono ?_) (h'.within.mono ?_)
    · rintro σ rfl
      exact ⟨k, Nat.le_refl k, rfl⟩
    · rintro σ ⟨i, hi, rfl⟩
      exact ⟨i, by omega, rfl⟩
  · rintro (_ | i) g e' hg he'
    · obtain rfl := Option.some.inj hg
      obtain rfl := Option.some.inj he'
      rw [Nat.zero_add]
      exact h.denotes.left N
    · rw [Nat.add_right_comm]
      exact (h'.denotes i g e' hg he').right M

theorem ResolvedAll.collection {b : Bracket}
    {k : Collection} (h : ResolvedAll c root K M p 0 s s' fs es) (hb : k.bracket = b) :
    Resolved c root K M p s s' (.seq b fs r) (.collection k es (plainNote r)) := by
  subst hb
  exact ⟨h.binders_eq, h.mints, h.within.mono fun _ _ => trivial,
    .collection h.length_eq h.denotes⟩

theorem ResolvedAll.call {head : Form} {args : List Form} {callee : Expr Unit}
    (h : ResolvedAll c root K M p 1 s s₁ args es)
    (hhead : ∀ x ∈ specialHeads, head.symbol? ≠ some x)
    (hcallee : Resolved c root K N (p ++ [.item 0]) s₁ s' head callee) :
    Resolved c root K (M ++ N) p s s' (.seq .list (head :: args) r) (Expr.mkCall callee es r) := by
  refine ⟨?_, ?_, ?_, .call hhead h.length_eq (fun i f e hf he => ?_) (hcallee.denotes.right M)⟩
  · rw [List.map_append, h.binders_eq, hcallee.binders_eq, Expr.binders_mkCall]
  · refine h.mints.append hcallee.mints (h.within.disjoint hcallee.within.below ?_)
    rintro σ ⟨i, hi, rfl⟩ hσ
    cases hσ
    omega
  · exact (h.within.mono fun _ _ => trivial).append (hcallee.within.below.mono fun _ _ => trivial)
  · exact (h.denotes i f e hf he).left N

theorem ResolvedAll.ite {head test a b : Form} {et ea eb : Expr Unit}
    (h : ResolvedAll c root K M p 1 s s' [test, a, b] [et, ea, eb])
    (hhead : head.symbol? = some "if") :
    Resolved c root K M p s s' (.seq .list [head, test, a, b] r) (.ite et ea eb (plainNote r)) := by
  refine ⟨?_, h.mints, h.within.mono fun _ _ => trivial, .ite hhead (h.denotes 0 _ _ rfl rfl)
    (h.denotes 1 _ _ rfl rfl) (h.denotes 2 _ _ rfl rfl)⟩
  rw [h.binders_eq, Expr.binders]
  simp [Expr.bindersAll]

/-- A name is bound after its expression, and before the bindings that follow. -/
theorem ResolvedLet.cons {target value : Form} {rest : List Form} {name : String}
    {bs : List (Local × Expr Unit)} (htarget : target.symbol? = some name)
    (h : Resolved c root K M (p ++ [.binding (k + 1)]) s s₁ value e)
    (h' : ResolvedLet (c.bind ⟨name, s₁.localId⟩) inner root
      ((p ++ [.binding k], ⟨name, s₁.localId⟩) :: K) N p (k + 2)
      { s₁ with localId := s₁.localId + 1 } s' rest bs) :
    ResolvedLet c inner root K (M ++ (p ++ [.binding k], ⟨name, s₁.localId⟩) :: N) p k s s'
      (target :: value :: rest) ((⟨name, s₁.localId⟩, e) :: bs) := by
  have hone := Within.one p (.binding k) ⟨name, s₁.localId⟩
  have hrest : Mints s₁ s' ((p ++ [.binding k], ⟨name, s₁.localId⟩) :: N) := by
    refine (Mints.one s₁ _ name).append h'.mints (hone.disjoint h'.within ?_)
    rintro σ rfl ⟨j, hj, hσ⟩
    cases hσ
    omega
  have hother : Within p (fun σ => ∃ j, k ≤ j ∧ j ≠ k + 1 ∧ σ = .binding j)
      ((p ++ [.binding k], ⟨name, s₁.localId⟩) :: N) := by
    refine .append (hone.mono ?_) (h'.within.mono ?_)
    · rintro σ rfl
      exact ⟨k, by omega, by omega, rfl⟩
    · rintro σ ⟨j, hj, rfl⟩
      exact ⟨j, by omega, by omega, rfl⟩
  refine ⟨?_, ?_, ?_, ?_, .cons htarget h'.names, ?_, ?_⟩
  · rw [List.map_append, List.map_cons, h.binders_eq, h'.binders_eq, Expr.bindersLet]
  · refine h.mints.append hrest (h.within.below.disjoint hother ?_)
    rintro σ rfl ⟨j, -, hj, hσ⟩
    cases hσ
    exact hj rfl
  · refine .append (h.within.below.mono ?_) (hother.mono ?_)
    · rintro σ rfl
      exact ⟨k + 1, by omega, rfl⟩
    · rintro σ ⟨j, hj, -, rfl⟩
      exact ⟨j, hj, rfl⟩
  · rw [h'.inner_eq]
    simp [Scope.bind]
  · exact List.cons_subset.2 ⟨by simp, fun m hm =>
      List.mem_append_right _ (List.mem_cons_of_mem _ (h'.subset hm))⟩
  · rintro (_ | j) v ev hv hev
    · obtain rfl := Option.some.inj hv
      obtain rfl := Option.some.inj hev
      exact h.denotes.left _
    · have hplace : k + 2 * (j + 1) + 1 = k + 2 + 2 * j + 1 := by omega
      rw [hplace]
      refine (h'.denotes j v ev hv hev).mono fun m hm => ?_
      simp only [List.mem_append, List.mem_cons] at hm ⊢
      tauto

theorem ResolvedLet.letIn {head body : Form} {items : List Form} {vr : Range}
    {bs : List (Local × Expr Unit)}
    (h : ResolvedLet c inner root K M p 0 s s₁ items bs) (hhead : head.symbol? = some "let")
    (heven : items.length % 2 = 0)
    (hbody : Resolved inner root ((bindersAt p 0 2 (bs.map Prod.fst)).reverse ++ K) N
      (p ++ [.item 2]) s₁ s' body e) :
    Resolved c root K (M ++ N) p s s' (.seq .list [head, .seq .vector items vr, body] r)
      (.letIn bs e (plainNote r)) := by
  have hlen : items.length = 2 * bs.length := by
    have hnames := congrArg List.length h.names
    rw [targets, List.length_map, List.length_map, List.length_map, List.length_map,
      length_pairs] at hnames
    omega
  refine ⟨?_, ?_, ?_, .letIn hhead hlen h.names (fun m hm => ?_) (fun j v ev hv hev => ?_) ?_⟩
  · rw [List.map_append, h.binders_eq, hbody.binders_eq, Expr.binders]
  · refine h.mints.append hbody.mints (h.within.disjoint hbody.within.below ?_)
    rintro σ ⟨j, -, rfl⟩ ⟨⟩
  · exact (h.within.mono fun _ _ => trivial).append (hbody.within.below.mono fun _ _ => trivial)
  · exact List.mem_append_right _ (List.mem_append_left _ (h.subset hm))
  · have hvalue := h.denotes j v ev hv hev
    rw [Nat.zero_add] at hvalue
    exact hvalue.left N
  · obtain rfl := h.inner_eq
    refine hbody.denotes.mono fun m hm => ?_
    have hsub := @h.subset m
    simp only [List.mem_append, List.mem_reverse] at hm ⊢
    tauto

end

theorem atomExpr_resolved {root : Form} {K : Binders} {a : Atom} (s : Supply) (hc : c.At root p K)
    (h : atomExpr c a r = .ok e) : Resolved c root K [] p s s (.atom a r) e := by
  suffices hd : e.binders = [] ∧ Denotes c.env c.ns root (K ++ []) p (.atom a r) e from
    ⟨hd.1.symm, .nil s, .nil, hd.2⟩
  rw [List.append_nil]
  unfold atomExpr at h
  split at h
  · cases h; exact ⟨rfl, .bool⟩
  · cases h; exact ⟨rfl, .int⟩
  · cases h; exact ⟨rfl, .str⟩
  · rename_i x
    rcases hc.local?_eq x with ⟨y, hy, q, hq, hmem⟩ | ⟨hnone, hq⟩
    · rw [hy] at h
      cases h
      exact ⟨rfl, .localVar hq hmem⟩
    · simp only [hnone] at h
      split at h
      · cases h
        exact ⟨rfl, .globalVar hq ‹_›⟩
      · cases h
  · split at h
    · cases h
      exact ⟨rfl, .qualified ‹_›⟩
    · cases h

/-- A function whose parameters are bound from `.binding k` on, if its body is resolved. -/
theorem fnParts_resolved {root f body : Form} {K : Binders} {k : Nat} {params : List Form}
    (hp : root.at? p = some f) (hbinds : f.binds (.item 2) = namesFrom k 1 params)
    (hc : c.At root p K) (h : (fnParts c params body r).run s = .ok (e, s'))
    (hbody : ∀ {inner K' s₁ b}, inner.At root (p ++ [.item 2]) K' →
      (exprForm inner body).run s₁ = .ok (b, s') →
      ∃ M, Resolved inner root K' M (p ++ [.item 2]) s₁ s' body b) :
    ∃ xs b M, e = .fn xs b (plainNote r) ∧ Names params xs ∧ bindersAt p k 1 xs ⊆ M ∧
      M.map Prod.snd = e.binders ∧ Mints s s' M ∧ Within p (fun _ => True) M ∧
      Denotes c.env c.ns root (K ++ M) (p ++ [.item 2]) body b := by
  simp only [fnParts, run_bind_eq_ok, run_pure_eq_ok] at h
  obtain ⟨⟨xs, inner⟩, s₁, hxs, b, _, hb, rfl, rfl⟩ := h
  obtain ⟨hnames, rfl, hmints⟩ := bindParams_mints p k hxs
  obtain ⟨M, hM⟩ := hbody (hc.inner hp hbinds hnames rfl) hb
  have hparams := within_bindersAt p k 1 xs
  refine ⟨xs, b, bindersAt p k 1 xs ++ M, rfl, hnames, List.subset_append_left _ _, ?_, ?_, ?_, ?_⟩
  · rw [List.map_append, bindersAt_map_snd, hM.binders_eq, Expr.binders]
  · refine hmints.append hM.mints (hparams.disjoint hM.within.below ?_)
    rintro σ ⟨j, -, rfl⟩ ⟨⟩
  · exact (hparams.mono fun _ _ => trivial).append (hM.within.below.mono fun _ _ => trivial)
  · refine hM.denotes.mono fun m hm => ?_
    simp only [List.mem_append, List.mem_reverse] at hm ⊢
    tauto

/-- A head that analysis takes for that of a call is not the name of a special form. -/
theorem forall_ne_of_not_special {o : Option String} (hlet : o = some "let" → False)
    (hif : o = some "if" → False) (hfn : o = some "fn" → False)
    (htop : o.filter topLevelHeads.contains = none) : ∀ x ∈ specialHeads, o ≠ some x := by
  rintro x hx rfl
  rcases List.mem_append.1 hx with hx | hx
  · simp only [List.mem_cons, List.not_mem_nil, or_false] at hx
    rcases hx with rfl | rfl | rfl
    · exact hlet rfl
    · exact hif rfl
    · exact hfn rfl
  · simp [hx] at htop

mutual

theorem exprForm_resolved {c : Scope} {root : Form} {K : Binders} {p : Form.Place}
    {s s' : Supply} {e : Expr Unit} (f : Form) (hp : root.at? p = some f) (hc : c.At root p K)
    (h : (exprForm c f).run s = .ok (e, s')) : ∃ M, Resolved c root K M p s s' f e := by
  have hpart := Form.at?_concat hp
  match f with
  | .atom a r =>
    rw [exprForm, run_liftM_eq_ok] at h
    obtain ⟨ha, rfl⟩ := h
    exact ⟨[], atomExpr_resolved _ hc ha⟩
  | .seq .vector items r | .seq .set items r | .seq .map items r =>
    simp only [exprForm, run_bind_eq_ok, run_pure_eq_ok] at h
    obtain ⟨es, _, hes, rfl, rfl⟩ := h
    obtain ⟨M, hM⟩ := exprForms_resolved items 0 (fun i f hf => (hpart _).trans hf)
      (fun i => hc.step hp (Form.binds_of_ne_list (by decide) _)) hes
    exact ⟨M, hM.collection rfl⟩
  | .seq .list [] r =>
    rw [exprForm] at h
    exact absurd h run_throw_ne_ok
  | .seq .list (head :: args) r =>
    unfold exprForm at h
    split at h
    · rename_i hhead
      obtain ⟨items, vr, body, bs, inner, s₁, b, rfl, heven, rfl, hbs, hb⟩ := letForm_cases h
      have hscope : ∀ j, root.enclosing (p ++ [.binding (0 + 2 * j + 1)]) = _ := fun j => by
        rw [Nat.zero_add, Form.enclosing_concat hp, Form.binds_let_binding hhead,
          hc.enclosing_eq]
      obtain ⟨M, hM⟩ := bindingForms_resolved items 0
        (fun j v hv => by rw [Nat.zero_add]; exact (hpart _).trans hv) hc.locals_eq hscope hbs
      obtain ⟨N, hN⟩ := exprForm_resolved body (hpart (.item 2))
        (hc.inner hp (Form.binds_let hhead) hM.names (congrArg Scope.locals hM.inner_eq)) hb
      exact ⟨M ++ N, hM.letIn hhead heven hN⟩
    · rename_i hhead
      obtain ⟨test, a, b, et, ea, eb, rfl, rfl, hes⟩ := ifForm_cases h
      obtain ⟨M, hM⟩ := exprForms_resolved [test, a, b] 1 (fun i f hf => (hpart _).trans hf)
        (fun i => hc.step hp (Form.binds_if hhead _)) hes
      exact ⟨M, hM.ite hhead⟩
    · rename_i hhead
      obtain ⟨b, params, pr, body, hb, rfl, hfn⟩ := fnForm_cases h
      obtain ⟨xs, e, M, rfl, hnames, hsub, hbinders, hmints, hwithin, hbody⟩ :=
        fnParts_resolved hp (Form.binds_fn hhead) hc hfn
          fun hinner hrun => exprForm_resolved body (hpart (.item 2)) hinner hrun
      exact ⟨M, hbinders, hmints, hwithin, .fn hhead hb hnames
        (List.Subset.trans hsub (List.subset_append_right _ _)) hbody⟩
    · split at h
      · exact absurd h run_throw_ne_ok
      · rename_i hlet hif hfn _ htop
        have hhead := forall_ne_of_not_special hlet hif hfn htop
        simp only [run_bind_eq_ok, run_pure_eq_ok] at h
        obtain ⟨es, s₁, hes, callee, _, hcallee, rfl, rfl⟩ := h
        obtain ⟨M, hM⟩ := exprForms_resolved args 1 (fun i f hf => (hpart _).trans hf)
          (fun i => hc.step hp (Form.binds_call hhead _)) hes
        obtain ⟨N, hN⟩ := exprForm_resolved head (hpart (.item 0))
          (hc.step hp (Form.binds_call hhead _)) hcallee
        exact ⟨M ++ N, hM.call hhead hN⟩
termination_by sizeOf f
decreasing_by all_goals (subst_vars; simp_wf; omega)

theorem exprForms_resolved {c : Scope} {root : Form} {K : Binders} {p : Form.Place}
    {s s' : Supply} {es : List (Expr Unit)} (fs : List Form) (k : Nat)
    (hparts : ∀ i f, fs[i]? = some f → root.at? (p ++ [.item (i + k)]) = some f)
    (hscope : ∀ i, c.At root (p ++ [.item i]) K) (h : (exprForms c fs).run s = .ok (es, s')) :
    ∃ M, ResolvedAll c root K M p k s s' fs es := by
  match fs with
  | [] =>
    rw [exprForms, run_pure_eq_ok] at h
    obtain ⟨rfl, rfl⟩ := h
    exact ⟨[], rfl, .nil s, .nil, rfl, nofun⟩
  | f :: fs =>
    simp only [exprForms, run_bind_eq_ok, run_pure_eq_ok] at h
    obtain ⟨e, s₁, he, es', _, hes, rfl, rfl⟩ := h
    have hfirst : root.at? (p ++ [.item k]) = some f := by
      rw [← Nat.zero_add k]
      exact hparts 0 f rfl
    have hrest : ∀ i g, fs[i]? = some g → root.at? (p ++ [.item (i + (k + 1))]) = some g :=
      fun i g hg => by
        rw [← Nat.add_assoc, Nat.add_right_comm]
        exact hparts (i + 1) g hg
    obtain ⟨M, hM⟩ := exprForm_resolved f hfirst (hscope k) he
    obtain ⟨N, hN⟩ := exprForms_resolved fs (k + 1) hrest hscope hes
    exact ⟨M ++ N, .cons hM hN⟩
termination_by sizeOf fs
decreasing_by all_goals (subst_vars; simp_wf <;> omega)

theorem bindingForms_resolved {c inner : Scope} {root : Form} {K : Binders} {p : Form.Place}
    {s s' : Supply} {bs : List (Local × Expr Unit)} (items : List Form) (k : Nat)
    (hparts : ∀ j v, items[2 * j + 1]? = some v →
      root.at? (p ++ [.binding (k + 2 * j + 1)]) = some v)
    (hlocals : c.locals = K.map Prod.snd)
    (hscope : ∀ j, root.enclosing (p ++ [.binding (k + 2 * j + 1)]) =
      ((namesFrom k 2 ((targets items).take j)).reverse.map fun b => (p ++ [b.1], b.2)) ++
        K.map fun m => (m.1, m.2.name))
    (h : (bindingForms c items).run s = .ok ((bs, inner), s')) :
    ∃ M, ResolvedLet c inner root K M p k s s' items bs := by
  match items with
  | [] =>
    rw [bindingForms, run_pure_eq_ok] at h
    · obtain ⟨⟨⟩, rfl⟩ := h
      exact ⟨[], rfl, .nil s, .nil, rfl, rfl, List.nil_subset _, nofun⟩
    · exact nofun
  | [f] =>
    rw [bindingForms, run_pure_eq_ok] at h
    · obtain ⟨⟨⟩, rfl⟩ := h
      exact ⟨[], rfl, .nil s, .nil, rfl, rfl, List.nil_subset _, nofun⟩
    · exact nofun
  | target :: value :: rest =>
    simp only [bindingForms, run_bind_eq_ok, run_pure_eq_ok, run_liftM_eq_ok, run_newLocal] at h
    obtain ⟨name, _, ⟨hname, rfl⟩, e, s₁, he, _, _, ⟨rfl, rfl⟩, ⟨bs', _⟩, _, hbs, ⟨⟩, rfl⟩ := h
    have htarget := symbol?_of_bindingName hname
    obtain ⟨M, hM⟩ := exprForm_resolved value (hparts 0 value rfl) ⟨hlocals, hscope 0⟩ he
    -- From the next binding on, the name is the innermost of those around.
    have hnext : ∀ j, k + 2 + 2 * j + 1 = k + 2 * (j + 1) + 1 := by omega
    have hscope' : ∀ j, root.enclosing (p ++ [.binding (k + 2 + 2 * j + 1)]) =
        ((namesFrom (k + 2) 2 ((targets rest).take j)).reverse.map fun b => (p ++ [b.1], b.2)) ++
          ((p ++ [.binding k], (⟨name, s₁.localId⟩ : Local)) :: K).map fun m =>
            (m.1, m.2.name) := fun j => by
      rw [hnext, hscope (j + 1)]
      simp [targets, pairs, namesFrom, htarget]
    obtain ⟨N, hN⟩ := bindingForms_resolved rest (k + 2)
      (fun j v hv => by rw [hnext]; exact hparts (j + 1) v hv)
      (by rw [Scope.bind, hlocals, List.map_cons]) hscope' hbs
    exact ⟨_, .cons htarget hM hN⟩
termination_by sizeOf items
decreasing_by all_goals (subst_vars; simp_wf; omega)

end

/-! ## Forms at top level -/

/-- `M` gives every binder of a form one local, unlike all others, and with these the form denotes
an expression. -/
structure LexicallyResolved (env : Env) (ns : String) (M : Binders) (f : Form)
    (e : Expr Unit) : Prop where
  binders_eq : M.map Prod.snd = e.binders
  nodup_places : (M.map Prod.fst).Nodup
  nodup_binders : e.binders.Nodup
  denotes : DenotesTop env ns M f e

section

variable {env : Env} {ns : String} {f : Form} {M : Binders} {s s' : Supply}
  {e : Expr Unit}
variable {args : List Form}

theorem Mints.lexicallyResolved (h : Mints s s' M) (hM : M.map Prod.snd = e.binders)
    (hd : DenotesTop env ns M f e) : LexicallyResolved env ns M f e :=
  ⟨hM, h.nodup_places, hM ▸ h.nodup_locals, hd⟩

theorem exprForm_lexicallyResolved (h : (exprForm { env, ns } f).run s = .ok (e, s')) :
    ∃ M, LexicallyResolved env ns M f e := by
  obtain ⟨M, hM⟩ := exprForm_resolved f rfl (.nil f) h
  exact ⟨M, hM.mints.lexicallyResolved hM.binders_eq (.expr hM.denotes)⟩

theorem defForm_lexicallyResolved {head : Form} (hhead : head.symbol? = some "def")
    (h : (defForm { env, ns } r args).run s = .ok (e, s')) :
    ∃ M, LexicallyResolved env ns M (.seq .list (head :: args) r) e := by
  obtain ⟨target, body, name, b, rfl, rfl, hdef⟩ := defForm_cases h
  rcases hdef with ⟨tr, rfl, hb⟩ | ⟨nameForm, params, tr, rfl, hname, hb⟩
  · have hnone : (Form.seq .list [head, .atom (.symbol name) tr, body] r).binds (.item 2) = [] :=
      rfl
    obtain ⟨M, hM⟩ := exprForm_resolved body rfl ((Scope.At.nil _).step rfl hnone) hb
    exact ⟨M, hM.mints.lexicallyResolved hM.binders_eq (.define hhead hM.denotes)⟩
  · obtain ⟨xs, b, M, rfl, hnames, hsub, hbinders, hmints, -, hbody⟩ :=
      fnParts_resolved (p := []) rfl (Form.binds_def hhead) (.nil _) hb
        fun hinner hrun => exprForm_resolved body rfl hinner hrun
    exact ⟨M, hmints.lexicallyResolved hbinders (.defineFn hhead hname hnames hsub hbody)⟩

theorem declare_lexicallyResolved {head : Form} {x : String} {d : Declaration}
    (hhead : head.symbol? = some x) (hx : x ∈ ["::", "defdata", "defj", "ns"]) :
    ∃ M, LexicallyResolved env ns M (.seq .list (head :: args) r) (.declare d (plainNote r)) :=
  ⟨[], rfl, .nil, .nil, .declare hhead hx⟩

theorem analyse_lexicallyResolved (h : (analyse env ns f).run s = .ok (e, s')) :
    ∃ M, LexicallyResolved env ns M f e := by
  unfold analyse at h
  split at h
  · split at h
    · exact defForm_lexicallyResolved ‹_› h
    · simp only [run_bind_eq_ok, run_pure_eq_ok] at h
      obtain ⟨d, _, -, rfl, rfl⟩ := h
      exact declare_lexicallyResolved ‹_› (by decide)
    · simp only [run_bind_eq_ok, run_pure_eq_ok] at h
      obtain ⟨d, _, -, rfl, rfl⟩ := h
      exact declare_lexicallyResolved ‹_› (by decide)
    · simp only [run_bind_eq_ok, run_pure_eq_ok] at h
      obtain ⟨d, _, -, rfl, rfl⟩ := h
      exact declare_lexicallyResolved ‹_› (by decide)
    · simp only [run_bind_eq_ok, run_pure_eq_ok, run_liftM_eq_ok] at h
      obtain ⟨d, _, -, rfl, rfl⟩ := h
      exact declare_lexicallyResolved ‹_› (by decide)
    · exact exprForm_lexicallyResolved h
  · exact exprForm_lexicallyResolved h

theorem DenotesTop.not_mem_freeLocals {x : Local} (h : DenotesTop env ns M f e)
    (hM : (M.map Prod.fst).Nodup) : x ∉ e.freeLocals [] := by
  have hnone : ¬ ∃ b ∈ f.enclosing [], (b.1, x) ∈ M := by simp [Form.enclosing]
  intro hx
  cases h with
  | declare => cases hx
  | expr h => exact hnone (h.mem_enclosing hM rfl hx)
  | define hhead hbody =>
    exact hnone (mem_enclosing_step (p := []) (σ := .item 2) rfl rfl
      (hbody.mem_enclosing hM rfl hx))
  | defineFn hhead hname hnames hbinders hbody =>
    rw [Expr.freeLocals, Expr.freeLocals] at hx
    obtain ⟨hne, hx⟩ := (Expr.mem_freeLocals _ _).1 hx
    rw [List.append_nil] at hne
    exact hnone (mem_enclosing_inner (p := []) (σ := .item 2) hM rfl (Form.binds_def hhead) hnames
      hbinders hne (hbody.mem_enclosing hM rfl hx))

/-- **Analysis resolves names lexically**: each binder becomes a local of its own, a bare symbol is
the local of the innermost binder of its name around it and else a var, and the tree is closed. -/
theorem analyse_lexical (h : (analyse env ns f).run s = .ok (e, s')) :
    (∃ M, LexicallyResolved env ns M f e) ∧ e.closedOver [] = [] := by
  obtain ⟨M, hM⟩ := analyse_lexicallyResolved h
  refine ⟨⟨M, hM⟩, List.eq_nil_iff_forall_not_mem.2 fun x hx => ?_⟩
  exact hM.denotes.not_mem_freeLocals hM.nodup_places (Expr.mem_closedOver.1 hx).2

end

/-! A form in which every name is shadowed, and a parameter is called `if`:
`(def (f if) (let [x 1 x [x]] (fn (x x) (if if x x))))`. -/

def shadowed : Form :=
  let sym (x : String) : Form := .atom (.symbol x) .nowhere
  let list (fs : List Form) : Form := .seq .list fs .nowhere
  let vector (fs : List Form) : Form := .seq .vector fs .nowhere
  list [sym "def", list [sym "f", sym "if"],
    list [sym "let", vector [sym "x", .atom (.int 1) .nowhere, sym "x", vector [sym "x"]],
      list [sym "fn", list [sym "x", sym "x"], list [sym "if", sym "if", sym "x", sym "x"]]]]

/-- Its tree: the last list is a conditional, and its test is the parameter. -/
def shadowedExpr : Expr Unit :=
  let n := plainNote .nowhere
  .define ⟨"user", "f"⟩ none (.fn [⟨"if", 1⟩]
    (.letIn [(⟨"x", 2⟩, .literal (.int 1) n),
        (⟨"x", 3⟩, .collection .vector [.localVar ⟨"x", 2⟩ n] n)]
      (.fn [⟨"x", 4⟩, ⟨"x", 5⟩]
        (.ite (.localVar ⟨"if", 1⟩ n) (.localVar ⟨"x", 5⟩ n) (.localVar ⟨"x", 5⟩ n) n) n) n) n) n

theorem analyse_shadowed :
    (analyse {} "user" shadowed).run {} = .ok (shadowedExpr, { localId := 6 }) := rfl

theorem analyse_lexical_shadowed :
    (analyse {} "user" shadowed).run {} = .ok (shadowedExpr, { localId := 6 }) ∧
      (∃ M, LexicallyResolved {} "user" M shadowed shadowedExpr) ∧
      shadowedExpr.closedOver [] = [] :=
  ⟨analyse_shadowed, analyse_lexical analyse_shadowed⟩

end TypedLisp
