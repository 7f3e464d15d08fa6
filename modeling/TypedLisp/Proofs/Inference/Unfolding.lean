import Mathlib.Data.Fintype.EquivFin
import TypedLisp.Proofs.Inference.Admitted

/-!
# Expressions put in place of locals

One expression *unfolds* to another if it becomes the other one when something is put in place of
each use of a free local, and the locals that it binds get other names (`Expr.Unfolds`). If what
stands in place of a local admits the types at which the local may be used, then the two expressions
admit the same types (**`Expr.admits_unfold`**). Names for the binders can always be found that keep
the result scoped (**`Expr.exists_unfolds`**).
-/

namespace TypedLisp

namespace Expr

variable {es : List (Expr Unit)} {δ : Replacement} {bound bound' : List Local}
  {bs : List (Local × Expr Unit)} {x : Local} {e body d : Expr Unit} {Γ Γ' : LocalTypes}

/-! ## Unfolding -/

/-- What may be put in place of the uses of each local. -/
abbrev Replacement := Local → Expr Unit → Prop

/-- Whether an expression is a use of a local. -/
def IsUse (x : Local) (e : Expr Unit) : Prop := ∃ n, e = .localVar x n

/-- Whether an expression is a call. A var may be called as such or as an expression. -/
def IsCall (callee : Expr Unit) (args : List (Expr Unit)) (e : Expr Unit) : Prop :=
  (∃ n, e = .call callee args n) ∨ ∃ v m n, callee = .globalVar v m ∧ e = .callVar v args n

/-- Where the locals `xs` are bound and get the names `ys`. -/
def Replacement.rename (δ : Replacement) : List Local → List Local → Replacement
  | x :: xs, y :: ys => Function.update (δ.rename xs ys) x (IsUse y)
  | _, _ => δ

mutual

/-- Whether an expression becomes another one if its uses of free locals are replaced as `δ` says
and the locals that it binds get other names. -/
def Unfolds (δ : Replacement) : Expr Unit → Expr Unit → Prop
  | .literal v _, e => ∃ n, e = .literal v n
  | .collection kind items _, e =>
    ∃ items' n, UnfoldsAll δ items items' ∧ e = .collection kind items' n
  | .localVar x _, e => δ x e
  | .globalVar v _, e => ∃ n, e = .globalVar v n
  | .call callee args _, e =>
    ∃ callee' args', Unfolds δ callee callee' ∧ UnfoldsAll δ args args' ∧ IsCall callee' args' e
  | .callVar v args _, e => ∃ args' n, UnfoldsAll δ args args' ∧ e = .callVar v args' n
  | .letIn bindings body _, e =>
    ∃ bindings' δ' body' n, UnfoldsLet δ bindings bindings' δ' ∧ Unfolds δ' body body' ∧
      e = .letIn bindings' body' n
  | .ite test thenBranch elseBranch _, e =>
    ∃ test' then' else' n, Unfolds δ test test' ∧ Unfolds δ thenBranch then' ∧
      Unfolds δ elseBranch else' ∧ e = .ite test' then' else' n
  | .fn params body _, e =>
    ∃ params' body' n, params'.length = params.length ∧
      Unfolds (δ.rename params params') body body' ∧ e = .fn params' body' n
  | .define _ _ _ _, _ => False
  | .declare _ _, _ => False

/-- The same for several expressions. -/
def UnfoldsAll (δ : Replacement) : List (Expr Unit) → List (Expr Unit) → Prop
  | [], es' => es' = []
  | e :: es, es' => ∃ d ds, Unfolds δ e d ∧ UnfoldsAll δ es ds ∧ es' = d :: ds

/-- The same for bindings, after which uses of locals are replaced as `δ'` says. -/
def UnfoldsLet (δ : Replacement) :
    List (Local × Expr Unit) → List (Local × Expr Unit) → Replacement → Prop
  | [], bs', δ' => bs' = [] ∧ δ' = δ
  | (x, e) :: bs, bs', δ' => ∃ y d ds, Unfolds δ e d ∧
    UnfoldsLet (Function.update δ x (IsUse y)) bs ds δ' ∧ bs' = (y, d) :: ds

end

/-- Whether an expression is another one with other names for the locals that it binds. -/
def IsCopy (e : Expr Unit) : Expr Unit → Prop := Unfolds IsUse e

/-- Whether an expression is `body` with a copy of `e` in place of each use of a local. -/
def Expands (x : Local) (e body : Expr Unit) : Expr Unit → Prop :=
  Unfolds (Function.update IsUse x (IsCopy e)) body

/-! ## Calls -/

section Calls

variable {callee e : Expr Unit} {args : List (Expr Unit)}

theorem IsCall.scoped_iff (h : IsCall callee args e) (bound : List Local) :
    e.Scoped bound ↔ callee.Scoped bound ∧ ScopedAll bound args := by
  obtain ⟨n, rfl⟩ | ⟨v, m, n, rfl, rfl⟩ := h
  · exact Iff.rfl
  · exact (iff_of_eq (true_and _)).symm

theorem IsCall.admits_iff (h : IsCall callee args e) (Γ : LocalTypes) (t : Ty) :
    e.Admits Γ t ↔ ∃ ts, callee.Admits Γ (.fn ts t) ∧ AdmitsAll Γ args ts := by
  obtain ⟨n, rfl⟩ | ⟨v, m, n, rfl, rfl⟩ := h <;> exact Iff.rfl

end Calls

/-! ## Names that keep an expression scoped -/

/-- Whether something can be put in place of every local, also where more locals are bound. -/
def Fills (δ : Replacement) (bound bound' : List Local) : Prop :=
  ∀ x ∈ bound, ∀ inner, bound' ⊆ inner → ∃ e, δ x e ∧ e.Scoped inner

theorem exists_fresh (bound : List Local) : ∃ x : Local, x ∉ bound := by
  have : Infinite Local := Infinite.of_injective (fun i => ⟨"", i⟩) fun _ _ h => (Local.mk.inj h).2
  simpa using Infinite.exists_notMem_finset bound.toFinset

namespace Fills

variable {δ : Replacement} {bound bound' : List Local}

theorem bind (h : Fills δ bound bound') (x y : Local) :
    Fills (Function.update δ x (IsUse y)) (x :: bound) (y :: bound') := by
  intro z hz inner hinner
  obtain ⟨hy, hinner⟩ := List.cons_subset.1 hinner
  by_cases hzx : z = x
  · subst hzx
    exact ⟨.localVar y ⟨.nowhere, ()⟩, by simp [IsUse], hy⟩
  · rw [Function.update_of_ne hzx]
    exact h z ((List.mem_cons.1 hz).resolve_left hzx) inner hinner

theorem exists_enter (h : Fills δ bound bound') (xs : List Local) :
    ∃ ys : List Local, ys.length = xs.length ∧ ys.Nodup ∧ (∀ y ∈ ys, y ∉ bound') ∧
      Fills (δ.rename xs ys) (xs ++ bound) (ys ++ bound') := by
  induction xs with
  | nil => exact ⟨[], rfl, .nil, by simp, h⟩
  | cons x xs ih =>
    obtain ⟨ys, hlen, hnodup, hys, hfills⟩ := ih
    obtain ⟨y, hy⟩ := exists_fresh (ys ++ bound')
    obtain ⟨hyys, hyb⟩ : y ∉ ys ∧ y ∉ bound' := by simpa using hy
    exact ⟨y :: ys, by simp [hlen], List.nodup_cons.2 ⟨hyys, hnodup⟩,
      List.forall_mem_cons.2 ⟨hyb, hys⟩, hfills.bind x y⟩

end Fills

/-- Whether an expression unfolds, so that the result is scoped. -/
def UnfoldableOf (e : Expr Unit) : Prop :=
  ∀ {δ : Replacement} {bound bound' : List Local}, e.Scoped bound → Fills δ bound bound' →
    ∃ d, Unfolds δ e d ∧ d.Scoped bound'

theorem exists_unfoldsAll_of (h : ∀ e ∈ es, UnfoldableOf e) (hes : ScopedAll bound es)
    (hδ : Fills δ bound bound') :
    ∃ ds, UnfoldsAll δ es ds ∧ ScopedAll bound' ds ∧ ds.length = es.length := by
  induction es with
  | nil => exact ⟨[], rfl, trivial, rfl⟩
  | cons e es ih =>
    obtain ⟨he, htail⟩ := List.forall_mem_cons.1 h
    obtain ⟨d, hd, hsd⟩ := he hes.1 hδ
    obtain ⟨ds, hds, hsds, hlen⟩ := ih htail hes.2
    exact ⟨d :: ds, ⟨d, ds, hd, hds, rfl⟩, ⟨hsd, hsds⟩, by simp [hlen]⟩

theorem exists_unfoldsLet_of (h : ∀ b ∈ bs, UnfoldableOf b.2) (hbs : ScopedLet bound bs)
    (hδ : Fills δ bound bound') :
    ∃ ds δ', UnfoldsLet δ bs ds δ' ∧ ScopedLet bound' ds ∧
      Fills δ' ((bs.map Prod.fst).reverse ++ bound) ((ds.map Prod.fst).reverse ++ bound') := by
  induction bs generalizing δ bound bound' with
  | nil => exact ⟨[], δ, ⟨rfl, rfl⟩, trivial, hδ⟩
  | cons b bs ih =>
    obtain ⟨x, e⟩ := b
    obtain ⟨he, htail⟩ := List.forall_mem_cons.1 h
    obtain ⟨hx, hse, hsbs⟩ := hbs
    obtain ⟨d, hd, hsd⟩ := he hse hδ
    obtain ⟨y, hy⟩ := exists_fresh bound'
    obtain ⟨ds, δ', hds, hsds, hδ'⟩ := ih htail hsbs (hδ.bind x y)
    refine ⟨(y, d) :: ds, δ', ⟨y, d, ds, hd, hds, rfl⟩, ⟨hy, hsd, hsds⟩, ?_⟩
    simpa using hδ'

/-- **Every scoped expression unfolds to a scoped one**, if there is something to put in place of
its locals. -/
theorem exists_unfolds (e : Expr Unit) : UnfoldableOf e := by
  induction e with
  | literal v n => exact fun _ _ => ⟨.literal v n, ⟨n, rfl⟩, trivial⟩
  | collection kind es n ih =>
    intro δ bound bound' hs hδ
    obtain ⟨ds, hds, hsds, hlen⟩ := exists_unfoldsAll_of ih hs.1 hδ
    exact ⟨.collection kind ds n, ⟨ds, n, hds, rfl⟩, hsds, hlen ▸ hs.2⟩
  | localVar x n => exact fun hs hδ => hδ x hs _ (fun _ h => h)
  | globalVar v n => exact fun _ _ => ⟨.globalVar v n, ⟨n, rfl⟩, trivial⟩
  | call f es n ihf ih =>
    intro δ bound bound' hs hδ
    obtain ⟨d, hd, hsd⟩ := ihf hs.1 hδ
    obtain ⟨ds, hds, hsds, -⟩ := exists_unfoldsAll_of ih hs.2 hδ
    exact ⟨.call d ds n, ⟨d, ds, hd, hds, .inl ⟨n, rfl⟩⟩, hsd, hsds⟩
  | callVar v es n ih =>
    intro δ bound bound' hs hδ
    obtain ⟨ds, hds, hsds, -⟩ := exists_unfoldsAll_of ih hs hδ
    exact ⟨.callVar v ds n, ⟨ds, n, hds, rfl⟩, hsds⟩
  | letIn bs e n ihbs ihe =>
    intro δ bound bound' hs hδ
    obtain ⟨ds, δ', hds, hsds, hδ'⟩ := exists_unfoldsLet_of ihbs hs.1 hδ
    obtain ⟨d, hd, hsd⟩ := ihe hs.2 hδ'
    exact ⟨.letIn ds d n, ⟨ds, δ', d, n, hds, hd, rfl⟩, hsds, hsd⟩
  | ite c a b n ihc iha ihb =>
    intro δ bound bound' hs hδ
    obtain ⟨c', hc, hsc⟩ := ihc hs.1 hδ
    obtain ⟨a', ha, hsa⟩ := iha hs.2.1 hδ
    obtain ⟨b', hb, hsb⟩ := ihb hs.2.2 hδ
    exact ⟨.ite c' a' b' n, ⟨c', a', b', n, hc, ha, hb, rfl⟩, hsc, hsa, hsb⟩
  | fn ps e n ih =>
    intro δ bound bound' hs hδ
    obtain ⟨qs, hlen, hnodup, hqs, hδ'⟩ := hδ.exists_enter ps
    obtain ⟨d, hd, hsd⟩ := ih hs.2.2 hδ'
    exact ⟨.fn qs d n, ⟨qs, d, n, hlen, hd, rfl⟩, hnodup, hqs, hsd⟩
  | define | declare => exact fun h _ => h.elim

/-- A local can be expanded, so that the result is scoped where the local is not bound. -/
theorem exists_expands (he : e.Scoped bound) (hbody : body.Scoped (x :: bound)) :
    ∃ d, Expands x e body d ∧ d.Scoped bound := by
  have huse : ∀ inner, bound ⊆ inner → Fills IsUse bound inner := fun inner hinner y hy inner' h =>
    ⟨.localVar y ⟨.nowhere, ()⟩, ⟨_, rfl⟩, h (hinner hy)⟩
  refine exists_unfolds body hbody fun y hy inner hinner => ?_
  by_cases hyx : y = x
  · subst hyx
    rw [Function.update_self]
    exact exists_unfolds e he (huse inner hinner)
  · rw [Function.update_of_ne hyx]
    exact huse bound (fun _ h => h) y ((List.mem_cons.1 hy).resolve_left hyx) inner hinner

/-! ## Admitted types -/

/-- Whether what is put in place of a local admits the types at which the local may be used, also
where more locals are bound. -/
def Agrees (δ : Replacement) (Γ Γ' : LocalTypes) (bound bound' : List Local) : Prop :=
  ∀ x ∈ bound, ∀ e, δ x e → ∀ inner Δ, bound' ⊆ inner → e.Scoped inner →
    (∀ z ∈ bound', Δ z = Γ' z) → Γ x = e.Admits Δ

namespace Agrees

variable {δ : Replacement} {Γ Γ' : LocalTypes} {bound bound' : List Local}

theorem bind (h : Agrees δ Γ Γ' bound bound') {x y : Local} (hy : y ∉ bound') (S : Ty → Prop) :
    Agrees (Function.update δ x (IsUse y)) (Γ.bind x S) (Γ'.bind y S) (x :: bound)
      (y :: bound') := by
  intro z hz e he inner Δ hinner hs hΔ
  obtain ⟨hΔy, hΔ⟩ := List.forall_mem_cons.1 hΔ
  by_cases hzx : z = x
  · subst hzx
    rw [Function.update_self] at he
    obtain ⟨n, rfl⟩ := he
    rw [LocalTypes.bind_self]
    exact (hΔy.trans (LocalTypes.bind_self ..)).symm
  · rw [Function.update_of_ne hzx] at he
    rw [LocalTypes.bind_of_ne hzx]
    refine h z ((List.mem_cons.1 hz).resolve_left hzx) e he inner Δ
      (List.cons_subset.1 hinner).2 hs fun w hw => ?_
    have hwy : w ≠ y := fun hwy => hy (hwy ▸ hw)
    rw [hΔ w hw, LocalTypes.bind_of_ne hwy]

theorem enter (h : Agrees δ Γ Γ' bound bound') {ps qs : List Local} {ts : List Ty}
    (hts : ts.length = ps.length) (hqs : qs.length = ps.length) (hnodup : qs.Nodup)
    (hbound : ∀ q ∈ qs, q ∉ bound') :
    Agrees (δ.rename ps qs) (Γ.enter ps ts) (Γ'.enter qs ts) (ps ++ bound) (qs ++ bound') := by
  induction ps generalizing qs ts with
  | nil =>
    obtain rfl := List.eq_nil_of_length_eq_zero hqs
    have henter : ∀ Γ : LocalTypes, Γ.enter [] ts = Γ := fun Γ =>
      funext fun x => LocalTypes.enter_of_lookup_none rfl
    rwa [henter, henter]
  | cons p ps ih =>
    obtain ⟨t, ts, rfl⟩ := List.exists_cons_of_length_eq_add_one hts
    obtain ⟨q, qs, rfl⟩ := List.exists_cons_of_length_eq_add_one hqs
    obtain ⟨hq, hnodup⟩ := List.nodup_cons.1 hnodup
    obtain ⟨hqb, hbound⟩ := List.forall_mem_cons.1 hbound
    rw [LocalTypes.enter_cons, LocalTypes.enter_cons]
    refine (ih (by simpa using hts) (by simpa using hqs) hnodup hbound).bind ?_ _
    simp [hq, hqb]

end Agrees

/-- Whether an expression admits the types that it admits when it is unfolded. -/
def AgreesOf (e : Expr Unit) : Prop :=
  ∀ {δ : Replacement} {Γ Γ' : LocalTypes} {bound bound' : List Local} {d : Expr Unit},
    Unfolds δ e d → d.Scoped bound' → e.Scoped bound → Agrees δ Γ Γ' bound bound' →
      e.Admits Γ = d.Admits Γ'

theorem admitsAll_unfold_of (h : ∀ e ∈ es, AgreesOf e) {ds : List (Expr Unit)}
    (hds : UnfoldsAll δ es ds) (hsds : ScopedAll bound' ds) (hses : ScopedAll bound es)
    (hΓ : Agrees δ Γ Γ' bound bound') : AdmitsAll Γ es = AdmitsAll Γ' ds := by
  induction es generalizing ds with
  | nil =>
    obtain rfl := hds
    rfl
  | cons e es ih =>
    obtain ⟨he, htail⟩ := List.forall_mem_cons.1 h
    obtain ⟨d, ds, hd, hds, rfl⟩ := hds
    funext ts
    simp only [AdmitsAll, he hd hsds.1 hses.1 hΓ, ih htail hds hsds.2 hses.2]

theorem letIn_unfold_of (h : ∀ b ∈ bs, AgreesOf b.2) (he : AgreesOf e) {δ' : Replacement}
    {ds : List (Local × Expr Unit)} (hds : UnfoldsLet δ bs ds δ') (hd : Unfolds δ' e d)
    (hsds : ScopedLet bound' ds) (hsd : d.Scoped ((ds.map Prod.fst).reverse ++ bound'))
    (hsbs : ScopedLet bound bs) (hse : e.Scoped ((bs.map Prod.fst).reverse ++ bound))
    (hΓ : Agrees δ Γ Γ' bound bound') (t : Ty) :
    (∃ Γ₁, Binds Γ bs Γ₁ ∧ e.Admits Γ₁ t) ↔ ∃ Γ₁, Binds Γ' ds Γ₁ ∧ d.Admits Γ₁ t := by
  induction bs generalizing δ Γ Γ' bound bound' ds with
  | nil =>
    obtain ⟨rfl, rfl⟩ := hds
    simp only [Binds, exists_eq_left, he hd hsd hse hΓ]
  | cons b bs ih =>
    obtain ⟨x, c⟩ := b
    obtain ⟨hc, htail⟩ := List.forall_mem_cons.1 h
    obtain ⟨y, c', ds, hc', hds, rfl⟩ := hds
    obtain ⟨hx, hsc, hsbs⟩ := hsbs
    obtain ⟨hy, hsc', hsds⟩ := hsds
    have hadmits : c.Admits Γ = c'.Admits Γ' := hc hc' hsc' hsc hΓ
    have hrest := ih htail hds hsds (by simpa using hsd) hsbs (by simpa using hse)
      (hΓ.bind hy (c.Admits Γ))
    simp only [Binds, and_assoc, exists_and_left, hrest]
    rw [hadmits]

/-- **An expression admits the types that it admits when it is unfolded**, if what is put in place
of a local admits the types at which the local may be used. -/
theorem admits_unfold (e : Expr Unit) : AgreesOf e := by
  induction e with
  | literal v n =>
    rintro δ Γ Γ' bound bound' d ⟨n', rfl⟩ _ _ _
    rfl
  | collection kind es n ih =>
    rintro δ Γ Γ' bound bound' d ⟨ds, n', hds, rfl⟩ hsd hs hΓ
    funext t
    simp only [Admits, admitsAll_unfold_of ih hds hsd.1 hs.1 hΓ]
  | localVar x n =>
    intro δ Γ Γ' bound bound' d hd hsd hs hΓ
    exact hΓ x hs d hd bound' Γ' (fun _ h => h) hsd fun _ _ => rfl
  | globalVar v n =>
    rintro δ Γ Γ' bound bound' d ⟨n', rfl⟩ _ _ _
    rfl
  | call f es n ihf ih =>
    rintro δ Γ Γ' bound bound' d ⟨c, ds, hc, hds, hcall⟩ hsd hs hΓ
    obtain ⟨hsc, hsds⟩ := (hcall.scoped_iff bound').1 hsd
    funext t
    rw [eq_iff_iff, hcall.admits_iff]
    simp only [Admits, ihf hc hsc hs.1 hΓ, admitsAll_unfold_of ih hds hsds hs.2 hΓ]
  | callVar v es n ih =>
    rintro δ Γ Γ' bound bound' d ⟨ds, n', hds, rfl⟩ hsd hs hΓ
    funext t
    simp only [Admits, admitsAll_unfold_of ih hds hsd hs hΓ]
  | letIn bs e n ihbs ihe =>
    rintro δ Γ Γ' bound bound' d ⟨ds, δ', d', n', hds, hd, rfl⟩ hsd hs hΓ
    funext t
    exact propext (letIn_unfold_of ihbs ihe hds hd hsd.1 hsd.2 hs.1 hs.2 hΓ t)
  | ite c a b n ihc iha ihb =>
    rintro δ Γ Γ' bound bound' d ⟨c', a', b', n', hc, ha, hb, rfl⟩ hsd hs hΓ
    funext t
    simp only [Admits, ihc hc hsd.1 hs.1 hΓ, iha ha hsd.2.1 hs.2.1 hΓ, ihb hb hsd.2.2 hs.2.2 hΓ]
  | fn ps e n ih =>
    rintro δ Γ Γ' bound bound' d ⟨qs, d', n', hlen, hd, rfl⟩ ⟨hnodup, hqs, hsd⟩ ⟨-, -, hs⟩ hΓ
    funext t
    simp only [Admits, hlen]
    refine propext (exists₂_congr fun ts r => and_congr_right fun _ => ?_)
    refine and_congr_right fun hts => ?_
    rw [ih hd hsd hs (hΓ.enter hts hlen hnodup hqs)]
  | define | declare => exact fun h => h.elim

/-- A copy admits the types of the original, where the locals may be used at the same types. -/
theorem IsCopy.admits (h : IsCopy e d) (he : e.Scoped bound) (hd : d.Scoped bound')
    (hb : bound ⊆ bound') {Δ : LocalTypes} (hΔ : ∀ z ∈ bound, Δ z = Γ z) :
    e.Admits Γ = d.Admits Δ := by
  refine admits_unfold e h hd he ?_
  rintro y hy _ ⟨n, rfl⟩ inner Δ' hinner _ hΔ'
  exact ((hΔ' y (hb hy)).trans (hΔ y hy)).symm

/-- **An expansion of a local admits what the body does where the local may be used at the types of
the expression.** -/
theorem Expands.admits (h : Expands x e body d) (he : e.Scoped bound)
    (hbody : body.Scoped (x :: bound)) (hd : d.Scoped bound) (Γ : LocalTypes) :
    body.Admits (Γ.bind x (e.Admits Γ)) = d.Admits Γ := by
  refine admits_unfold body h hd hbody fun y hy c hc inner Δ hinner hsc hΔ => ?_
  by_cases hyx : y = x
  · subst hyx
    rw [Function.update_self] at hc
    rw [LocalTypes.bind_self]
    exact IsCopy.admits hc he hsc hinner hΔ
  · rw [Function.update_of_ne hyx] at hc
    obtain ⟨n, rfl⟩ := hc
    rw [LocalTypes.bind_of_ne hyx]
    exact (hΔ y ((List.mem_cons.1 hy).resolve_left hyx)).symm

/-- A `let` admits what an expansion of its local does, if the local is used. -/
theorem Expands.admits_letIn (h : Expands x e body d) {n : Note Unit}
    (hs : (Expr.letIn [(x, e)] body n).Scoped bound) (hd : d.Scoped bound)
    (hx : x ∈ body.freeLocals []) (Γ : LocalTypes) (t : Ty) :
    (Expr.letIn [(x, e)] body n).Admits Γ t ↔ d.Admits Γ t := by
  obtain ⟨⟨-, he, -⟩, hbody⟩ := hs
  simp only [Admits, Binds, and_assoc, exists_and_left, exists_eq_left, h.admits he hbody hd Γ,
    and_iff_right_iff_imp]
  intro ht
  rw [← h.admits he hbody hd Γ] at ht
  obtain ⟨u, hu⟩ := Admits.exists_of_mem_freeLocals body ht hx
  rw [LocalTypes.bind_self] at hu
  exact ⟨u, hu⟩

end Expr

end TypedLisp
