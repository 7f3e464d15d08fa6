import TypedLisp.Proofs.Runtime.Lowering

/-!
# The types that an expression admits

What types an expression can be given, if it is known at which types each local may be used
(`Expr.Admits`). A parameter may be used at one type. A local bound by `let` stands for its
expression, so it may be used at all types that the expression admits where it is bound; no type is
made general, and no variables are fixed.
-/

namespace TypedLisp

theorem lookup_zip_of_notMem {α : Type} {ps : List Local} {ts : List α} {x : Local} (h : x ∉ ps) :
    (ps.zip ts).lookup x = none :=
  lookup_eq_none_of_not_mem fun hx => by
    obtain ⟨e, he, rfl⟩ := List.mem_map.1 hx
    exact h (List.of_mem_zip he).1

namespace LocalTypes

variable {Γ : LocalTypes}
variable {ps : List Local}

@[simp] theorem bind_self (Γ : LocalTypes) (x : Local) (S : Ty → Prop) : Γ.bind x S x = S := by
  funext t
  simp [bind]

theorem bind_of_ne {x y : Local} (h : y ≠ x) (S : Ty → Prop) : Γ.bind x S y = Γ y := by
  funext t
  simp [bind, h]

theorem enter_of_lookup {ts : List Ty} {x : Local} {t : Ty} (h : (ps.zip ts).lookup x = some t) :
    Γ.enter ps ts x = (· = t) := by
  funext u
  simp [enter, h, eq_comm]

theorem enter_of_lookup_none {ts : List Ty} {x : Local} (h : (ps.zip ts).lookup x = none) :
    Γ.enter ps ts x = Γ x := by
  funext u
  simp [enter, h]

theorem enter_cons (p : Local) (ps : List Local) (t : Ty) (ts : List Ty) :
    Γ.enter (p :: ps) (t :: ts) = (Γ.enter ps ts).bind p (· = t) := by
  funext x
  by_cases hx : x = p
  · subst hx
    rw [bind_self, enter_of_lookup (t := t) (by simp)]
  · rw [bind_of_ne hx]
    funext u
    simp only [enter, List.zip_cons_cons, lookup_cons_of_ne hx]

end LocalTypes

namespace Expr

variable {es : List (Expr Unit)} {Γ Γ' : LocalTypes} {x : Local} {bs : List (Local × Expr Unit)}
  {e : Expr Unit} {t : Ty}

mutual

/-- Whether an expression can be given a type, if the locals may be used at the types `Γ`. -/
def Admits (Γ : LocalTypes) : Expr Unit → Ty → Prop
  | .literal v _, t => t = v.ty
  | .collection kind items _, t => ∃ ts, AdmitsAll Γ items ts ∧ kind.Holds ts t
  | .localVar x _, t => Γ x t
  | .globalVar v _, t => v.Admits t
  | .call callee args _, t => ∃ ts, Admits Γ callee (.fn ts t) ∧ AdmitsAll Γ args ts
  | .callVar v args _, t => ∃ ts, v.Admits (.fn ts t) ∧ AdmitsAll Γ args ts
  | .letIn bindings body _, t => ∃ Γ', Binds Γ bindings Γ' ∧ Admits Γ' body t
  | .ite test thenBranch elseBranch _, t =>
    Admits Γ test .bool ∧ Admits Γ thenBranch t ∧ Admits Γ elseBranch t
  | .fn params body _, t =>
    ∃ ts r, t = .fn ts r ∧ ts.length = params.length ∧ Admits (Γ.enter params ts) body r
  | .define _ _ _ _, _ => False
  | .declare _ _, _ => False

/-- The same for several expressions. -/
def AdmitsAll (Γ : LocalTypes) : List (Expr Unit) → List Ty → Prop
  | [], ts => ts = []
  | e :: es, ts => ∃ t us, ts = t :: us ∧ Admits Γ e t ∧ AdmitsAll Γ es us

/-- Whether after some bindings the locals may be used at the types `Γ'`. The expression of a
binding has to admit a type, also if its local is not used. -/
def Binds (Γ : LocalTypes) : List (Local × Expr Unit) → LocalTypes → Prop
  | [], Γ' => Γ' = Γ
  | (x, e) :: bs, Γ' => (∃ t, Admits Γ e t) ∧ Binds (Γ.bind x (Admits Γ e)) bs Γ'

end

theorem admits_former {φ : Former} (h : φ.Takes es.length) {n : Note Unit} :
    (φ.expr es n).Admits Γ t ↔ ∃ ts, AdmitsAll Γ es ts ∧ φ.Holds ts t := by
  cases φ with
  | collection kind => exact Iff.rfl
  | callVar v => exact exists_congr fun ts => and_comm
  | call =>
    obtain ⟨e, es, rfl⟩ := List.exists_cons_of_length_pos h
    constructor
    · rintro ⟨ts, he, hts⟩
      exact ⟨_, ⟨_, _, rfl, he, hts⟩, rfl⟩
    · rintro ⟨_, ⟨_, ts, rfl, he, hts⟩, rfl⟩
      exact ⟨ts, he, hts⟩
  | ite =>
    obtain ⟨c, a, b, rfl⟩ := List.length_eq_three.1 h
    constructor
    · rintro ⟨hc, ha, hb⟩
      exact ⟨_, ⟨_, _, rfl, hc, _, _, rfl, ha, _, _, rfl, hb, rfl⟩, rfl, rfl, rfl⟩
    · rintro ⟨_, ⟨_, _, rfl, hc, _, _, rfl, ha, _, _, rfl, hb, rfl⟩, rfl, rfl, rfl⟩
      exact ⟨hc, ha, hb⟩

/-! ## Free locals -/

/-- An expression is given a type by using each of its free locals at some type. -/
def UsesFreeOf (e : Expr Unit) : Prop :=
  ∀ {Γ : LocalTypes} {t : Ty} {x : Local}, e.Admits Γ t → x ∈ e.freeLocals [] → ∃ u, Γ x u

theorem admitsAll_usesFree_of (h : ∀ e ∈ es, UsesFreeOf e) {ts : List Ty} (hts : AdmitsAll Γ es ts)
    (hx : x ∈ freeLocalsAll [] es) : ∃ u, Γ x u := by
  induction es generalizing ts with
  | nil => cases hx
  | cons e es ih =>
    obtain ⟨he, hes⟩ := List.forall_mem_cons.1 h
    obtain ⟨t, us, rfl, ht, hus⟩ := hts
    rcases List.mem_append.1 hx with hx | hx
    · exact he ht hx
    · exact ih hes hus hx

theorem letIn_usesFree_of (h : ∀ b ∈ bs, UsesFreeOf b.2) (he : UsesFreeOf e) (hΓ : Binds Γ bs Γ')
    (ht : e.Admits Γ' t)
    (hx : x ∈ freeLocalsLet [] bs ∨ x ∉ bs.map Prod.fst ∧ x ∈ e.freeLocals []) : ∃ u, Γ x u := by
  induction bs generalizing Γ with
  | nil =>
    obtain rfl := hΓ
    exact he ht (hx.resolve_left List.not_mem_nil).2
  | cons b bs ih =>
    obtain ⟨y, d⟩ := b
    obtain ⟨hd, hbs⟩ := List.forall_mem_cons.1 h
    obtain ⟨⟨u, hu⟩, hΓ⟩ := hΓ
    have hrest : x ≠ y → (x ∈ freeLocalsLet [] bs ∨ x ∉ bs.map Prod.fst ∧ x ∈ e.freeLocals []) →
        ∃ u, Γ x u := fun hxy hx => by
      obtain ⟨u, hu⟩ := ih hbs hΓ hx
      rw [LocalTypes.bind_of_ne hxy] at hu
      exact ⟨u, hu⟩
    rcases hx with hx | ⟨hne, hx⟩
    · rcases List.mem_append.1 hx with hx | hx
      · exact hd hu hx
      · obtain ⟨hxy, hx⟩ := mem_freeLocalsLet_singleton.1 hx
        exact hrest hxy (.inl hx)
    · obtain ⟨hxy, hxbs⟩ : x ≠ y ∧ x ∉ bs.map Prod.fst := by simpa using hne
      exact hrest hxy (.inr ⟨hxbs, hx⟩)

theorem Admits.exists_of_mem_freeLocals (e : Expr Unit) : UsesFreeOf e := by
  induction e using indFormer with
  | literal | globalVar | declare => exact fun _ hx => nomatch hx
  | localVar y n =>
    intro Γ t x ht hx
    obtain rfl : x = y := by simpa [freeLocals] using hx
    exact ⟨t, ht⟩
  | former φ es n hφ ih =>
    intro Γ t x ht hx
    obtain ⟨ts, hts, -⟩ := (admits_former hφ).1 ht
    rw [freeLocals_former] at hx
    exact admitsAll_usesFree_of ih hts hx
  | letIn bs e n ihbs ihe =>
    rintro Γ t x ⟨Γ', hΓ, ht⟩ hx
    refine letIn_usesFree_of ihbs ihe hΓ ht ((List.mem_append.1 hx).imp_right fun hx => ?_)
    simpa using (mem_freeLocals e _).1 hx
  | fn ps e n ih =>
    rintro Γ _ x ⟨ts, r, rfl, -, hr⟩ hx
    obtain ⟨hxps, hx⟩ : x ∉ ps ∧ x ∈ e.freeLocals [] := by simpa using (mem_freeLocals e _).1 hx
    obtain ⟨u, hu⟩ := ih hr hx
    rw [LocalTypes.enter_of_lookup_none (lookup_zip_of_notMem hxps)] at hu
    exact ⟨u, hu⟩
  | define => exact fun h _ => h.elim

/-- Which types an expression admits depends on its free locals only. -/
def CongrOf (e : Expr Unit) : Prop :=
  ∀ {Γ Γ' : LocalTypes} {t : Ty}, (∀ x ∈ e.freeLocals [], Γ x = Γ' x) → e.Admits Γ t → e.Admits Γ' t

theorem admitsAll_congr_of (h : ∀ e ∈ es, CongrOf e) (hΓ : ∀ x ∈ freeLocalsAll [] es, Γ x = Γ' x)
    {ts : List Ty} (hts : AdmitsAll Γ es ts) : AdmitsAll Γ' es ts := by
  induction es generalizing ts with
  | nil => exact hts
  | cons e es ih =>
    obtain ⟨he, hes⟩ := List.forall_mem_cons.1 h
    obtain ⟨hΓe, hΓes⟩ := List.forall_mem_append.1 hΓ
    obtain ⟨t, us, rfl, ht, hus⟩ := hts
    exact ⟨t, us, rfl, he hΓe ht, ih hes hΓes hus⟩

theorem letIn_congr_of (h : ∀ b ∈ bs, CongrOf b.2) (he : CongrOf e)
    (hΓ : ∀ x, (x ∈ freeLocalsLet [] bs ∨ x ∉ bs.map Prod.fst ∧ x ∈ e.freeLocals []) → Γ x = Γ' x)
    (ht : ∃ Γ₁, Binds Γ bs Γ₁ ∧ e.Admits Γ₁ t) : ∃ Γ₁, Binds Γ' bs Γ₁ ∧ e.Admits Γ₁ t := by
  induction bs generalizing Γ Γ' with
  | nil =>
    obtain ⟨_, rfl, ht⟩ := ht
    exact ⟨Γ', rfl, he (fun x hx => hΓ x (.inr ⟨by simp, hx⟩)) ht⟩
  | cons b bs ih =>
    obtain ⟨y, d⟩ := b
    obtain ⟨hd, hbs⟩ := List.forall_mem_cons.1 h
    obtain ⟨Γ₁, ⟨⟨u, hu⟩, hΓ₁⟩, ht⟩ := ht
    have hΓd : ∀ x ∈ d.freeLocals [], Γ x = Γ' x := fun x hx =>
      hΓ x (.inl (List.mem_append_left _ hx))
    have hadmits : d.Admits Γ = d.Admits Γ' := funext fun u =>
      propext ⟨hd hΓd, hd fun x hx => (hΓd x hx).symm⟩
    have hbind : ∀ x, (x ∈ freeLocalsLet [] bs ∨ x ∉ bs.map Prod.fst ∧ x ∈ e.freeLocals []) →
        Γ.bind y (d.Admits Γ) x = Γ'.bind y (d.Admits Γ') x := fun x hx => by
      by_cases hxy : x = y
      · rw [hxy, LocalTypes.bind_self, LocalTypes.bind_self, hadmits]
      · rw [LocalTypes.bind_of_ne hxy, LocalTypes.bind_of_ne hxy]
        refine hΓ x (hx.imp (fun hx => List.mem_append_right _ ?_) fun hx => ?_)
        · exact mem_freeLocalsLet_singleton.2 ⟨hxy, hx⟩
        · exact ⟨by simpa [hxy] using hx.1, hx.2⟩
    obtain ⟨Γ₂, hΓ₂, ht⟩ := ih hbs hbind ⟨Γ₁, hΓ₁, ht⟩
    exact ⟨Γ₂, ⟨⟨u, hadmits ▸ hu⟩, hΓ₂⟩, ht⟩

theorem Admits.congr (e : Expr Unit) : CongrOf e := by
  induction e using indFormer with
  | literal | globalVar => exact fun _ h => h
  | localVar y n =>
    intro Γ Γ' t hΓ ht
    show Γ' y t
    rw [← hΓ y (by simp [freeLocals])]
    exact ht
  | former φ es n hφ ih =>
    intro Γ Γ' t hΓ ht
    obtain ⟨ts, hts, hholds⟩ := (admits_former hφ).1 ht
    rw [freeLocals_former] at hΓ
    exact (admits_former hφ).2 ⟨ts, admitsAll_congr_of ih hΓ hts, hholds⟩
  | letIn bs e n ihbs ihe =>
    intro Γ Γ' t hΓ ht
    refine letIn_congr_of ihbs ihe (fun x hx => hΓ x (List.mem_append.2 (hx.imp_right ?_))) ht
    exact fun hx => (mem_freeLocals e _).2 (by simpa using hx)
  | fn ps e n ih =>
    rintro Γ Γ' _ hΓ ⟨ts, r, rfl, hlen, hr⟩
    refine ⟨ts, r, rfl, hlen, ih (fun x hx => ?_) hr⟩
    cases hxps : (ps.zip ts).lookup x with
    | some u => rw [LocalTypes.enter_of_lookup hxps, LocalTypes.enter_of_lookup hxps]
    | none =>
      rw [LocalTypes.enter_of_lookup_none hxps, LocalTypes.enter_of_lookup_none hxps]
      have hxps : x ∉ ps := fun hmem => by
        obtain ⟨u, hu, -⟩ := Context.exists_lookup_params (c := []) hlen hmem
        cases hxps.symm.trans hu
      exact hΓ x ((mem_freeLocals e _).2 ⟨by simpa using hxps, hx⟩)
  | define | declare => exact fun _ h => h.elim

/-- The free locals of an expression that admits a type are those without which it does not. -/
theorem Admits.mem_freeLocals_iff (h : e.Admits Γ t) :
    x ∈ e.freeLocals [] ↔ ¬ e.Admits (Γ.bind x fun _ => False) t := by
  constructor
  · intro hx hbind
    obtain ⟨u, hu⟩ := exists_of_mem_freeLocals e hbind hx
    rwa [LocalTypes.bind_self] at hu
  · intro hbind
    by_contra hx
    refine hbind (congr e (fun y hy => ?_) h)
    have hyx : y ≠ x := fun hyx => hx (hyx ▸ hy)
    rw [LocalTypes.bind_of_ne hyx]

end Expr

end TypedLisp
