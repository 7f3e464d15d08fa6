import TypedLisp.Proofs.Lowering
import TypedLisp.Proofs.Runtime.CodeTyping

/-!
# Lowering keeps types

Every derivation has code, and the code is of the type of the derivation (`Expr.lower_typed`). A
function captures just the locals that are free in it, so at each node the locals in scope are used
at the types that the context of the derivation gives them.
-/

namespace TypedLisp

/-! ## Free locals -/

namespace Expr

variable {α : Type}
variable {x : Local} {bound : List Local} {bs : List (Local × Expr α)}

theorem mem_freeLocalsAll_of {es : List (Expr α)}
    (h : ∀ e ∈ es, ∀ bound, x ∈ e.freeLocals bound ↔ x ∉ bound ∧ x ∈ e.freeLocals [])
    (bound : List Local) : x ∈ freeLocalsAll bound es ↔ x ∉ bound ∧ x ∈ freeLocalsAll [] es := by
  induction es with
  | nil => simp [freeLocalsAll]
  | cons e es ih =>
    obtain ⟨he, hes⟩ := List.forall_mem_cons.1 h
    simp only [freeLocalsAll, List.mem_append, he bound, ih hes]
    tauto

theorem mem_freeLocalsLet_of
    (h : ∀ b ∈ bs, ∀ bound, x ∈ b.2.freeLocals bound ↔ x ∉ bound ∧ x ∈ b.2.freeLocals [])
    (bound : List Local) : x ∈ freeLocalsLet bound bs ↔ x ∉ bound ∧ x ∈ freeLocalsLet [] bs := by
  induction bs generalizing bound with
  | nil => simp [freeLocalsLet]
  | cons b bs ih =>
    obtain ⟨hb, hbs⟩ := List.forall_mem_cons.1 h
    simp only [freeLocalsLet, List.mem_append, hb bound, ih hbs (b.1 :: bound), ih hbs [b.1],
      List.mem_cons, List.not_mem_nil]
    tauto

/-- The locals that are bound around an expression are not free in it, and all else stays the
same. -/
theorem mem_freeLocals (e : Expr α) (bound : List Local) :
    x ∈ e.freeLocals bound ↔ x ∉ bound ∧ x ∈ e.freeLocals [] := by
  induction e using indFormer generalizing bound with
  | literal | globalVar | declare => simp [freeLocals]
  | localVar y n =>
    by_cases hy : y ∈ bound
    · simp only [freeLocals, if_pos hy, List.not_mem_nil, if_false, List.mem_singleton, false_iff]
      rintro ⟨hx, rfl⟩
      exact hx hy
    · simp only [freeLocals, if_neg hy, List.not_mem_nil, if_false, List.mem_singleton]
      exact ⟨fun hx => ⟨hx ▸ hy, hx⟩, fun hx => hx.2⟩
  | former φ es n _ ih =>
    rw [freeLocals_former, freeLocals_former]
    exact mem_freeLocalsAll_of ih bound
  | letIn bs e n ihbs ihe =>
    simp only [freeLocals, List.mem_append, mem_freeLocalsLet_of ihbs bound,
      ihe (bs.map Prod.fst ++ bound), ihe (bs.map Prod.fst ++ [])]
    simp only [List.not_mem_nil]
    tauto
  | fn ps e n ih =>
    simp only [freeLocals, ih (ps ++ bound), ih (ps ++ [])]
    simp only [List.mem_append, List.not_mem_nil]
    tauto
  | define g d e n ih => exact ih bound

theorem mem_freeLocalsLet_singleton {y : Local} :
    x ∈ freeLocalsLet [y] bs ↔ x ≠ y ∧ x ∈ freeLocalsLet [] bs := by
  rw [mem_freeLocalsLet_of fun b _ => mem_freeLocals b.2, List.mem_singleton]

theorem mem_closedOver {e : Expr α} : x ∈ e.closedOver bound ↔ x ∉ bound ∧ x ∈ e.freeLocals [] := by
  rw [closedOver, sortLocals, List.mem_mergeSort, List.mem_eraseDups, mem_freeLocals]

theorem freeLocalsAll_subset {es : List (Expr α)} {scope : List Local} :
    freeLocalsAll [] es ⊆ scope ↔ ∀ e ∈ es, e.freeLocals [] ⊆ scope := by
  induction es with
  | nil => simp [freeLocalsAll]
  | cons e es ih => rw [freeLocalsAll, List.append_subset, List.forall_mem_cons, ih]

theorem freeLocalsLet_subset_of
    (h : ∀ b ∈ bs, ∀ {bound}, b.2.Scoped bound → b.2.freeLocals [] ⊆ bound)
    (hbs : ScopedLet bound bs) : freeLocalsLet [] bs ⊆ bound := by
  induction bs generalizing bound with
  | nil => simp [freeLocalsLet]
  | cons b bs ih =>
    obtain ⟨-, he, hbs⟩ := hbs
    obtain ⟨hb, hrest⟩ := List.forall_mem_cons.1 h
    refine List.append_subset.2 ⟨hb he, fun x hx => ?_⟩
    obtain ⟨hne, hx⟩ := (mem_freeLocalsLet_of (fun b _ => mem_freeLocals b.2) [b.1]).1 hx
    exact (List.mem_cons.1 (ih hrest hbs hx)).resolve_left fun heq => hne (by simp [heq])

theorem Scoped.freeLocals_subset {e : Expr α} (h : e.Scoped bound) : e.freeLocals [] ⊆ bound := by
  induction e using indFormer generalizing bound with
  | literal | globalVar => simp [freeLocals]
  | define | declare => exact h.elim
  | localVar x n =>
    rw [freeLocals, if_neg List.not_mem_nil]
    exact List.cons_subset.2 ⟨h, List.nil_subset _⟩
  | former φ es n _ ih =>
    rw [freeLocals_former]
    exact freeLocalsAll_subset.2 fun e he => ih e he (scopedAll_iff.1 (scoped_former.1 h).1 e he)
  | letIn bs e n ihbs ihe =>
    refine List.append_subset.2 ⟨freeLocalsLet_subset_of ihbs h.1, fun x hx => ?_⟩
    obtain ⟨hne, hx⟩ := (mem_freeLocals e _).1 hx
    have hbound := ihe h.2 hx
    simp only [List.append_nil] at hne
    simpa [hne] using hbound
  | fn ps e n ih =>
    intro x hx
    obtain ⟨hne, hx⟩ := (mem_freeLocals e _).1 hx
    rw [List.append_nil] at hne
    exact (List.mem_append.1 (ih h.2.2 hx)).resolve_left hne

theorem ScopedLet.freeLocals_subset (h : ScopedLet bound bs) :
    freeLocalsLet [] bs ⊆ bound :=
  freeLocalsLet_subset_of (fun _ _ _ => Scoped.freeLocals_subset) h

end Expr

/-! ## The types of the locals of a context -/

namespace LocalTypes

theorem only_of_subset {Γ : LocalTypes} {xs ys : List Local} (h : xs ⊆ ys) :
    Γ.only xs ≤ Γ.only ys := fun _ _ hx => ⟨h hx.1, hx.2⟩

end LocalTypes

namespace Context

variable {ps : List Local}

/-- The types at which the locals of a context may be used. -/
def types (c : Context) : LocalTypes := fun x t => ∃ l, c.lookup x = some l ∧ l.Admits t

/-- Whether the uses of each local share only variables that are fixed. -/
def Regular (c : Context) : Prop := ∀ x t vs, c.lookup x = some (.bound t vs) → vs ⊆ c.fixed

theorem Regular.nil : Regular [] := nofun

variable {c : Context}

theorem Regular.bind (h : c.Regular) (x : Local) (t : Ty) : (c.bind x t).Regular := by
  intro y u vs hy
  rw [fixed_bind]
  by_cases hyx : y = x
  · subst hyx
    rw [lookup_bind_self] at hy
    cases hy
    exact List.Subset.refl _
  · rw [lookup_bind_of_ne hyx] at hy
    exact h y u vs hy

theorem fixed_subset_params (ps : List Local) (ts : List Ty) :
    c.fixed ⊆ (c.params ps ts).fixed := by
  intro v hv
  obtain ⟨x, t, hx, hv⟩ := mem_fixed.1 hv
  exact mem_fixed.2 ⟨x, t, List.mem_append.2 (.inr hx), hv⟩

theorem Regular.params (h : c.Regular) {ts : List Ty} (hlen : ts.length = ps.length) :
    (c.params ps ts).Regular := by
  intro y u vs hy
  by_cases hyp : y ∈ ps
  · obtain ⟨t, -, ht⟩ := exists_lookup_params (c := c) hlen hyp
    rw [ht] at hy
    cases hy
  · rw [lookup_params_of_not_mem hyp] at hy
    exact List.Subset.trans (h y u vs hy) (fixed_subset_params ps ts)

theorem Regular.bindAll (h : c.Regular) (bs : List (Local × Expr Ty)) : (c.bindAll bs).Regular := by
  induction bs generalizing c with
  | nil => exact h
  | cons b bs ih => exact ih (h.bind b.1 b.2.ann)

/-- The types at which locals may be used are closed under replacing variables that are not fixed.
-/
theorem Regular.image_le (h : c.Regular) {s : Subst}
    (hs : ∀ v ∈ c.fixed, (Ty.var v).apply s = .var v) : c.types.image s.toFun ≤ c.types := by
  rintro x _ ⟨u, ⟨l, hl, hu⟩, rfl⟩
  refine ⟨l, hl, ?_⟩
  cases l with
  | param t =>
    obtain rfl : u = t := hu
    exact Ty.bind_eq_self_iff.2 fun v hv => hs v (vars_subset_fixed hl hv)
  | bound t vs =>
    obtain ⟨r, rfl, hr⟩ := hu
    refine ⟨r.compose s, ?_, fun v hv => ?_⟩
    · rw [Ty.apply_compose, Ty.apply_eq_bind s]
    · rw [Ty.apply_compose, hr v hv, hs v (h x t vs hl hv)]

theorem types_bind_le (x : Local) (t : Ty) (scope : List Local) :
    (c.bind x t).types.only (x :: scope) ≤
      (c.types.only scope).bind x (LocalType.bound t c.fixed).Admits := by
  rintro y u ⟨hy, l, hl, hu⟩
  by_cases hyx : y = x
  · subst hyx
    rw [lookup_bind_self] at hl
    cases hl
    exact .inl ⟨rfl, hu⟩
  · rw [lookup_bind_of_ne hyx] at hl
    exact .inr ⟨hyx, (List.mem_cons.1 hy).resolve_left hyx, l, hl, hu⟩

/-- Inside a function, the locals in scope are the parameters and what the function captures. -/
theorem types_params_le {ts : List Ty} (hlen : ts.length = ps.length) {captures scope : List Local}
    (hcaptures : captures ⊆ scope) :
    (c.params ps ts).types.only (ps ++ captures) ≤
      ((c.types.only scope).only captures).enter ps ts := by
  rintro y u ⟨hy, l, hl, hu⟩
  by_cases hyp : y ∈ ps
  · obtain ⟨t, hzip, ht⟩ := exists_lookup_params (c := c) hlen hyp
    rw [ht] at hl
    cases hl
    obtain rfl : u = t := hu
    exact .inl hzip
  · have hzip : (ps.zip ts).lookup y = none := by
      refine lookup_eq_none_of_not_mem ?_
      rwa [List.map_fst_zip (Nat.le_of_eq hlen.symm)]
    rw [lookup_params_of_not_mem hyp] at hl
    have hcapture := (List.mem_append.1 hy).resolve_left hyp
    exact .inr ⟨hzip, hcapture, hcaptures hcapture, l, hl, hu⟩

end Context

/-! ## The code of a derivation -/

/-- Whether the cell of a var has the var's visible type, up to the names of variables. -/
def Var.CellTyped (W : CellTypes) (v : Var) : Prop :=
  ∃ t u, v.visible = some t ∧ W v.cell.id = some u ∧ t.InstanceOf u ∧ u.InstanceOf t

/-- Whether code may refer to a var: its cell has its type, and a constructor is used only as a
function of as many parameters as it has fields. -/
structure Var.Linked (W : CellTypes) (v : Var) : Prop where
  cellTyped : v.CellTyped W
  arity_eq : ∀ m, v.constructorArity? = some m → ∀ ts r, v.Admits (.fn ts r) → ts.length = m

theorem Var.Linked.load_typed {v : Var} {W : CellTypes} (h : v.Linked W) {t : Ty} (ht : v.Admits t)
    (Γ : LocalTypes) : (Code.load v.cell).HasType W Γ t := by
  obtain ⟨u, w, hu, hw, huw, -⟩ := h.cellTyped
  exact ⟨w, hw, (ht u hu).trans huw⟩

theorem Var.Linked.checkConstructor {v : Var} {W : CellTypes} (h : v.Linked W) {ts : List Ty}
    {r : Ty} (ht : v.Admits (.fn ts r)) (range : Range) :
    checkConstructor v ts.length range = .ok () := by
  unfold TypedLisp.checkConstructor
  cases hm : v.constructorArity? with
  | none => rfl
  | some m => exact if_pos (h.arity_eq m hm ts r ht).symm

namespace Expr

variable {W : CellTypes} {c : Context} {scope bound : List Local}

/-- Whether the derivations of an expression have code of their types. -/
def LowersTyped (W : CellTypes) (e : Expr Ty) : Prop :=
  ∀ {c : Context} {scope bound : List Local}, c.Regular → e.IsDerivation c → e.Scoped bound →
    e.freeLocals [] ⊆ scope → (∀ v ∈ e.vars, v.Linked W) →
    ∃ code, e.lower scope = .ok code ∧ code.HasType W (c.types.only scope) e.ann

theorem lowerAll_typed_of {es : List (Expr Ty)} (hes : ∀ e ∈ es, LowersTyped W e)
    (hc : c.Regular) (h : IsDerivationAll c es) (hscoped : ScopedAll bound es)
    (hfree : freeLocalsAll [] es ⊆ scope) (hvars : ∀ v ∈ varsAll es, v.Linked W) :
    ∃ codes, lowerAll scope es = .ok codes ∧
      Code.HaveTypes W (c.types.only scope) codes (es.map ann) := by
  induction es with
  | nil => exact ⟨[], rfl, rfl⟩
  | cons e es ih =>
    obtain ⟨he, hes⟩ := List.forall_mem_cons.1 hes
    obtain ⟨hfe, hfes⟩ := List.append_subset.1 hfree
    obtain ⟨hve, hves⟩ := List.forall_mem_append.1 hvars
    obtain ⟨code, hcode, ht⟩ := he hc h.1 hscoped.1 hfe hve
    obtain ⟨codes, hcodes, hts⟩ := ih hes h.2 hscoped.2 hfes hves
    exact ⟨code :: codes, by rw [lowerAll, hcode, hcodes]; rfl, _, _, rfl, ht, hts⟩

/-- The code of a binding is of every type at which the local may be used: replacing variables that
are not fixed leads from the type of the binding to such a type, and changes nothing for the locals
around. -/
theorem hasType_of_admits (hc : c.Regular) {code : Code} {t : Ty}
    (h : code.HasType W (c.types.only scope) t) {u : Ty} (hu : (LocalType.bound t c.fixed).Admits u) :
    code.HasType W (c.types.only scope) u := by
  obtain ⟨s, rfl, hs⟩ := hu
  rw [Ty.apply_eq_bind]
  refine Code.HasType.mono (fun _ _ h => h) code ?_ (Code.HasType.image s.toFun code h)
  exact le_trans (LocalTypes.image_only s.toFun scope) (LocalTypes.only_mono (hc.image_le hs) scope)

theorem lowerBindings_typed_of {bs : List (Local × Expr Ty)} (hbs : ∀ b ∈ bs, LowersTyped W b.2)
    (hc : c.Regular) (h : IsDerivationLet c bs) (hscoped : ScopedLet bound bs)
    (hfree : freeLocalsLet [] bs ⊆ scope) (hvars : ∀ v ∈ varsLet bs, v.Linked W) :
    ∃ codes Γ, lowerBindings scope bs = .ok codes ∧
      Code.Binds W (c.types.only scope) codes Γ ∧
      (c.bindAll bs).types.only (bs.map Prod.fst ++ scope) ≤ Γ := by
  induction bs generalizing c scope bound with
  | nil => exact ⟨[], _, rfl, rfl, le_refl _⟩
  | cons b bs ih =>
    obtain ⟨x, e⟩ := b
    obtain ⟨hb, hbs⟩ := List.forall_mem_cons.1 hbs
    obtain ⟨hfe, hfbs⟩ := List.append_subset.1 hfree
    obtain ⟨hve, hvbs⟩ := List.forall_mem_append.1 hvars
    obtain ⟨-, hscopedE, hscopedBs⟩ := hscoped
    obtain ⟨code, hcode, ht⟩ := hb hc h.1 hscopedE hfe hve
    have hfree' : freeLocalsLet [] bs ⊆ x :: scope := by
      intro y hy
      by_cases hyx : y = x
      · exact List.mem_cons.2 (.inl hyx)
      · refine List.mem_cons_of_mem x (hfbs ?_)
        exact (mem_freeLocalsLet_of (fun b _ => mem_freeLocals b.2) [x]).2 ⟨by simpa using hyx, hy⟩
    obtain ⟨codes, Γ, hcodes, hbinds, hle⟩ := ih hbs (hc.bind x e.ann) h.2 hscopedBs hfree' hvbs
    obtain ⟨Γ', hbinds', hle'⟩ := Code.binds_mono_of
      (fun b _ => Code.HasType.mono (fun _ _ h => h) b.2) (Context.types_bind_le x e.ann scope) hbinds
    refine ⟨(x, code) :: codes, Γ', by rw [lowerBindings, hcode, hcodes]; rfl,
      ⟨_, ⟨e.ann, [], Ty.apply_nil _, fun _ _ => rfl⟩, fun u hu => hasType_of_admits hc ht hu,
        hbinds'⟩, le_trans (le_trans (LocalTypes.only_of_subset ?_) hle) hle'⟩
    intro y hy
    simp only [List.map_cons, List.mem_append, List.mem_cons] at hy ⊢
    tauto

/-- **Every derivation has code, and the code is of the type of the derivation.** -/
theorem lower_typed (e : Expr Ty) : LowersTyped W e := by
  induction e with
  | literal v n => exact fun _ h _ _ _ => ⟨_, rfl, h⟩
  | collection k es n ih =>
    intro c scope bound hc h hscoped hfree hvars
    obtain ⟨codes, hcodes, hts⟩ := lowerAll_typed_of ih hc h.1 hscoped.1 hfree hvars
    exact ⟨.collection k codes, by rw [lower, hcodes]; rfl, _, hts, h.2⟩
  | localVar x n =>
    intro c scope bound hc h hscoped hfree hvars
    have hx : x ∈ scope := hfree (by simp [freeLocals])
    exact ⟨.slot x, by rw [lower, lookupLocal, if_pos hx]; rfl, hx, h⟩
  | globalVar v n =>
    intro c scope bound hc h hscoped hfree hvars
    exact ⟨.load v.cell, rfl, (hvars v (by simp [vars])).load_typed h _⟩
  | call f es n ihf ih =>
    intro c scope bound hc h hscoped hfree hvars
    obtain ⟨hdf, hdes, hann⟩ := h
    obtain ⟨hff, hfes⟩ := List.append_subset.1 hfree
    obtain ⟨hvf, hves⟩ := List.forall_mem_append.1 hvars
    obtain ⟨code, hcode, ht⟩ := ihf hc hdf hscoped.1 hff hvf
    obtain ⟨codes, hcodes, hts⟩ := lowerAll_typed_of ih hc hdes hscoped.2 hfes hves
    exact ⟨.call code codes, by rw [lower, hcode, hcodes]; rfl, _, hann ▸ ht, hts⟩
  | callVar v es n ih =>
    intro c scope bound hc h hscoped hfree hvars
    obtain ⟨hdes, hadmits⟩ := h
    obtain ⟨hv, hves⟩ := List.forall_mem_cons.1 hvars
    obtain ⟨codes, hcodes, hts⟩ := lowerAll_typed_of ih hc hdes hscoped hfree hves
    have hcheck := hv.checkConstructor hadmits n.range
    rw [List.length_map] at hcheck
    exact ⟨.call (.load v.cell) codes, by rw [lower, hcheck, hcodes]; rfl, _,
      hv.load_typed hadmits _, hts⟩
  | letIn bs e n ihbs ihe =>
    intro c scope bound hc h hscoped hfree hvars
    obtain ⟨hdbs, hde, hann⟩ := h
    obtain ⟨hfbs, hfe⟩ := List.append_subset.1 hfree
    obtain ⟨hvbs, hve⟩ := List.forall_mem_append.1 hvars
    obtain ⟨codes, Γ, hcodes, hbinds, hle⟩ :=
      lowerBindings_typed_of ihbs hc hdbs hscoped.1 hfbs hvbs
    have hfe' : e.freeLocals [] ⊆ bs.map Prod.fst ++ scope := by
      intro x hx
      by_cases hbs : x ∈ bs.map Prod.fst
      · exact List.mem_append_left _ hbs
      · exact List.mem_append_right _ (hfe ((mem_freeLocals e _).2 ⟨by simpa using hbs, hx⟩))
    obtain ⟨code, hcode, ht⟩ := ihe (hc.bindAll bs) hde hscoped.2 hfe' hve
    refine ⟨.letIn codes code, by rw [lower, hcodes]; simp only [hcode]; rfl, Γ, hbinds, ?_⟩
    rw [show (Expr.letIn bs e n).ann = e.ann from hann]
    exact Code.HasType.mono (fun _ _ h => h) code hle ht
  | ite t a b n iht iha ihb =>
    intro c scope bound hc h hscoped hfree hvars
    obtain ⟨hdt, hda, hdb, htest, hthen, helse⟩ := h
    obtain ⟨hst, hsa, hsb⟩ := hscoped
    obtain ⟨hfta, hfb⟩ := List.append_subset.1 hfree
    obtain ⟨hft, hfa⟩ := List.append_subset.1 hfta
    obtain ⟨hvt, hvab⟩ := List.forall_mem_append.1 hvars
    obtain ⟨hva, hvb⟩ := List.forall_mem_append.1 hvab
    obtain ⟨ct, hct, ht⟩ := iht hc hdt hst hft hvt
    obtain ⟨ca, hca, ha⟩ := iha hc hda hsa hfa hva
    obtain ⟨cb, hcb, hb⟩ := ihb hc hdb hsb hfb hvb
    rw [htest] at ht
    rw [hthen] at ha
    rw [helse] at hb
    exact ⟨.ite ct ca cb, by rw [lower, hct, hca, hcb]; rfl, ht, ha, hb⟩
  | fn ps e n ih =>
    intro c scope bound hc h hscoped hfree hvars
    obtain ⟨ts, hlen, hann, hde⟩ := h
    have hcaptures : e.closedOver ps ⊆ scope := by
      intro x hx
      obtain ⟨hxp, hx⟩ := mem_closedOver.1 hx
      exact hfree ((mem_freeLocals e _).2 ⟨by simpa using hxp, hx⟩)
    have hfe : e.freeLocals [] ⊆ ps ++ e.closedOver ps := by
      intro x hx
      by_cases hxp : x ∈ ps
      · exact List.mem_append_left _ hxp
      · exact List.mem_append_right _ (mem_closedOver.2 ⟨hxp, hx⟩)
    obtain ⟨code, hcode, ht⟩ := ih (hc.params hlen) hde hscoped.2.2 hfe hvars
    have hlower : (Expr.fn ps e n).lower scope =
        (e.lower (ps ++ e.closedOver ps)).map (.closure ps (e.closedOver ps)) := by
      rw [lower, mapM_lookupLocal_eq_ok.2 ⟨hcaptures, rfl⟩]
      rfl
    refine ⟨.closure ps (e.closedOver ps) code, by rw [hlower, hcode]; rfl, ts, e.ann, hann, hlen, ?_⟩
    exact Code.HasType.mono (fun _ _ h => h) code (Context.types_params_le hlen hcaptures) ht
  | define g d e n ih => exact fun _ _ hscoped => hscoped.elim
  | declare d n => exact fun _ _ hscoped => hscoped.elim

end Expr

end TypedLisp
