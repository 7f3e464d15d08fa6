import Mathlib.Order.Basic
import TypedLisp.Proofs.Inference.Steps
import TypedLisp.Proofs.Machine.Growth

/-!
# The types of code

Code has no types at its nodes, so whether it is of a type is said from outside: by the types at
which each local may be used, and the types of the cells. A local bound by `let` may be used at
several types, and the code that it is bound to is then of all of them. Code that is of a type is
also of all instances of it, if its locals may be used at the instances of their types
(`Code.HasType.image`).
-/

namespace TypedLisp

/-- The types of cells, by the number of the cell. -/
abbrev CellTypes := Nat → Option Ty

/-- The types at which each local may be used. -/
abbrev LocalTypes := Local → Ty → Prop

namespace LocalTypes

/-- One more local, which may be used at the types `S`. -/
def bind (Γ : LocalTypes) (x : Local) (S : Ty → Prop) : LocalTypes :=
  fun y t => y = x ∧ S t ∨ y ≠ x ∧ Γ y t

/-- The locals inside a function: its parameters are used at their types. -/
def enter (Γ : LocalTypes) (params : List Local) (ts : List Ty) : LocalTypes :=
  fun x t => (params.zip ts).lookup x = some t ∨ (params.zip ts).lookup x = none ∧ Γ x t

/-- The locals of a list only. -/
def only (Γ : LocalTypes) (xs : List Local) : LocalTypes := fun x t => x ∈ xs ∧ Γ x t

/-- The locals at the types that a replacement of variables makes of their types. -/
def image (Γ : LocalTypes) (f : TyVar → Ty) : LocalTypes := fun x t => ∃ u, Γ x u ∧ t = u.bind f

variable {Γ Γ' : LocalTypes}

theorem bind_mono (h : Γ ≤ Γ') (x : Local) (S : Ty → Prop) : Γ.bind x S ≤ Γ'.bind x S :=
  fun y t hy => hy.imp_right fun ⟨hne, hy⟩ => ⟨hne, h y t hy⟩

theorem enter_mono (h : Γ ≤ Γ') (params : List Local) (ts : List Ty) :
    Γ.enter params ts ≤ Γ'.enter params ts :=
  fun x t hx => hx.imp_right fun ⟨hnone, hx⟩ => ⟨hnone, h x t hx⟩

theorem only_mono (h : Γ ≤ Γ') (xs : List Local) : Γ.only xs ≤ Γ'.only xs :=
  fun x t hx => ⟨hx.1, h x t hx.2⟩

theorem image_bind (f : TyVar → Ty) (x : Local) (S : Ty → Prop) :
    (Γ.bind x S).image f ≤ (Γ.image f).bind x fun t => ∃ u, S u ∧ t = u.bind f := by
  rintro y _ ⟨u, ⟨hyx, hu⟩ | ⟨hyx, hu⟩, rfl⟩
  · exact .inl ⟨hyx, u, hu, rfl⟩
  · exact .inr ⟨hyx, u, hu, rfl⟩

theorem image_only (f : TyVar → Ty) (xs : List Local) :
    (Γ.only xs).image f ≤ (Γ.image f).only xs := by
  rintro x _ ⟨u, ⟨hx, hu⟩, rfl⟩
  exact ⟨hx, u, hu, rfl⟩

theorem image_enter (f : TyVar → Ty) (params : List Local) (ts : List Ty) :
    (Γ.enter params ts).image f ≤ (Γ.image f).enter params (ts.map (Ty.bind f)) := by
  rintro x _ ⟨u, hu, rfl⟩
  have hlookup : (params.zip (ts.map (Ty.bind f))).lookup x =
      ((params.zip ts).lookup x).map (Ty.bind f) := by
    rw [← lookup_map_snd, List.zip_map_right]
    rfl
  rcases hu with hu | ⟨hnone, hu⟩
  · exact .inl (by rw [hlookup, hu]; rfl)
  · exact .inr ⟨by rw [hlookup, hnone]; rfl, u, hu, rfl⟩

end LocalTypes

/-! ## Code -/

mutual

/-- Whether code is of a type. -/
def Code.HasType (W : CellTypes) (Γ : LocalTypes) : Code → Ty → Prop
  | .literal v, t => t = v.ty
  | .collection kind items, t => ∃ ts, Code.HaveTypes W Γ items ts ∧ kind.Holds ts t
  | .slot x, t => Γ x t
  | .load c, t => ∃ u, W c.id = some u ∧ t.InstanceOf u
  | .call callee args, t => ∃ ts, callee.HasType W Γ (.fn ts t) ∧ Code.HaveTypes W Γ args ts
  | .letIn bindings body, t => ∃ Γ', Code.Binds W Γ bindings Γ' ∧ body.HasType W Γ' t
  | .ite test thenBranch elseBranch, t =>
    test.HasType W Γ .bool ∧ thenBranch.HasType W Γ t ∧ elseBranch.HasType W Γ t
  | .closure params captures body, t => ∃ ts r, t = .fn ts r ∧ ts.length = params.length ∧
    body.HasType W ((Γ.only captures).enter params ts) r

/-- Whether pieces of code are of some types. -/
def Code.HaveTypes (W : CellTypes) (Γ : LocalTypes) : List Code → List Ty → Prop
  | [], ts => ts = []
  | c :: cs, ts => ∃ t us, ts = t :: us ∧ c.HasType W Γ t ∧ Code.HaveTypes W Γ cs us

/-- Whether after some bindings the locals may be used at the types `Γ'`. The code of a binding is
of every type at which the local may be used, and there is such a type. -/
def Code.Binds (W : CellTypes) (Γ : LocalTypes) : List (Local × Code) → LocalTypes → Prop
  | [], Γ' => Γ' = Γ
  | (x, c) :: bs, Γ' => ∃ S : Ty → Prop, (∃ t, S t) ∧ (∀ t, S t → c.HasType W Γ t) ∧
    Code.Binds W (Γ.bind x S) bs Γ'

end

theorem Literal.ty_bind (v : Literal) (f : TyVar → Ty) : v.ty.bind f = v.ty := by
  cases v <;> rfl

theorem Collection.Holds.bind {kind : Collection} {ts : List Ty} {t : Ty} (h : kind.Holds ts t)
    (f : TyVar → Ty) : kind.Holds (ts.map (Ty.bind f)) (t.bind f) := by
  cases kind with
  | vector =>
    obtain ⟨e, rfl, hts⟩ := h
    exact ⟨e.bind f, rfl, List.forall_mem_map.2 fun i hi => by rw [hts i hi]⟩
  | set =>
    obtain ⟨e, rfl, hts⟩ := h
    exact ⟨e.bind f, rfl, List.forall_mem_map.2 fun i hi => by rw [hts i hi]⟩
  | map =>
    obtain ⟨k, v, rfl, hk, hv⟩ := h
    refine ⟨k.bind f, v.bind f, rfl, ?_, ?_⟩
    · rw [keys_map]
      exact List.forall_mem_map.2 fun i hi => by rw [hk i hi]
    · rw [values_map]
      exact List.forall_mem_map.2 fun i hi => by rw [hv i hi]

namespace Code

variable {W W' : CellTypes} {Γ Γ' : LocalTypes}
variable {cs : List Code} {bs : List (Local × Code)} {Γ₁ : LocalTypes} {f : TyVar → Ty}

/-- Whether code keeps its types when more is known. -/
def MonoOf (W W' : CellTypes) (c : Code) : Prop :=
  ∀ {Γ Γ' : LocalTypes} {t : Ty}, Γ ≤ Γ' → c.HasType W Γ t → c.HasType W' Γ' t

theorem haveTypes_mono_of (hcs : ∀ c ∈ cs, MonoOf W W' c) (h : Γ ≤ Γ') {ts : List Ty}
    (hts : HaveTypes W Γ cs ts) : HaveTypes W' Γ' cs ts := by
  induction cs generalizing ts with
  | nil => exact hts
  | cons c cs ih =>
    obtain ⟨hc, hcs⟩ := List.forall_mem_cons.1 hcs
    obtain ⟨t, us, rfl, ht, hus⟩ := hts
    exact ⟨t, us, rfl, hc h ht, ih hcs hus⟩

theorem binds_mono_of (hbs : ∀ b ∈ bs, MonoOf W W' b.2) (h : Γ ≤ Γ') (hΓ : Binds W Γ bs Γ₁) :
    ∃ Γ₁', Binds W' Γ' bs Γ₁' ∧ Γ₁ ≤ Γ₁' := by
  induction bs generalizing Γ Γ' with
  | nil => exact ⟨Γ', rfl, hΓ ▸ h⟩
  | cons b bs ih =>
    obtain ⟨hb, hbs⟩ := List.forall_mem_cons.1 hbs
    obtain ⟨S, hS, hc, hrest⟩ := hΓ
    obtain ⟨Γ₁', hΓ₁, hle⟩ := ih hbs (LocalTypes.bind_mono h b.1 S) hrest
    exact ⟨Γ₁', ⟨S, hS, fun t ht => hb h (hc t ht), hΓ₁⟩, hle⟩

/-- **Code keeps its types** if more cells have types and locals may be used at more types. -/
theorem HasType.mono (hW : ∀ i u, W i = some u → W' i = some u) (c : Code) : MonoOf W W' c := by
  induction c with
  | literal v => exact fun _ h => h
  | collection k cs ih => exact fun hΓ ⟨ts, hts, hk⟩ => ⟨ts, haveTypes_mono_of ih hΓ hts, hk⟩
  | slot x => exact fun hΓ h => hΓ x _ h
  | load c => exact fun _ ⟨u, hu, ht⟩ => ⟨u, hW _ u hu, ht⟩
  | call f cs ihf ih =>
    exact fun hΓ ⟨ts, hf, hts⟩ => ⟨ts, ihf hΓ hf, haveTypes_mono_of ih hΓ hts⟩
  | letIn bs c ihbs ihc =>
    rintro Γ Γ' t hΓ ⟨Γ₁, hbs, hc⟩
    obtain ⟨Γ₁', hbs', hle⟩ := binds_mono_of ihbs hΓ hbs
    exact ⟨Γ₁', hbs', ihc hle hc⟩
  | ite t a b iht iha ihb => exact fun hΓ ⟨ht, ha, hb⟩ => ⟨iht hΓ ht, iha hΓ ha, ihb hΓ hb⟩
  | closure ps xs c ih =>
    rintro Γ Γ' t hΓ ⟨ts, r, rfl, hlen, hc⟩
    exact ⟨ts, r, rfl, hlen,
      ih (LocalTypes.enter_mono (LocalTypes.only_mono hΓ xs) ps ts) hc⟩

/-- Whether code is of the instances of its types. -/
def ImageOf (W : CellTypes) (f : TyVar → Ty) (c : Code) : Prop :=
  ∀ {Γ : LocalTypes} {t : Ty}, c.HasType W Γ t → c.HasType W (Γ.image f) (t.bind f)

theorem haveTypes_image_of (hcs : ∀ c ∈ cs, ImageOf W f c) {ts : List Ty}
    (hts : HaveTypes W Γ cs ts) : HaveTypes W (Γ.image f) cs (ts.map (Ty.bind f)) := by
  induction cs generalizing ts with
  | nil =>
    obtain rfl := hts
    rfl
  | cons c cs ih =>
    obtain ⟨hc, hcs⟩ := List.forall_mem_cons.1 hcs
    obtain ⟨t, us, rfl, ht, hus⟩ := hts
    exact ⟨_, _, rfl, hc ht, ih hcs hus⟩

theorem binds_image_of (hbs : ∀ b ∈ bs, ImageOf W f b.2) (hΓ : Binds W Γ bs Γ₁) :
    ∃ Γ₁', Binds W (Γ.image f) bs Γ₁' ∧ Γ₁.image f ≤ Γ₁' := by
  induction bs generalizing Γ with
  | nil => exact ⟨_, rfl, by rw [show Γ₁ = Γ from hΓ]⟩
  | cons b bs ih =>
    obtain ⟨hb, hbs⟩ := List.forall_mem_cons.1 hbs
    obtain ⟨S, ⟨t, ht⟩, hc, hrest⟩ := hΓ
    obtain ⟨Γ₂, hΓ₂, hle₂⟩ := ih hbs hrest
    obtain ⟨Γ₁', hΓ₁, hle⟩ := binds_mono_of
      (fun b _ => HasType.mono (fun _ _ h => h) b.2) (LocalTypes.image_bind f b.1 S) hΓ₂
    refine ⟨Γ₁', ⟨_, ⟨_, t, ht, rfl⟩, ?_, hΓ₁⟩, le_trans hle₂ hle⟩
    rintro _ ⟨u, hu, rfl⟩
    exact hb (hc u hu)

/-- **Code is of the instances of its types**, if its locals may be used at such instances. -/
theorem HasType.image (f : TyVar → Ty) (c : Code) : ImageOf W f c := by
  induction c with
  | literal v =>
    rintro Γ _ rfl
    exact v.ty_bind f
  | collection k cs ih =>
    rintro Γ t ⟨ts, hts, hk⟩
    exact ⟨_, haveTypes_image_of ih hts, Collection.Holds.bind hk f⟩
  | slot x => exact fun h => ⟨_, h, rfl⟩
  | load c => exact fun ⟨u, hu, ht⟩ => ⟨u, hu, (Ty.instanceOf_bind _ f).trans ht⟩
  | call g cs ihg ih =>
    rintro Γ t ⟨ts, hg, hts⟩
    refine ⟨_, ?_, haveTypes_image_of ih hts⟩
    have hg' := ihg hg
    rwa [Ty.bind, Ty.bindAll_eq_map] at hg'
  | letIn bs c ihbs ihc =>
    rintro Γ t ⟨Γ₁, hbs, hc⟩
    obtain ⟨Γ₁', hbs', hle⟩ := binds_image_of ihbs hbs
    exact ⟨Γ₁', hbs', HasType.mono (fun _ _ h => h) c hle (ihc hc)⟩
  | ite t a b iht iha ihb => exact fun ⟨ht, ha, hb⟩ => ⟨iht ht, iha ha, ihb hb⟩
  | closure ps xs c ih =>
    rintro Γ _ ⟨ts, r, rfl, hlen, hc⟩
    refine ⟨ts.map (Ty.bind f), r.bind f, by rw [Ty.bind, Ty.bindAll_eq_map], by simpa using hlen, ?_⟩
    refine HasType.mono (fun _ _ h => h) c ?_ (ih hc)
    exact le_trans (LocalTypes.image_enter f ps ts)
      (LocalTypes.enter_mono (LocalTypes.image_only f xs) ps _)

end Code

end TypedLisp
