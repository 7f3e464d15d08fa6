import TypedLisp.Proofs.Heap.Decoding
import TypedLisp.Proofs.Runtime.CodeTyping

/-!
# The types of objects

Which objects inhabit a type (`Inhabits`). A function inhabits a type of functions if it takes as
many arguments as the type has parameters and its code is of the type; a variant inhabits a data
type if its fields inhabit the types of the constructor's fields. A data type that is declared again
does not make the older variants strangers.
-/

namespace TypedLisp

/-- The type of a function of the host. -/
def HostFn.ty : HostFn → Ty
  | .abs => .fn [.int] .int
  | .max | .min | .quot | .rem => .fn [.int, .int] .int
  | .length => .fn [.str] .int
  | .upper | .lower | .trim => .fn [.str] .str
  | .repeat => .fn [.str, .int] .str

theorem HostFn.ty_bind (fn : HostFn) (g : TyVar → Ty) : fn.ty.bind g = fn.ty := by
  cases fn <;> rfl

/-- The types of a constructor's fields. -/
def Constructor.fieldTypes (c : Constructor) : List Ty := c.fields.getD []

theorem Constructor.length_fieldTypes (c : Constructor) : c.fieldTypes.length = c.arity := by
  cases h : c.fields <;> simp [fieldTypes, arity, h]

/-- The layout of a constructor's variants, with the place of the constructor in its data type. -/
def DataType.layout (d : DataType) (c : Constructor) (tag : Nat) : Layout :=
  ⟨d.name.text, c.name.name, tag, c.arity⟩

/-- What is known of a store: the types of its cells, and the data types that its variants are of.
-/
structure StoreTypes where
  cell : CellTypes
  data : List DataType

/-- The locals that a function captured. -/
def FnObject.captured (f : FnObject) (xs : List Local) : Frame :=
  xs.zip (f.captures.map (·.getD faultAddr))

/-- Whether the object at an address inhabits a type. -/
inductive Inhabits (W : StoreTypes) (h : Heap) : Addr → Ty → Prop where
  | bool {a : Addr} {b : Bool} (ha : h.get? a = some (.bool b)) : Inhabits W h a .bool
  | int {a : Addr} {n : Int64} (ha : h.get? a = some (.int n)) : Inhabits W h a .int
  | str {a : Addr} {s : String} (ha : h.get? a = some (.str s)) : Inhabits W h a .str
  | vector {a : Addr} {items : List Addr} {t : Ty} (ha : h.get? a = some (.vector items))
      (hitems : ∀ i ∈ items, Inhabits W h i t) : Inhabits W h a (.vector t)
  | set {a : Addr} {items : List Addr} {t : Ty} (ha : h.get? a = some (.set items))
      (hitems : ∀ i ∈ items, Inhabits W h i t) : Inhabits W h a (.set t)
  | map {a : Addr} {entries : List (Addr × Addr)} {k v : Ty} (ha : h.get? a = some (.map entries))
      (hkeys : ∀ e ∈ entries, Inhabits W h e.1 k) (hvalues : ∀ e ∈ entries, Inhabits W h e.2 v) :
      Inhabits W h a (.map k v)
  | builtin {a : Addr} {f : FnObject} {b : Builtin} {g : TyVar → Ty} {ts : List Ty} {r : Ty}
      (ha : h.get? a = some (.fn f)) (hbody : f.body = .builtin b) (harity : f.arity = b.arity)
      (ht : (b.ty 0).bind g = .fn ts r) : Inhabits W h a (.fn ts r)
  | host {a : Addr} {f : FnObject} {fn : HostFn} {ts : List Ty} {r : Ty}
      (ha : h.get? a = some (.fn f)) (hbody : f.body = .host fn) (harity : f.arity = fn.arity)
      (ht : fn.ty = .fn ts r) : Inhabits W h a (.fn ts r)
  | construct {a : Addr} {f : FnObject} {d : DataType} {c : Constructor} {tag : Nat}
      {g : TyVar → Ty} (ha : h.get? a = some (.fn f)) (hbody : f.body = .construct (d.layout c tag))
      (harity : f.arity = c.arity) (hd : d ∈ W.data) (hc : d.constructors[tag]? = some c) :
      Inhabits W h a (.fn (c.fieldTypes.map (Ty.bind g)) (d.ty.bind g))
  | code {a : Addr} {f : FnObject} {params captured : List Local} {body : Code} {Γ : LocalTypes}
      {ts : List Ty} {r : Ty} (ha : h.get? a = some (.fn f))
      (hbody : f.body = .code params captured body) (harity : f.arity = params.length)
      (hlen : ts.length = params.length)
      (hcaptured : ∀ x t, Γ x t → Inhabits W h ((f.captured captured).get x) t)
      (hcode : body.HasType W.cell (Γ.enter params ts) r) : Inhabits W h a (.fn ts r)
  | variant {a : Addr} {d : DataType} {c : Constructor} {tag : Nat} {fields : List Addr}
      {g : TyVar → Ty} {t : Ty} (ha : h.get? a = some (.variant (d.layout c tag) (fields.map some)))
      (hd : d ∈ W.data) (hc : d.constructors[tag]? = some c)
      (hlen : fields.length = c.fieldTypes.length)
      (hfields : ∀ p ∈ fields.zip c.fieldTypes, Inhabits W h p.1 (p.2.bind g))
      (ht : t = d.ty.bind g) : Inhabits W h a t

/-- Whether the objects at some addresses inhabit some types. -/
abbrev InhabitAll (W : StoreTypes) (h : Heap) : List Addr → List Ty → Prop :=
  List.Forall₂ (Inhabits W h)

/-- A store about which no less is known. -/
instance : Preorder StoreTypes where
  le W W' := (∀ i u, W.cell i = some u → W'.cell i = some u) ∧ W.data ⊆ W'.data
  le_refl _ := ⟨fun _ _ h => h, fun _ h => h⟩
  le_trans _ _ _ h₁ h₂ := ⟨fun i u h => h₂.1 i u (h₁.1 i u h), fun _ h => h₂.2 (h₁.2 h)⟩

namespace Inhabits

variable {W W' : StoreTypes} {h h' : Heap} {a : Addr} {t u : Ty}

theorem mono (hW : W ≤ W') (hh : h ≤ h') (ha : Inhabits W h a t) : Inhabits W' h' a t := by
  induction ha with
  | bool ha => exact .bool (Heap.get?_of_le hh ha)
  | int ha => exact .int (Heap.get?_of_le hh ha)
  | str ha => exact .str (Heap.get?_of_le hh ha)
  | vector ha _ ih => exact .vector (Heap.get?_of_le hh ha) ih
  | set ha _ ih => exact .set (Heap.get?_of_le hh ha) ih
  | map ha _ _ ihk ihv => exact .map (Heap.get?_of_le hh ha) ihk ihv
  | builtin ha hbody harity ht => exact .builtin (Heap.get?_of_le hh ha) hbody harity ht
  | host ha hbody harity ht => exact .host (Heap.get?_of_le hh ha) hbody harity ht
  | construct ha hbody harity hd hc =>
    exact .construct (Heap.get?_of_le hh ha) hbody harity (hW.2 hd) hc
  | code ha hbody harity hlen _ hcode ih =>
    exact .code (Heap.get?_of_le hh ha) hbody harity hlen ih
      (Code.HasType.mono hW.1 _ (le_refl _) hcode)
  | variant ha hd hc hlen _ ht ih =>
    exact .variant (Heap.get?_of_le hh ha) (hW.2 hd) hc hlen ih ht

theorem of_le (ha : Inhabits W h a t) (hh : h ≤ h') : Inhabits W h' a t := ha.mono (le_refl W) hh

/-- An object that inhabits a type inhabits the types that come from it by replacing variables. The
locals that a function captured are then used at the types that come from theirs. -/
theorem bind (ha : Inhabits W h a t) (g : TyVar → Ty) : Inhabits W h a (t.bind g) := by
  induction ha with
  | bool ha => exact .bool ha
  | int ha => exact .int ha
  | str ha => exact .str ha
  | vector ha _ ih => exact .vector ha ih
  | set ha _ ih => exact .set ha ih
  | map ha _ _ ihk ihv => exact .map ha ihk ihv
  | @builtin a f b g' ts r ha hbody harity ht =>
    refine .builtin ha hbody harity (g := fun v => (g' v).bind g) ?_
    rw [← Ty.bind_bind, ht]
    rfl
  | @host a f fn ts r ha hbody harity ht =>
    refine .host ha hbody harity ?_
    rw [← fn.ty_bind g, ht]
    rfl
  | @construct a f d c tag g' ha hbody harity hd hc =>
    have hfields : (c.fieldTypes.map (Ty.bind g')).map (Ty.bind g) =
        c.fieldTypes.map (Ty.bind fun v => (g' v).bind g) := by
      rw [List.map_map]
      exact List.map_congr_left fun t _ => Ty.bind_bind g' g t
    rw [Ty.bind, Ty.bindAll_eq_map, hfields, Ty.bind_bind]
    exact .construct ha hbody harity hd hc
  | @code a f params captured body Γ ts r ha hbody harity hlen _ hcode ih =>
    rw [Ty.bind, Ty.bindAll_eq_map]
    refine .code ha hbody harity ((List.length_map _).trans hlen) (Γ := Γ.image g) ?_ ?_
    · rintro x _ ⟨t, ht, rfl⟩
      exact ih x t ht
    · exact Code.HasType.mono (fun _ _ h => h) body (LocalTypes.image_enter g params ts)
        (Code.HasType.image g body hcode)
  | @variant a d c tag fields g' t ha hd hc hlen _ ht ih =>
    refine .variant ha hd hc hlen (g := fun v => (g' v).bind g) (fun p hp => ?_) ?_
    · rw [← Ty.bind_bind]
      exact ih p hp
    · rw [ht, Ty.bind_bind]

/-- **An object that inhabits a type inhabits all instances of it.** -/
theorem instanceOf (ha : Inhabits W h a u) (ht : t.InstanceOf u) : Inhabits W h a t := by
  obtain ⟨s, rfl⟩ := ht
  rw [Ty.apply_eq_bind]
  exact ha.bind s.toFun

/-! ### What inhabits a type -/

end Inhabits

theorem DataType.ty_bind (d : DataType) (g : TyVar → Ty) :
    d.ty.bind g = .data d.name.text ∨ ∃ ts, d.ty.bind g = .applied (.data d.name.text) ts := by
  unfold DataType.ty
  split
  · exact .inl rfl
  · exact .inr ⟨_, rfl⟩

theorem DataType.ty_ne_fn (d : DataType) (ts : List Ty) (r : Ty) : d.ty ≠ .fn ts r := by
  unfold DataType.ty
  split <;> exact nofun

namespace Inhabits

variable {W : StoreTypes} {h : Heap} {a : Addr} {t : Ty}

theorem exists_bool (ha : Inhabits W h a .bool) : ∃ b, h.get? a = some (.bool b) := by
  cases ha with
  | bool ha => exact ⟨_, ha⟩
  | @variant _ d _ _ _ g _ _ _ _ _ _ ht => obtain h | ⟨_, h⟩ := d.ty_bind g <;> cases ht.trans h

theorem exists_int (ha : Inhabits W h a .int) : ∃ n, h.get? a = some (.int n) := by
  cases ha with
  | int ha => exact ⟨_, ha⟩
  | @variant _ d _ _ _ g _ _ _ _ _ _ ht => obtain h | ⟨_, h⟩ := d.ty_bind g <;> cases ht.trans h

theorem exists_str (ha : Inhabits W h a .str) : ∃ s, h.get? a = some (.str s) := by
  cases ha with
  | str ha => exact ⟨_, ha⟩
  | @variant _ d _ _ _ g _ _ _ _ _ _ ht => obtain h | ⟨_, h⟩ := d.ty_bind g <;> cases ht.trans h

theorem exists_vector (ha : Inhabits W h a (.vector t)) :
    ∃ items, h.get? a = some (.vector items) ∧ ∀ i ∈ items, Inhabits W h i t := by
  cases ha with
  | vector ha hitems => exact ⟨_, ha, hitems⟩
  | @variant _ d _ _ _ g _ _ _ _ _ _ ht => obtain h | ⟨_, h⟩ := d.ty_bind g <;> cases ht.trans h

theorem exists_set (ha : Inhabits W h a (.set t)) :
    ∃ items, h.get? a = some (.set items) ∧ ∀ i ∈ items, Inhabits W h i t := by
  cases ha with
  | set ha hitems => exact ⟨_, ha, hitems⟩
  | @variant _ d _ _ _ g _ _ _ _ _ _ ht => obtain h | ⟨_, h⟩ := d.ty_bind g <;> cases ht.trans h

theorem exists_map {k v : Ty} (ha : Inhabits W h a (.map k v)) :
    ∃ entries, h.get? a = some (.map entries) ∧
      ∀ e ∈ entries, Inhabits W h e.1 k ∧ Inhabits W h e.2 v := by
  cases ha with
  | map ha hkeys hvalues => exact ⟨_, ha, fun e he => ⟨hkeys e he, hvalues e he⟩⟩
  | @variant _ d _ _ _ g _ _ _ _ _ _ ht => obtain h | ⟨_, h⟩ := d.ty_bind g <;> cases ht.trans h

theorem exists_fn {ts : List Ty} {r : Ty} (ha : Inhabits W h a (.fn ts r)) :
    ∃ f, h.get? a = some (.fn f) ∧ f.arity = ts.length := by
  cases ha with
  | @builtin _ f b g _ _ ha hbody harity ht =>
    refine ⟨f, ha, harity.trans ?_⟩
    cases b <;> cases ht <;> rfl
  | @host _ f fn _ _ ha hbody harity ht =>
    refine ⟨f, ha, harity.trans ?_⟩
    cases fn <;> cases ht <;> rfl
  | @construct _ f d c tag g ha hbody harity hd hc => 
    refine ⟨f, ha, harity.trans ?_⟩
    rw [List.length_map, c.length_fieldTypes]
  | code ha hbody harity hlen => exact ⟨_, ha, harity.trans hlen.symm⟩
  | @variant _ d _ _ _ g _ _ _ _ _ _ ht => obtain h | ⟨_, h⟩ := d.ty_bind g <;> cases ht.trans h

theorem readable (ha : Inhabits W h a t) : h.Readable a := by
  induction ha with
  | bool ha | int ha | str ha | builtin ha | host ha | construct ha | code ha =>
    exact .of_get? ha rfl (List.forall_mem_nil _)
  | vector ha _ ih | set ha _ ih => exact .of_get? ha rfl ih
  | map ha _ _ ihk ihv =>
    refine .of_get? ha rfl (List.forall_mem_flatMap.2 fun e he => ?_)
    simpa using ⟨ihk e he, ihv e he⟩
  | variant ha _ _ hlen _ _ ih =>
    refine .of_get? ha rfl fun p hp => ?_
    rw [← List.map_fst_zip (Nat.le_of_eq hlen)] at hp
    obtain ⟨q, hq, rfl⟩ := List.mem_map.1 hp
    exact ih q hq

/-- **An object that inhabits a type has a value.** -/
theorem decode (ha : Inhabits W h a t) : ∃ v, h.decode a = .ok v := ha.readable.decode

end Inhabits

end TypedLisp
