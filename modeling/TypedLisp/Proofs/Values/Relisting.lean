import TypedLisp.Proofs.Values.Canonical

/-!
# Values with the same canonical form

A value is canonical if at every depth the items of its sets and the keys of its maps ascend
(`Value.IsCanonical`). The canonical form of a value is such a value, and **the canonical values are
those that are their own canonical form** (`Value.canonical_eq_self_iff`).
-/

namespace TypedLisp

variable {α : Type} {key : α → Value} {a : α} {l l' : List α}

/-! ## Lists that sort to the same list -/

theorem Ascending.isLast_iff (h : Ascending key l) : IsLast key l a ↔ a ∈ l := by
  refine ⟨IsLast.mem, fun ha => ?_⟩
  obtain ⟨before, after, rfl⟩ := List.append_of_mem ha
  refine ⟨before, after, rfl, fun b hb => ?_⟩
  have hlater : ∀ b ∈ after, (key a).compare (key b) = .lt :=
    (List.pairwise_cons.1 (List.pairwise_append.1 h).2.1).1
  exact (Value.ne_of_compare_lt (hlater b hb)).symm

theorem Ascending.sortBy_eq (h : Ascending key l) : sortBy key l = l :=
  (eq_sortBy h fun _ => h.isLast_iff.symm).symm

theorem sortBy_congr (h : ∀ a, IsLast key l a ↔ IsLast key l' a) : sortBy key l = sortBy key l' :=
  eq_sortBy (ascending_sortBy key l) fun a => mem_sortBy.trans (h a)

/-- If an item is its own key, the last ones of all keys are all that there are. -/
theorem isLast_id_iff {v : Value} {vs : List Value} : IsLast id vs v ↔ v ∈ vs := by
  refine ⟨IsLast.mem, fun hv => ?_⟩
  induction vs with
  | nil => cases hv
  | cons w vs ih =>
    rw [isLast_cons_iff]
    by_cases hmem : v ∈ vs
    · exact .inr (ih hmem)
    · obtain rfl : v = w := (List.mem_cons.1 hv).resolve_right hmem
      exact .inl ⟨rfl, fun c hc (hcv : c = v) => hmem (hcv ▸ hc)⟩

theorem isLast_swap (key : α → Value) {e e' : α} (hne : key e ≠ key e') (before after : List α) :
    IsLast key (before ++ e :: e' :: after) a ↔ IsLast key (before ++ e' :: e :: after) a := by
  induction before with
  | nil =>
    simp only [List.nil_append, isLast_cons_iff, List.forall_mem_cons]
    constructor
    · rintro (⟨rfl, -, h⟩ | ⟨rfl, h⟩ | h)
      · exact .inr (.inl ⟨rfl, h⟩)
      · exact .inl ⟨rfl, hne, h⟩
      · exact .inr (.inr h)
    · rintro (⟨rfl, -, h⟩ | ⟨rfl, h⟩ | h)
      · exact .inr (.inl ⟨rfl, h⟩)
      · exact .inl ⟨rfl, hne.symm, h⟩
      · exact .inr (.inr h)
  | cons b before ih =>
    have hmem : ∀ c, c ∈ before ++ e :: e' :: after ↔ c ∈ before ++ e' :: e :: after := fun c =>
      (List.Perm.append_left before (.swap e' e after)).mem_iff
    simp only [List.cons_append, isLast_cons_iff, ih, hmem]

namespace Value

/-! ## Canonical values -/

/-- Whether at every depth the items of sets and the keys of maps ascend. -/
inductive IsCanonical : Value → Prop where
  | bool (b : Bool) : IsCanonical (.bool b)
  | int (n : Int64) : IsCanonical (.int n)
  | str (s : String) : IsCanonical (.str s)
  | vector {vs : List Value} (h : ∀ v ∈ vs, IsCanonical v) : IsCanonical (.vector vs)
  | set {vs : List Value} (hitems : Ascending id vs) (h : ∀ v ∈ vs, IsCanonical v) :
      IsCanonical (.set vs)
  | map {es : List (Value × Value)} (hkeys : Ascending Prod.fst es)
      (hk : ∀ e ∈ es, IsCanonical e.1) (hv : ∀ e ∈ es, IsCanonical e.2) : IsCanonical (.map es)
  | fn (name : String) (arity : Nat) : IsCanonical (.fn name arity)
  | variant (dataType constructor : String) {vs : List Value} (h : ∀ v ∈ vs, IsCanonical v) :
      IsCanonical (.variant dataType constructor vs)

theorem isCanonical_canonical (v : Value) : v.canonical.IsCanonical := by
  have hall : ∀ {vs : List Value}, (∀ v ∈ vs, v.canonical.IsCanonical) →
      ∀ v ∈ canonicalAll vs, v.IsCanonical := fun ih => by
    rw [canonicalAll_eq_map]
    exact List.forall_mem_map.2 ih
  induction v using Value.ind with
  | bool b => exact .bool b
  | int n => exact .int n
  | str s => exact .str s
  | vector vs ih => exact .vector (hall ih)
  | set vs ih => exact .set (ascending_sortBy ..) fun v hv => hall ih v (mem_sortBy.1 hv).mem
  | map es ih =>
    have hentries : ∀ e ∈ canonicalEntries es, e.1.IsCanonical ∧ e.2.IsCanonical := by
      rw [canonicalEntries_eq_map]
      exact List.forall_mem_map.2 ih
    exact .map (ascending_sortBy ..) (fun e he => (hentries e (mem_sortBy.1 he).mem).1)
      fun e he => (hentries e (mem_sortBy.1 he).mem).2
  | fn name arity => exact .fn name arity
  | variant d c vs ih => exact .variant d c (hall ih)

theorem IsCanonical.canonical_eq {v : Value} (h : v.IsCanonical) : v.canonical = v := by
  have hall : ∀ {vs : List Value}, (∀ v ∈ vs, v.canonical = v) → canonicalAll vs = vs :=
    fun ih => by rw [canonicalAll_eq_map, List.map_congr_left ih, List.map_id']
  induction h with
  | bool b => rfl
  | int n => rfl
  | str s => rfl
  | vector _ ih => rw [canonical, hall ih]
  | set hitems _ ih => rw [canonical, hall ih, hitems.sortBy_eq]
  | @map es hkeys _ _ ihk ihv =>
    have hentries : canonicalEntries es = es := by
      rw [canonicalEntries_eq_map, List.map_congr_left fun e he =>
        Prod.ext (ihk e he) (ihv e he), List.map_id']
    rw [canonical, hentries, hkeys.sortBy_eq]
  | fn name arity => rfl
  | variant d c _ ih => rw [canonical, hall ih]

/-- **The canonical values are those that are their own canonical form.** -/
theorem canonical_eq_self_iff {v : Value} : v.canonical = v ↔ v.IsCanonical :=
  ⟨fun h => h ▸ isCanonical_canonical v, IsCanonical.canonical_eq⟩

/-! ## Relistings -/

/-- Whether one value lists items of sets and entries of maps of another one in another order. Two
entries of a map may change places if the canonical forms of their keys differ. -/
inductive Relisted : Value → Value → Prop where
  | refl (v : Value) : Relisted v v
  | trans {u v w : Value} (h : Relisted u v) (h' : Relisted v w) : Relisted u w
  | items {vs ws : List Value} (h : vs.Perm ws) : Relisted (.set vs) (.set ws)
  | entries (before after : List (Value × Value)) {e e' : Value × Value}
      (hne : e.1.canonical ≠ e'.1.canonical) :
      Relisted (.map (before ++ e :: e' :: after)) (.map (before ++ e' :: e :: after))
  | inVector (before after : List Value) {v w : Value} (h : Relisted v w) :
      Relisted (.vector (before ++ v :: after)) (.vector (before ++ w :: after))
  | inSet (before after : List Value) {v w : Value} (h : Relisted v w) :
      Relisted (.set (before ++ v :: after)) (.set (before ++ w :: after))
  | inKey (before after : List (Value × Value)) {k k' : Value} (v : Value) (h : Relisted k k') :
      Relisted (.map (before ++ (k, v) :: after)) (.map (before ++ (k', v) :: after))
  | inValue (before after : List (Value × Value)) (k : Value) {v v' : Value} (h : Relisted v v') :
      Relisted (.map (before ++ (k, v) :: after)) (.map (before ++ (k, v') :: after))

/-- **A relisting has the same canonical form.** -/
theorem Relisted.canonical_eq {v w : Value} (h : v.Relisted w) : v.canonical = w.canonical := by
  induction h with
  | refl v => rfl
  | trans _ _ ih ih' => exact ih.trans ih'
  | items hperm =>
    rw [canonical, canonical, canonicalAll_eq_map, canonicalAll_eq_map]
    refine congrArg Value.set (sortBy_congr fun v => ?_)
    rw [isLast_id_iff, isLast_id_iff, (hperm.map canonical).mem_iff]
  | entries before after hne =>
    rw [canonical, canonical, canonicalEntries_eq_map, canonicalEntries_eq_map]
    simp only [List.map_append, List.map_cons]
    refine congrArg Value.map (sortBy_congr fun e => ?_)
    exact isLast_swap Prod.fst hne _ _
  | inVector before after _ ih =>
    simp only [canonical, canonicalAll_eq_map, List.map_append, List.map_cons, ih]
  | inSet before after _ ih =>
    simp only [canonical, canonicalAll_eq_map, List.map_append, List.map_cons, ih]
  | inKey before after v _ ih =>
    simp only [canonical, canonicalEntries_eq_map, List.map_append, List.map_cons, ih]
  | inValue before after k _ ih =>
    simp only [canonical, canonicalEntries_eq_map, List.map_append, List.map_cons, ih]

end Value

end TypedLisp
