import Mathlib.Data.List.Sort
import TypedLisp.Proofs.Values.Order

/-!
# Canonical values

The items of a set and the entries of a map may be listed in any order and more than once. In the
canonical form of a value (`Value.canonical`) they are sorted, and of items with equal keys only the
last one is there; the key of an item of a set is the item itself. So it is at every depth.
-/

namespace TypedLisp

variable {α : Type} {key : α → Value} {a b : α} {l l' : List α}

/-! ## Lists sorted by keys -/

/-- The list without the items that have an equal key further on. -/
def keepLast (key : α → Value) : List α → List α
  | [] => []
  | a :: l => if key a ∈ l.map key then keepLast key l else a :: keepLast key l

/-- The list in the order of keys, with the last item of every key. -/
def sortBy (key : α → Value) (l : List α) : List α :=
  (keepLast key l).mergeSort fun a b => ((key a).compare (key b)).isLE

/-- Whether the keys of a list ascend. -/
def Ascending (key : α → Value) (l : List α) : Prop :=
  l.Pairwise fun a b => (key a).compare (key b) = .lt

/-- Whether an item of a list is the last one of its key. -/
def IsLast (key : α → Value) (l : List α) (a : α) : Prop :=
  ∃ before after, l = before ++ a :: after ∧ ∀ b ∈ after, key b ≠ key a

theorem not_isLast_nil : ¬ IsLast key [] a := by
  rintro ⟨before, after, h, -⟩
  simp at h

theorem isLast_cons_iff :
    IsLast key (b :: l) a ↔ (a = b ∧ ∀ c ∈ l, key c ≠ key b) ∨ IsLast key l a := by
  constructor
  · rintro ⟨before, after, h, hafter⟩
    cases before with
    | nil =>
      obtain ⟨rfl, rfl⟩ := List.cons.inj h
      exact .inl ⟨rfl, hafter⟩
    | cons c before =>
      obtain ⟨rfl, rfl⟩ := List.cons.inj h
      exact .inr ⟨before, after, rfl, hafter⟩
  · rintro (⟨rfl, h⟩ | ⟨before, after, rfl, hafter⟩)
    · exact ⟨[], l, rfl, h⟩
    · exact ⟨b :: before, after, rfl, hafter⟩

theorem IsLast.mem (h : IsLast key l a) : a ∈ l := by
  obtain ⟨before, after, rfl, -⟩ := h
  simp

theorem mem_keepLast : a ∈ keepLast key l ↔ IsLast key l a := by
  induction l with
  | nil => simp [keepLast, not_isLast_nil]
  | cons b l ih =>
    rw [keepLast, isLast_cons_iff]
    split
    · rename_i hmem
      obtain ⟨c, hc, hkey⟩ := List.mem_map.1 hmem
      rw [ih]
      exact ⟨.inr, fun h => h.resolve_left fun ⟨_, hne⟩ => hne c hc hkey⟩
    · rename_i hmem
      rw [List.mem_cons, ih]
      have hne : ∀ c ∈ l, key c ≠ key b := fun c hc hkey => hmem (List.mem_map.2 ⟨c, hc, hkey⟩)
      exact or_congr_left ⟨fun h => ⟨h, hne⟩, And.left⟩

theorem pairwise_keepLast (key : α → Value) (l : List α) :
    (keepLast key l).Pairwise fun a b => key a ≠ key b := by
  induction l with
  | nil => exact .nil
  | cons b l ih =>
    rw [keepLast]
    split
    · exact ih
    · rename_i hmem
      refine .cons (fun c hc hkey => hmem ?_) ih
      exact List.mem_map.2 ⟨c, (mem_keepLast.1 hc).mem, hkey.symm⟩

theorem mem_sortBy : a ∈ sortBy key l ↔ IsLast key l a := by
  rw [sortBy, List.mem_mergeSort, mem_keepLast]

theorem ascending_sortBy (key : α → Value) (l : List α) : Ascending key (sortBy key l) := by
  have hle : (sortBy key l).Pairwise fun a b => ((key a).compare (key b)).isLE :=
    List.pairwise_mergeSort (fun _ _ _ => Std.TransCmp.isLE_trans) (fun a b => by
      rw [Value.compare_swap (key b)]
      cases (key a).compare (key b) <;> rfl) _
  have hne : (sortBy key l).Pairwise fun a b => key a ≠ key b :=
    (List.mergeSort_perm _ _).symm.pairwise (pairwise_keepLast key l) fun h => h.symm
  refine (hle.and hne).imp fun ⟨hab, hne⟩ => ?_
  exact (Ordering.isLE_iff_eq_lt_or_eq_eq.1 hab).resolve_right fun h => hne (Value.eq_of_compare h)

/-- **A list whose keys ascend is determined by its members.** -/
theorem Ascending.ext (h : Ascending key l) (h' : Ascending key l') (hmem : ∀ a, a ∈ l ↔ a ∈ l') :
    l = l' := by
  have hnodup : ∀ {l : List α}, Ascending key l → l.Nodup := fun hl =>
    hl.imp fun {a b} hab heq => Value.ne_of_compare_lt hab (congrArg key heq)
  refine List.Perm.eq_of_pairwise (fun a b _ _ hab hba => ?_) h h'
    ((List.perm_ext_iff_of_nodup (hnodup h) (hnodup h')).2 hmem)
  exact absurd rfl (Value.ne_of_compare_lt (Value.compare_lt_trans hab hba))

/-- A list is the sorted one of another if its keys ascend and it has the last items of that. -/
theorem eq_sortBy (h : Ascending key l') (hmem : ∀ a, a ∈ l' ↔ IsLast key l a) :
    l' = sortBy key l :=
  h.ext (ascending_sortBy key l) fun a => by rw [hmem, mem_sortBy]

/-! ## Putting items in one after the other -/

/-- Puts an item into a list that ascends, in place of an equal one. -/
def insertBy (cmp : α → α → Ordering) (a : α) : List α → List α
  | [] => [a]
  | b :: l =>
    match cmp a b with
    | .lt => a :: b :: l
    | .eq => a :: l
    | .gt => b :: insertBy cmp a l

section

variable {cmp : α → α → Ordering} [Std.TransCmp cmp]

/-- An item that is put in takes the place of an equal one, and all others stay. -/
theorem mem_insertBy_iff (h : l.Pairwise fun a b => cmp a b = .lt) :
    b ∈ insertBy cmp a l ↔ b = a ∨ (b ∈ l ∧ cmp a b ≠ .eq) := by
  induction l with
  | nil => simp [insertBy]
  | cons c l ih =>
    obtain ⟨hc, hl⟩ := List.pairwise_cons.1 h
    rw [insertBy]
    cases hcmp : cmp a c with
    | lt =>
      -- all items of the list come after the one that is put in
      have hne : ∀ d ∈ c :: l, cmp a d ≠ .eq := by
        refine List.forall_mem_cons.2 ⟨by simp [hcmp], fun d hd => ?_⟩
        simp [Std.TransCmp.lt_trans hcmp (hc d hd)]
      rw [List.mem_cons]
      exact or_congr_right ⟨fun hb => ⟨hb, hne b hb⟩, And.left⟩
    | eq =>
      have hne : ∀ d ∈ l, cmp a d ≠ .eq := fun d hd => by
        simp [Std.TransCmp.congr_left hcmp, hc d hd]
      rw [List.mem_cons, List.mem_cons]
      refine or_congr_right ⟨fun hb => ⟨.inr hb, hne b hb⟩, fun ⟨hb, hab⟩ => ?_⟩
      exact hb.resolve_left fun heq => hab (by rw [heq, hcmp])
    | gt =>
      rw [List.mem_cons, List.mem_cons, ih hl]
      constructor
      · rintro (rfl | rfl | ⟨hb, hab⟩)
        · exact .inr ⟨.inl rfl, by simp [hcmp]⟩
        · exact .inl rfl
        · exact .inr ⟨.inr hb, hab⟩
      · rintro (rfl | ⟨rfl | hb, hab⟩)
        · exact .inr (.inl rfl)
        · exact .inl rfl
        · exact .inr (.inr ⟨hb, hab⟩)

theorem pairwise_insertBy (h : l.Pairwise fun a b => cmp a b = .lt) (a : α) :
    (insertBy cmp a l).Pairwise fun a b => cmp a b = .lt := by
  induction l with
  | nil => exact List.pairwise_singleton ..
  | cons c l ih =>
    obtain ⟨hc, hl⟩ := List.pairwise_cons.1 h
    rw [insertBy]
    cases hcmp : cmp a c with
    | lt =>
      refine List.pairwise_cons.2 ⟨List.forall_mem_cons.2 ⟨hcmp, fun d hd => ?_⟩, h⟩
      exact Std.TransCmp.lt_trans hcmp (hc d hd)
    | eq =>
      refine List.pairwise_cons.2 ⟨fun d hd => ?_, hl⟩
      rw [Std.TransCmp.congr_left hcmp]
      exact hc d hd
    | gt =>
      refine List.pairwise_cons.2 ⟨fun d hd => ?_, ih hl⟩
      rcases (mem_insertBy_iff hl).1 hd with rfl | ⟨hd, -⟩
      · exact Std.OrientedCmp.lt_of_gt hcmp
      · exact hc d hd

end

/-- The order of items by their keys. -/
def compareKeys (key : α → Value) (a b : α) : Ordering := (key a).compare (key b)

instance (key : α → Value) : Std.TransCmp (compareKeys key) := transCmp_comap Value.compare key

theorem ascending_iff_pairwise :
    Ascending key l ↔ l.Pairwise fun a b => compareKeys key a b = .lt := Iff.rfl

theorem mem_insertBy (h : Ascending key l) :
    b ∈ insertBy (compareKeys key) a l ↔ b = a ∨ (b ∈ l ∧ key b ≠ key a) := by
  rw [mem_insertBy_iff (ascending_iff_pairwise.1 h), compareKeys, Ne,
    Std.LawfulEqCmp.compare_eq_iff_eq, eq_comm (a := key a)]

theorem Ascending.insertBy (h : Ascending key l) (a : α) :
    Ascending key (insertBy (compareKeys key) a l) :=
  ascending_iff_pairwise.2 (pairwise_insertBy (ascending_iff_pairwise.1 h) a)

/-- What is there after items have been put in: the last items of those put in, and of those that
were there before the ones whose keys did not come again. -/
theorem mem_foldl_insertBy {acc : List α} (h : Ascending key acc) :
    b ∈ l.foldl (fun acc a => insertBy (compareKeys key) a acc) acc ↔
      IsLast key l b ∨ (b ∈ acc ∧ ∀ c ∈ l, key c ≠ key b) := by
  induction l generalizing acc with
  | nil => simp [not_isLast_nil]
  | cons a l ih =>
    rw [List.foldl_cons, ih (h.insertBy a), mem_insertBy h, isLast_cons_iff, List.forall_mem_cons]
    constructor
    · rintro (hlast | ⟨rfl | ⟨hb, hba⟩, hl⟩)
      · exact .inl (.inr hlast)
      · exact .inl (.inl ⟨rfl, hl⟩)
      · exact .inr ⟨hb, hba.symm, hl⟩
    · rintro ((⟨rfl, hl⟩ | hlast) | ⟨hb, hab, hl⟩)
      · exact .inr ⟨.inl rfl, hl⟩
      · exact .inl hlast
      · exact .inr ⟨.inr ⟨hb, hab.symm⟩, hl⟩

theorem Ascending.foldl_insertBy {acc : List α} (h : Ascending key acc) (l : List α) :
    Ascending key (l.foldl (fun acc a => TypedLisp.insertBy (compareKeys key) a acc) acc) := by
  induction l generalizing acc with
  | nil => exact h
  | cons a l ih => exact ih (h.insertBy a)

/-- **Putting in the items of a list one after the other sorts it.** -/
theorem foldl_insertBy (key : α → Value) (l : List α) :
    l.foldl (fun acc a => insertBy (compareKeys key) a acc) [] = sortBy key l :=
  eq_sortBy (Ascending.foldl_insertBy .nil l) fun a => by
    rw [mem_foldl_insertBy .nil]
    simp

/-! ## Canonical forms -/

namespace Value

mutual

/-- The value with its sets and maps sorted at every depth: of equal items of a set one is left, and
of entries of a map with equal keys the last one. -/
def canonical : Value → Value
  | .vector vs => .vector (canonicalAll vs)
  | .set vs => .set (sortBy id (canonicalAll vs))
  | .map es => .map (sortBy Prod.fst (canonicalEntries es))
  | .variant d c vs => .variant d c (canonicalAll vs)
  | v => v

/-- The canonical forms of some values. -/
def canonicalAll : List Value → List Value
  | [] => []
  | v :: vs => canonical v :: canonicalAll vs

/-- The canonical forms of keys and values. -/
def canonicalEntries : List (Value × Value) → List (Value × Value)
  | [] => []
  | (k, v) :: es => (canonical k, canonical v) :: canonicalEntries es

end

theorem canonicalAll_eq_map (vs : List Value) : canonicalAll vs = vs.map canonical := by
  induction vs with
  | nil => rfl
  | cons v vs ih => rw [canonicalAll, ih, List.map_cons]

theorem canonicalEntries_eq_map (es : List (Value × Value)) :
    canonicalEntries es = es.map fun e => (e.1.canonical, e.2.canonical) := by
  induction es with
  | nil => rfl
  | cons e es ih => rw [canonicalEntries, ih, List.map_cons]

end Value

end TypedLisp
