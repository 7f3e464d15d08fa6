import TypedLisp.Proofs.Heap.Comparison

/-!
# Collections of values

On objects with plain values, those without functions and variants, the order of objects is the
order of their values (`Heap.compare_eq_compare`). So the literals of sets and maps of such objects
have the sorted values (`Machine.makes_collection_set`, `Machine.makes_collection_map`).
-/

namespace TypedLisp

variable {α β : Type}

/-- Whether there are no functions and no variants in a value. -/
abbrev Value.Plain (v : Value) : Prop := v.Comparable fun _ => False

theorem Value.Plain.canonical {v : Value} (h : v.Plain) : v.canonical.Plain := by
  induction h with
  | bool b => exact .bool b
  | int n => exact .int n
  | str s => exact .str s
  | vector _ ih =>
    rw [Value.canonical, canonicalAll_eq_map]
    exact .vector (List.forall_mem_map.2 ih)
  | set _ ih =>
    rw [Value.canonical, canonicalAll_eq_map]
    exact .set fun w hw => List.forall_mem_map.2 ih w (mem_sortBy.1 hw).mem
  | map _ _ ihk ihv =>
    rw [Value.canonical, canonicalEntries_eq_map]
    refine .map (fun e he => ?_) fun e he => ?_
    · obtain ⟨e, he', rfl⟩ := List.mem_map.1 (mem_sortBy.1 he).mem
      exact ihk e he'
    · obtain ⟨e, he', rfl⟩ := List.mem_map.1 (mem_sortBy.1 he).mem
      exact ihv e he'
  | variant hd => exact hd.elim

/-! ## The order of objects with plain values -/

namespace Heap

variable {h : Heap} {n : Nat} {a b : Addr} {u v : Value}

/-- **Objects with plain values are ordered as their values are.** -/
theorem compare_eq_compare (hu : h.decode a = .ok u) (hv : h.decode b = .ok v)
    (hplain : u.Plain) : h.compare a b = u.compare v :=
  compareTo_rel_compare .eq (fun _ _ _ _ hsettled => hsettled.elim) hu hv hplain

/-! ## Ascending lists of objects with plain values -/

theorem decode_vector {items : List Addr} {vs : List Value} (ha : h.get? a = some (.vector items))
    (hvs : h.Values items vs) : h.decode a = .ok (.vector vs) :=
  decode_of_get? ha (.vector (hvs.imp fun _ _ => decodeTo_size_of_decode))

end Heap

namespace Machine

open Heap

variable {m : Machine} {a x k : Addr} {u v : Value} {vs : List Value} {ps : List (Value × Value)}
variable {items : List Addr}

/-! ## Building up collections -/

/-- Whether an address has the vector of some values. -/
def HasVector (h : Heap) (a : Addr) (vs : List Value) : Prop :=
  ∃ items, h.get? a = some (.vector items) ∧ h.Values items vs

/-- Whether an address has the set of some values. -/
def HasSet (h : Heap) (a : Addr) (vs : List Value) : Prop :=
  ∃ items, h.get? a = some (.set items) ∧ h.Values items vs

/-- Whether an address has the map of some keys and values. -/
def HasMap (h : Heap) (a : Addr) (ps : List (Value × Value)) : Prop :=
  ∃ entries, h.get? a = some (.map entries) ∧ h.EntryValues entries ps

theorem hasVector_vectorConj (ha : HasVector m.heap a vs) (hx : m.heap.decode x = .ok v) :
    (vectorConj a x m).2.fault = m.fault ∧
      HasVector (vectorConj a x m).2.heap (vectorConj a x m).1 (vs ++ [v]) := by
  obtain ⟨items, hitems, hvs⟩ := ha
  have hle : m.heap ≤ (vectorConj a x m).2.heap := (leads_vectorConj (R := LE.le) a x m).1
  have hvalues : m.heap.Values (items ++ [x]) (vs ++ [v]) :=
    List.rel_append hvs (.cons hx .nil)
  rw [vectorConj_eq hitems] at hle ⊢
  exact ⟨rfl, _, get?_alloc _ m, hvalues.of_le hle⟩

theorem hasSet_setConj (ha : HasSet m.heap a vs) (hx : m.heap.decode x = .ok v) (hv : v.Plain) :
    (setConj a x m).2.fault = m.fault ∧
      HasSet (setConj a x m).2.heap (setConj a x m).1 (insertBy (compareKeys id) v vs) := by
  obtain ⟨items, hitems, hvs⟩ := ha
  have hle : m.heap ≤ (setConj a x m).2.heap := (leads_setConj (R := LE.le) a x m).1
  have hvalues : m.heap.Values (insertItem m.heap.compare x items)
      (insertBy (compareKeys id) v vs) := by
    rw [insertItem_eq_insertBy]
    exact forall₂_insertBy hvs hx fun y w hy => compare_eq_compare hx hy hv
  rw [setConj_eq hitems] at hle ⊢
  exact ⟨rfl, _, get?_alloc _ m, hvalues.of_le hle⟩

theorem hasMap_mapAssoc {e : Addr × Addr} {p : Value × Value} (ha : HasMap m.heap a ps)
    (hk : m.heap.decode e.1 = .ok p.1) (hx : m.heap.decode e.2 = .ok p.2) (hp : p.1.Plain) :
    (mapAssoc a e.1 e.2 m).2.fault = m.fault ∧
      HasMap (mapAssoc a e.1 e.2 m).2.heap (mapAssoc a e.1 e.2 m).1
        (insertBy (compareKeys Prod.fst) p ps) := by
  obtain ⟨entries, hentries, hps⟩ := ha
  have hle : m.heap ≤ (mapAssoc a e.1 e.2 m).2.heap := (leads_mapAssoc (R := LE.le) a e.1 e.2 m).1
  have hvalues : m.heap.EntryValues (insertEntry m.heap.compare e.1 e.2 entries)
      (insertBy (compareKeys Prod.fst) p ps) := by
    rw [insertEntry_eq_insertBy]
    exact forall₂_insertBy hps ⟨hk, hx⟩ fun y w hy => compare_eq_compare hk hy.1 hp
  rw [mapAssoc_eq hentries] at hle ⊢
  exact ⟨rfl, _, get?_alloc _ m, hvalues.of_le hle⟩

/-- What holds after each step that takes in one more item holds after all of them, if each item
still shows what it did before. -/
theorem foldlM_builds {α β σ : Type} {step : Addr → α → Run Addr} (put : σ → β → σ)
    (Holds : Heap → Addr → σ → Prop) (Shows : Heap → α → β → Prop)
    (hgrows : ∀ a x, Run.Grows (step a x))
    (hshows : ∀ {h h' x b}, h ≤ h' → Shows h x b → Shows h' x b)
    (hstep : ∀ {m a s x b}, Holds m.heap a s → Shows m.heap x b →
      (step a x m).2.fault = m.fault ∧ Holds (step a x m).2.heap (step a x m).1 (put s b))
    {s : σ} {xs : List α} {bs : List β} (ha : Holds m.heap a s)
    (hxs : List.Forall₂ (Shows m.heap) xs bs) :
    (xs.foldlM step a m).2.fault = m.fault ∧
      Holds (xs.foldlM step a m).2.heap (xs.foldlM step a m).1 (bs.foldl put s) := by
  induction xs generalizing m a s bs with
  | nil =>
    cases hxs
    exact ⟨rfl, ha⟩
  | cons x xs ih =>
    cases hxs with | @cons _ b _ bs hx hxs =>
    obtain ⟨hfault, hnext⟩ := hstep ha hx
    obtain ⟨hfaults, hlast⟩ := ih hnext (hxs.imp fun _ _ => hshows (hgrows a x m).1)
    exact ⟨hfaults.trans hfault, hlast⟩

/-- Whether running makes an object of a value and reports no fault. -/
structure Makes (act : Run Addr) (m : Machine) (v : Value) : Prop where
  fault_eq : (act m).2.fault = m.fault
  decode_eq : (act m).2.heap.decode (act m).1 = .ok v

/-- **A vector literal has the values of its items.** -/
theorem makes_collection_vector (hvs : m.heap.Values items vs) :
    Makes (collection .vector items) m (.vector vs) := by
  have hle : m.heap ≤ (alloc (.vector []) m).2.heap := (grows_alloc _ m).1
  obtain ⟨hfault, _, hitems, hvalues⟩ := foldlM_builds (fun vs v => vs ++ [v]) HasVector
    (fun h x v => h.decode x = .ok v) leads_vectorConj decode_of_le hasVector_vectorConj
    ⟨[], get?_alloc (.vector []) m, .nil⟩ (hvs.of_le hle)
  have hfold : vs.foldl (fun vs v => vs ++ [v]) [] = vs := by
    simp [← List.flatMap_def]
  rw [hfold] at hvalues
  exact ⟨hfault, decode_vector hitems hvalues⟩

/-- **A set literal has the values of its items sorted.** -/
theorem makes_collection_set (hvs : m.heap.Values items vs) (hplain : ∀ v ∈ vs, v.Plain) :
    Makes (collection .set items) m (.set (sortBy id vs)) := by
  have hle : m.heap ≤ (alloc (.set []) m).2.heap := (grows_alloc _ m).1
  obtain ⟨hfault, _, hitems, hvalues⟩ := foldlM_builds
    (fun vs v => insertBy (compareKeys id) v vs) HasSet
    (fun h x v => h.decode x = .ok v ∧ v.Plain) leads_setConj
    (fun hle hx => ⟨decode_of_le hle hx.1, hx.2⟩) (fun ha hx => hasSet_setConj ha hx.1 hx.2)
    ⟨[], get?_alloc (.set []) m, .nil⟩ (forall₂_and_of_forall_mem (hvs.of_le hle) hplain)
  rw [foldl_insertBy] at hvalues
  exact ⟨hfault, decode_set hitems hvalues⟩

/-- **A map literal has its entries sorted**, the last one of every key. -/
theorem makes_collection_map (hps : m.heap.EntryValues (pairs items) ps)
    (hplain : ∀ p ∈ ps, p.1.Plain) :
    Makes (collection .map items) m (.map (sortBy Prod.fst ps)) := by
  have hle : m.heap ≤ (alloc (.map []) m).2.heap := (grows_alloc _ m).1
  have hcollection : collection .map items m = (pairs items).foldlM
      (fun p e => mapAssoc p e.1 e.2) (alloc (.map []) m).1 (alloc (.map []) m).2 := by
    rw [← mapAssocAll_eq_foldlM]
    rfl
  obtain ⟨hfault, _, hentries, hvalues⟩ := foldlM_builds
    (fun ps p => insertBy (compareKeys Prod.fst) p ps) HasMap
    (fun h (e : Addr × Addr) p => (h.decode e.1 = .ok p.1 ∧ h.decode e.2 = .ok p.2) ∧ p.1.Plain)
    (fun a e => leads_mapAssoc a e.1 e.2)
    (fun hle he => ⟨⟨decode_of_le hle he.1.1, decode_of_le hle he.1.2⟩, he.2⟩)
    (fun ha he => hasMap_mapAssoc ha he.1.1 he.1.2 he.2)
    ⟨[], get?_alloc (.map []) m, .nil⟩ (forall₂_and_of_forall_mem (hps.of_le hle) hplain)
  rw [foldl_insertBy] at hvalues
  rw [← hcollection] at hfault hentries hvalues
  exact ⟨hfault, decode_map hentries hvalues⟩

end Machine

end TypedLisp
