import TypedLisp.Proofs.Heap.Decoding
import TypedLisp.Proofs.Heap.ObjectOrder
import TypedLisp.Proofs.Machine.Layouts

/-!
# Comparing objects and comparing values

Objects are compared by their contents. Of a variant the order looks at the name of the data type
and the tag of the constructor, where the value has the name of the constructor. The two say the
same of a data type if its layouts on the heap agree (`Heap.TagsAgree`): equal tags mean equal
constructors. Let this be so for some *settled* data types.
-/

namespace TypedLisp

/-- Whether there is no function in a value, and the data types in it are settled. -/
inductive Value.Comparable (settled : String → Prop) : Value → Prop where
  | bool (b : Bool) : Comparable settled (.bool b)
  | int (n : Int64) : Comparable settled (.int n)
  | str (s : String) : Comparable settled (.str s)
  | vector {items : List Value} (h : ∀ v ∈ items, Comparable settled v) :
      Comparable settled (.vector items)
  | set {items : List Value} (h : ∀ v ∈ items, Comparable settled v) :
      Comparable settled (.set items)
  | map {entries : List (Value × Value)} (hk : ∀ e ∈ entries, Comparable settled e.1)
      (hv : ∀ e ∈ entries, Comparable settled e.2) : Comparable settled (.map entries)
  | variant {dataType constructor : String} {fields : List Value} (hd : settled dataType)
      (h : ∀ v ∈ fields, Comparable settled v) :
      Comparable settled (.variant dataType constructor fields)

theorem Value.Comparable.of_mem_groups {settled : String → Prop} {v w : Value}
    (hv : v.Comparable settled) {g : List Value} (hg : g ∈ v.groups) (hw : w ∈ g) :
    w.Comparable settled := by
  cases hv with
  | vector h | set h | variant _ h =>
    obtain ⟨x, hx, rfl⟩ := List.mem_map.1 hg
    exact List.mem_singleton.1 hw ▸ h x hx
  | map hk hv =>
    obtain ⟨e, he, rfl⟩ := List.mem_map.1 hg
    simp only [List.mem_cons, List.not_mem_nil, or_false] at hw
    rcases hw with rfl | rfl
    · exact hk e he
    · exact hv e he
  | _ => cases hg

theorem forall₂_and_of_forall_mem {α β : Type} {R : α → β → Prop} {P : β → Prop} {xs : List α}
    {us : List β} (hxs : List.Forall₂ R xs us) (hus : ∀ u ∈ us, P u) :
    List.Forall₂ (fun x u => R x u ∧ P u) xs us := by
  induction hxs with
  | nil => exact .nil
  | cons hx _ ih =>
    obtain ⟨hu, hus⟩ := List.forall_mem_cons.1 hus
    exact .cons ⟨hx, hu⟩ (ih hus)

theorem mapM_eq_ok_iff {ε α β : Type} {f : α → Except ε β} {R : α → β → Prop}
    (hf : ∀ a b, f a = .ok b ↔ R a b) {l : List α} {bs : List β} :
    l.mapM f = .ok bs ↔ List.Forall₂ R l bs := by
  induction l generalizing bs with
  | nil =>
    rw [List.mapM_nil]
    exact ⟨fun h => by cases h; exact .nil, fun h => by cases h; rfl⟩
  | cons a l ih =>
    rw [List.mapM_cons]
    simp only [bind_eq_ok, pure, Except.pure, Except.ok.injEq, hf, ih]
    constructor
    · rintro ⟨b, hb, bs', hbs, rfl⟩
      exact .cons hb hbs
    · intro h
      cases h with
      | cons hb hbs => exact ⟨_, hb, _, hbs, rfl⟩

theorem bind_pure_eq_ok {ε α β : Type} {x : Except ε α} {f : α → β} {b : β} :
    (x >>= fun a => pure (f a)) = .ok b ↔ ∃ a, x = .ok a ∧ f a = b := by
  rw [bind_eq_ok]
  simp only [pure, Except.pure, Except.ok.injEq]

namespace Heap

variable {h h' : Heap} {n n' : Nat} {a b : Addr} {u v : Value} {settled : String → Prop}
variable {items : List Addr} {vs : List Value} {entries : List (Addr × Addr)}
  {ps : List (Value × Value)}

/-! ## What an object shows -/

/-- The value of an object, if the values of its parts can be read to a depth. -/
inductive Shows (h : Heap) (n : Nat) : Object → Value → Prop where
  | bool (b : Bool) : Shows h n (.bool b) (.bool b)
  | int (k : Int64) : Shows h n (.int k) (.int k)
  | str (s : String) : Shows h n (.str s) (.str s)
  | vector {items : List Addr} {vs : List Value}
      (hitems : List.Forall₂ (fun a v => h.decodeTo n a = .ok v) items vs) :
      Shows h n (.vector items) (.vector vs)
  | set {items : List Addr} {vs : List Value}
      (hitems : List.Forall₂ (fun a v => h.decodeTo n a = .ok v) items vs) :
      Shows h n (.set items) (.set vs)
  | map {entries : List (Addr × Addr)} {vs : List (Value × Value)}
      (hentries : List.Forall₂
        (fun e p => h.decodeTo n e.1 = .ok p.1 ∧ h.decodeTo n e.2 = .ok p.2) entries vs) :
      Shows h n (.map entries) (.map vs)
  | fn (f : FnObject) : Shows h n (.fn f) (.fn f.name f.arity)
  | variant (l : Layout) {fields : List (Option Addr)} {vs : List Value}
      (hfields : List.Forall₂ (fun s v => ∃ a, s = some a ∧ h.decodeTo n a = .ok v) fields vs) :
      Shows h n (.variant l fields) (.variant l.dataType l.constructor vs)

theorem decodeSlot_eq_ok (s : Option Addr) (w : Value) :
    (match s with
      | some a => h.decodeTo n a
      | none => .error .escaped) = Except.ok w ↔ ∃ a, s = some a ∧ h.decodeTo n a = .ok w := by
  cases s <;> simp

theorem decodeTo_succ_iff : h.decodeTo (n + 1) a = .ok v ↔ h.Shows n (h.object a) v := by
  rw [decodeTo]
  cases h.object a with
  | bool b => exact ⟨fun hv => by cases hv; exact .bool b, fun hv => by cases hv; rfl⟩
  | int k => exact ⟨fun hv => by cases hv; exact .int k, fun hv => by cases hv; rfl⟩
  | str s => exact ⟨fun hv => by cases hv; exact .str s, fun hv => by cases hv; rfl⟩
  | fn f => exact ⟨fun hv => by cases hv; exact .fn f, fun hv => by cases hv; rfl⟩
  | fault => exact ⟨by rintro ⟨⟩, by rintro ⟨⟩⟩
  | vector items =>
    rw [bind_pure_eq_ok]
    simp only [mapM_eq_ok_iff fun _ _ => Iff.rfl]
    exact ⟨by rintro ⟨vs, hvs, rfl⟩; exact .vector hvs, fun hv => by cases hv; exact ⟨_, ‹_›, rfl⟩⟩
  | set items =>
    rw [bind_pure_eq_ok]
    simp only [mapM_eq_ok_iff fun _ _ => Iff.rfl]
    exact ⟨by rintro ⟨vs, hvs, rfl⟩; exact .set hvs, fun hv => by cases hv; exact ⟨_, ‹_›, rfl⟩⟩
  | map entries =>
    have hentry : ∀ (e : Addr × Addr) (p : Value × Value),
        (do return (← h.decodeTo n e.1, ← h.decodeTo n e.2) : Except Fault (Value × Value)) =
          .ok p ↔ h.decodeTo n e.1 = .ok p.1 ∧ h.decodeTo n e.2 = .ok p.2 := by
      rintro e ⟨k, w⟩
      simp only [bind_eq_ok, pure, Except.pure, Except.ok.injEq, Prod.mk.injEq]
      constructor
      · rintro ⟨_, hk, _, hw, rfl, rfl⟩
        exact ⟨hk, hw⟩
      · rintro ⟨hk, hw⟩
        exact ⟨k, hk, w, hw, rfl, rfl⟩
    rw [bind_pure_eq_ok]
    simp only [mapM_eq_ok_iff hentry]
    exact ⟨by rintro ⟨vs, hvs, rfl⟩; exact .map hvs, fun hv => by cases hv; exact ⟨_, ‹_›, rfl⟩⟩
  | variant l fields =>
    rw [bind_pure_eq_ok]
    constructor
    · rintro ⟨vs, hvs, rfl⟩
      exact .variant l ((mapM_eq_ok_iff decodeSlot_eq_ok).1 hvs)
    · rintro (_ | _ | _ | _ | _ | _ | _ | ⟨_, hfields⟩)
      exact ⟨_, (mapM_eq_ok_iff decodeSlot_eq_ok).2 hfields, rfl⟩

theorem decode_of_get? {o : Object} (ha : h.get? a = some o) (ho : h.Shows h.slots.size o v) :
    h.decode a = .ok v := by
  rw [decode, decodeTo_succ_iff, object_of_get? ha]
  exact ho

/-- More can be read of a larger heap and to a greater depth, and what could be read stays. -/
theorem decodeTo_of_le (hle : h ≤ h') (hn : n ≤ n') (hv : h.decodeTo n a = .ok v) :
    h'.decodeTo n' a = .ok v := by
  induction n generalizing n' a v with
  | zero => cases hv
  | succ n ih =>
    obtain ⟨n', rfl⟩ := Nat.exists_eq_add_of_le' (Nat.lt_of_lt_of_le (Nat.succ_pos n) hn)
    have hpart : ∀ {a v}, h.decodeTo n a = .ok v → h'.decodeTo n' a = .ok v :=
      ih (Nat.le_of_succ_le_succ hn)
    rw [decodeTo_succ_iff] at hv ⊢
    obtain ⟨o, ho⟩ : ∃ o, h.get? a = some o := by
      cases ho : h.get? a with
      | none =>
        rw [object, ho] at hv
        cases hv
      | some o => exact ⟨o, rfl⟩
    rw [object_of_get? ho] at hv
    rw [object_of_get? (get?_of_le hle ho)]
    cases hv with
    | bool b => exact .bool b
    | int k => exact .int k
    | str s => exact .str s
    | vector hitems => exact .vector (hitems.imp fun _ _ => hpart)
    | set hitems => exact .set (hitems.imp fun _ _ => hpart)
    | map hentries => exact .map (hentries.imp fun _ _ h => ⟨hpart h.1, hpart h.2⟩)
    | fn f => exact .fn f
    | variant l hfields =>
      refine .variant l (hfields.imp ?_)
      rintro _ _ ⟨a, ha, hv⟩
      exact ⟨a, ha, hpart hv⟩

theorem decode_of_le (hle : h ≤ h') (hv : h.decode a = .ok v) : h'.decode a = .ok v :=
  decodeTo_of_le hle (Nat.succ_le_succ hle.1) hv

theorem decodeTo_size_of_decode (hv : h.decode a = .ok v) : h.decodeTo h.slots.size a = .ok v := by
  obtain ⟨w, hw⟩ := ReadableTo.size ⟨v, hv⟩
  obtain rfl : w = v := by
    have := (decodeTo_of_le (le_refl h) (Nat.le_succ _) hw).symm.trans hv
    exact Except.ok.inj this
  exact hw

/-! ## Equal objects -/

/-- Whether the layouts of settled data types agree on a heap: of one data type, constructors of
equal tags have equal names, and the other way round. -/
def TagsAgree (h : Heap) (settled : String → Prop) : Prop :=
  ∀ l l', h.HasLayout l → h.HasLayout l' → settled l.dataType → l.dataType = l'.dataType →
    (l.tag = l'.tag ↔ l.constructor = l'.constructor)

theorem TagsAgree.of_reuses (hh : h.TagsAgree settled) (hr : h.Reuses h') :
    h'.TagsAgree settled :=
  fun l l' hl hl' => hh l l' (hr l hl) (hr l' hl')

theorem Shows.forall₂_groups {o : Object} (ho : h.Shows n o v) :
    List.Forall₂ (List.Forall₂ fun a v => h.decodeTo n a = .ok v) o.groups v.groups := by
  cases ho with
  | vector hitems | set hitems =>
    simpa [Object.groups, Value.groups, List.forall₂_map_left_iff, List.forall₂_map_right_iff]
  | map hentries =>
    simpa [Object.groups, Value.groups, List.forall₂_map_left_iff, List.forall₂_map_right_iff]
  | variant l hfields =>
    simp only [Object.groups, Value.groups, List.forall₂_map_left_iff, List.forall₂_map_right_iff]
    refine hfields.imp ?_
    rintro _ v ⟨a, rfl, hv⟩
    exact .cons hv .nil
  | _ => exact .nil

/-- **Objects are ordered as their values are**, up to what a relation between orderings sees of the
tags and names of constructors, if there is no function in the first value. -/
theorem compareTo_rel_compare {S : Ordering → Ordering → Prop} (hS : Sequential S)
    (hvariant : ∀ l l', h.HasLayout l → h.HasLayout l' → settled l.dataType →
      S ((Ord.compare l.dataType l'.dataType).then (Ord.compare l.tag l'.tag))
        ((Ord.compare l.dataType l'.dataType).then (Ord.compare l.constructor l'.constructor)))
    (hu : h.decodeTo n a = .ok u) (hv : h.decodeTo n b = .ok v) (hplain : u.Comparable settled) :
    S (h.compareTo n a b) (u.compare v) := by
  have hlayout : ∀ {c l fs}, h.object c = .variant l fs → h.HasLayout l := by
    intro c l fs hc
    cases ho : h.get? c with
    | none => simp [object, ho] at hc
    | some o => exact ⟨c, o, ho, by rw [← object_of_get? ho, hc]; rfl⟩
  rw [compareTo_eq, ← Value.compareTo_eq_compare (Nat.le_add_left (sizeOf u) n)]
  refine Branching.compareTo_rel hS
    (R := fun n a u => h.decodeTo n a = .ok u ∧ u.Comparable settled)
    (Q := fun n b v => h.decodeTo n b = .ok v) ?_ ?_ ?_ ?_
    (Nat.le_add_right n (sizeOf u)) ⟨hu, hplain⟩ hv
  · rintro _ _ ⟨⟨⟩, -⟩
  · rintro n a u b v ⟨hu, hplain⟩ hv
    rw [decodeTo_succ_iff] at hu hv
    show S (((h.object a).label a).compare ((h.object b).label b)) (u.label.compare v.label)
    generalize hoa : h.object a = o at hu
    generalize hob : h.object b = o' at hv
    cases hu with
    | fn f => cases hplain
    | variant l _ =>
      cases hv with
      | variant l' _ =>
        cases hplain with | variant hsettled _ =>
        simpa [Label.compare_eq, Object.label, Value.label] using
          hvariant l l' (hlayout hoa) (hlayout hob) hsettled
      | _ => exact hS.refl _
    | _ => cases hv <;> exact hS.refl _
  · rintro n a u ⟨hu, hplain⟩
    have hcomparable : ∀ g ∈ u.groups, ∀ w ∈ g, w.Comparable settled :=
      fun g hg w hw => hplain.of_mem_groups hg hw
    have hgroups := forall₂_and_of_forall_mem (decodeTo_succ_iff.1 hu).forall₂_groups hcomparable
    exact hgroups.imp fun _ _ hg => forall₂_and_of_forall_mem hg.1 hg.2
  · exact fun hv => (decodeTo_succ_iff.1 hv).forall₂_groups

/-- **Two objects compare as equal exactly if they have the same value.** -/
theorem compare_eq_iff (hh : h.TagsAgree settled) (hu : h.decode a = .ok u)
    (hv : h.decode b = .ok v) (hplain : u.Comparable settled) : h.compare a b = .eq ↔ u = v := by
  have hvalues : u.compare v = .eq ↔ u = v := Std.LawfulEqCmp.compare_eq_iff_eq
  rw [← hvalues]
  refine compareTo_rel_compare (S := fun o o' => o = .eq ↔ o' = .eq) ⟨fun _ => .rfl, ?_⟩ ?_ hu hv
    hplain
  · intro o₁ o₁' o₂ o₂' h₁ h₂
    simp only [Ordering.then_eq_eq, h₁, h₂]
  · intro l l' hl hl' hsettled
    simp only [Ordering.then_eq_eq, Std.LawfulEqCmp.compare_eq_iff_eq]
    exact and_congr_right (hh l l' hl hl' hsettled)

/-! ## Ascending lists of objects -/

/-- The values of objects, one by one. -/
def Values (h : Heap) (items : List Addr) (vs : List Value) : Prop :=
  List.Forall₂ (fun a v => h.decode a = .ok v) items vs

/-- The values of keys and values, one by one. -/
def EntryValues (h : Heap) (entries : List (Addr × Addr)) (ps : List (Value × Value)) : Prop :=
  List.Forall₂ (fun e p => h.decode e.1 = .ok p.1 ∧ h.decode e.2 = .ok p.2) entries ps

theorem Values.of_le (hvs : h.Values items vs) (hle : h ≤ h') :
    h'.Values items vs := hvs.imp fun _ _ => decode_of_le hle

theorem EntryValues.of_le (hps : h.EntryValues entries ps) (hle : h ≤ h') :
    h'.EntryValues entries ps :=
  hps.imp fun _ _ hp => ⟨decode_of_le hle hp.1, decode_of_le hle hp.2⟩

theorem decode_set (ha : h.get? a = some (.set items)) (hvs : h.Values items vs) :
    h.decode a = .ok (.set vs) :=
  decode_of_get? ha (.set (hvs.imp fun _ _ => decodeTo_size_of_decode))

theorem decode_map (ha : h.get? a = some (.map entries)) (hps : h.EntryValues entries ps) :
    h.decode a = .ok (.map ps) :=
  decode_of_get? ha (.map (hps.imp fun _ _ hp =>
    ⟨decodeTo_size_of_decode hp.1, decodeTo_size_of_decode hp.2⟩))

/-- Putting in an item adds its value: the item that goes, if one does, has the same value. -/
theorem values_insertItem (hh : h.TagsAgree settled) (hvs : h.Values items vs)
    (hu : h.decode a = .ok u) (hplain : u.Comparable settled) :
    ∃ ws, h.Values (insertItem h.compare a items) ws ∧ ∀ w, w ∈ ws ↔ w = u ∨ w ∈ vs := by
  induction hvs with
  | nil => exact ⟨[u], .cons hu .nil, by simp⟩
  | @cons b v items vs hv hvs ih =>
    rw [insertItem]
    cases hcmp : h.compare a b with
    | lt => exact ⟨u :: v :: vs, .cons hu (.cons hv hvs), by simp⟩
    | eq =>
      obtain rfl := (compare_eq_iff hh hu hv hplain).1 hcmp
      exact ⟨u :: vs, .cons hu hvs, by simp⟩
    | gt =>
      obtain ⟨ws, hws, hmem⟩ := ih
      refine ⟨v :: ws, .cons hv hws, fun w => ?_⟩
      rw [List.mem_cons, hmem, List.mem_cons]
      tauto

theorem entryValues_insertEntry (hh : h.TagsAgree settled) (hps : h.EntryValues entries ps)
    (hu : h.decode a = .ok u) (hplain : u.Comparable settled) (hv : h.decode b = .ok v) :
    ∃ qs, h.EntryValues (insertEntry h.compare a b entries) qs ∧ (u, v) ∈ qs ∧
      (∀ q ∈ qs, q = (u, v) ∨ q ∈ ps) ∧ ∀ p ∈ ps, p.1 ≠ u → p ∈ qs := by
  induction hps with
  | nil => exact ⟨[(u, v)], .cons ⟨hu, hv⟩ .nil, by simp, by simp, by simp⟩
  | @cons e p entries ps hp hps ih =>
    rw [insertEntry]
    cases hcmp : h.compare a e.1 with
    | lt =>
      exact ⟨(u, v) :: p :: ps, .cons ⟨hu, hv⟩ (.cons hp hps), by simp, by simp,
        fun q hq _ => List.mem_cons_of_mem _ hq⟩
    | eq =>
      have hkey : u = p.1 := (compare_eq_iff hh hu hp.1 hplain).1 hcmp
      refine ⟨(u, v) :: ps, .cons ⟨hu, hv⟩ hps, by simp, fun q hq => ?_, fun q hq hne => ?_⟩
      · exact (List.mem_cons.1 hq).imp_right (List.mem_cons_of_mem _)
      · rcases List.mem_cons.1 hq with rfl | hq
        · exact absurd hkey.symm hne
        · exact List.mem_cons_of_mem _ hq
    | gt =>
      obtain ⟨qs, hqs, hin, hfrom, hkept⟩ := ih
      refine ⟨p :: qs, .cons hp hqs, List.mem_cons_of_mem _ hin, fun q hq => ?_, fun q hq hne => ?_⟩
      · rcases List.mem_cons.1 hq with rfl | hq
        · exact .inr (List.mem_cons_self ..)
        · exact (hfrom q hq).imp_right (List.mem_cons_of_mem _)
      · rcases List.mem_cons.1 hq with rfl | hq
        · exact List.mem_cons_self ..
        · exact List.mem_cons_of_mem _ (hkept q hq hne)

end Heap

/-! ## Literals -/

namespace Machine

open Heap

variable {m : Machine} {a : Addr} {settled : String → Prop}
variable {items : List Addr}

theorem get?_alloc (o : Object) (m : Machine) :
    (alloc o m).2.heap.get? (alloc o m).1 = some o := m.heap.get?_push_self ⟨false, o⟩

theorem values_foldlM_setConj (hm : m.heap.TagsAgree settled) {xs : List Addr} {us vs : List Value}
    (ha : m.heap.get? a = some (.set xs)) (hus : m.heap.Values xs us) (hvs : m.heap.Values items vs)
    (hplain : ∀ v ∈ vs, v.Comparable settled) :
    ∃ ys ws, (items.foldlM setConj a m).2.heap.get? (items.foldlM setConj a m).1 = some (.set ys) ∧
      (items.foldlM setConj a m).2.heap.Values ys ws ∧ ∀ w, w ∈ ws ↔ w ∈ us ∨ w ∈ vs := by
  induction items generalizing m a xs us vs with
  | nil =>
    cases hvs
    exact ⟨xs, us, ha, hus, by simp⟩
  | cons x items ih =>
    cases hvs with | @cons _ v _ vs hx hvs =>
    obtain ⟨hv, hplain⟩ := List.forall_mem_cons.1 hplain
    obtain ⟨ws, hws, hmem⟩ := values_insertItem hm hus hx hv
    -- The machine after this item, which has the objects of the one before.
    have hle : m.heap ≤ (setConj a x m).2.heap := (leads_setConj (R := LE.le) a x m).1
    have hset : (setConj a x m).2.heap.get? (setConj a x m).1 =
        some (.set (insertItem m.heap.compare x xs)) := by
      rw [setConj_eq ha]
      exact get?_alloc _ m
    obtain ⟨ys, zs, hys, hzs, hmem'⟩ := ih
      (hm.of_reuses (leads_setConj (R := Reuses) a x m)) hset (hws.of_le hle) (Values.of_le hvs hle) hplain
    refine ⟨ys, zs, hys, hzs, fun w => ?_⟩
    rw [hmem', hmem, List.mem_cons]
    tauto

/-- **A set literal has the values of all its items**, if these can be compared. -/
theorem decode_collection_set (hm : m.heap.TagsAgree settled) {vs : List Value}
    (hvs : m.heap.Values items vs) (hplain : ∀ v ∈ vs, v.Comparable settled) :
    ∃ ws, (collection .set items m).2.heap.decode (collection .set items m).1 = .ok (.set ws) ∧
      ∀ w, w ∈ ws ↔ w ∈ vs := by
  have hle : m.heap ≤ (alloc (.set []) m).2.heap := (grows_alloc _ m).1
  obtain ⟨ys, ws, hys, hws, hmem⟩ := values_foldlM_setConj
    (hm.of_reuses (leads_alloc (R := Reuses) (o := .set []) rfl m))
    (get?_alloc (.set []) m) .nil (hvs.of_le hle) hplain
  exact ⟨ws, decode_set hys hws, by simpa using hmem⟩

/-- Entries put into a map one after the other: the last entry of each key stays, and so do the
entries of other keys. -/
theorem entryValues_foldlM_mapAssoc (hm : m.heap.TagsAgree settled)
    {xs entries : List (Addr × Addr)} {us ps : List (Value × Value)}
    (ha : m.heap.get? a = some (.map xs)) (hus : m.heap.EntryValues xs us)
    (hps : m.heap.EntryValues entries ps)
    (hplain : ∀ p ∈ ps, p.1.Comparable settled) :
    let r := entries.foldlM (fun p e => mapAssoc p e.1 e.2) a m
    ∃ ys qs, r.2.heap.get? r.1 = some (.map ys) ∧ r.2.heap.EntryValues ys qs ∧
      (∀ q ∈ qs, q ∈ us ∨ q ∈ ps) ∧ (∀ p ∈ us, (∀ q ∈ ps, q.1 ≠ p.1) → p ∈ qs) ∧
      ∀ before p after, ps = before ++ p :: after → (∀ q ∈ after, q.1 ≠ p.1) → p ∈ qs := by
  induction entries generalizing m a xs us ps with
  | nil =>
    cases hps
    exact ⟨xs, us, ha, hus, fun q => .inl, fun p hp _ => hp, by simp⟩
  | cons e entries ih =>
    cases hps with | @cons _ p _ ps hp hps =>
    obtain ⟨k, v⟩ := p
    obtain ⟨hk, hplain⟩ := List.forall_mem_cons.1 hplain
    obtain ⟨ws, hws, hin, hfrom, hkept⟩ := entryValues_insertEntry hm hus hp.1 hk hp.2
    have hle : m.heap ≤ (mapAssoc a e.1 e.2 m).2.heap := (leads_mapAssoc (R := LE.le) a e.1 e.2 m).1
    have hmap : (mapAssoc a e.1 e.2 m).2.heap.get? (mapAssoc a e.1 e.2 m).1 =
        some (.map (insertEntry m.heap.compare e.1 e.2 xs)) := by
      rw [mapAssoc_eq ha]
      exact get?_alloc _ m
    obtain ⟨ys, qs, hys, hqs, hfrom', hkept', hlast⟩ :=
      ih (hm.of_reuses (leads_mapAssoc (R := Reuses) a e.1 e.2 m)) hmap (hws.of_le hle)
        (EntryValues.of_le hps hle) hplain
    refine ⟨ys, qs, hys, hqs, fun q hq => ?_, fun q hq hne => ?_, fun before p after heq hne => ?_⟩
    · rcases hfrom' q hq with hq | hq
      · exact (hfrom q hq).elim (fun h => .inr (h ▸ List.mem_cons_self ..)) .inl
      · exact .inr (List.mem_cons_of_mem _ hq)
    · obtain ⟨hhead, hrest⟩ := List.forall_mem_cons.1 hne
      exact hkept' q (hkept q hq hhead.symm) hrest
    · cases before with
      | nil =>
        obtain ⟨rfl, rfl⟩ := List.cons.inj heq
        exact hkept' _ hin hne
      | cons q before =>
        obtain ⟨rfl, rfl⟩ := List.cons.inj heq
        exact hlast before p after rfl hne

/-- **A map literal has for every key the value that was given last**, and no other entries, if the
keys can be compared. -/
theorem decode_collection_map (hm : m.heap.TagsAgree settled) {ps : List (Value × Value)}
    (hps : m.heap.EntryValues (pairs items) ps) (hplain : ∀ p ∈ ps, p.1.Comparable settled) :
    ∃ qs, (collection .map items m).2.heap.decode (collection .map items m).1 = .ok (.map qs) ∧
      (∀ q ∈ qs, q ∈ ps) ∧
      ∀ before p after, ps = before ++ p :: after → (∀ q ∈ after, q.1 ≠ p.1) → p ∈ qs := by
  have hle : m.heap ≤ (alloc (.map []) m).2.heap := (grows_alloc _ m).1
  obtain ⟨ys, qs, hys, hqs, hfrom, -, hlast⟩ := entryValues_foldlM_mapAssoc
    (hm.of_reuses (leads_alloc (R := Reuses) (o := .map []) rfl m))
    (get?_alloc (.map []) m) .nil (hps.of_le hle) hplain
  have hcollection : collection .map items m = (pairs items).foldlM
      (fun p e => mapAssoc p e.1 e.2) (alloc (.map []) m).1 (alloc (.map []) m).2 := by
    rw [← mapAssocAll_eq_foldlM]
    rfl
  rw [hcollection]
  exact ⟨qs, decode_map hys hqs, by simpa using hfrom, hlast⟩

end Machine

end TypedLisp
