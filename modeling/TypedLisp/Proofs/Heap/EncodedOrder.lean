import Mathlib.Tactic.SplitIfs
import TypedLisp.Proofs.Heap.Encoding

/-!
# The order of values that were put on the heap

In UTF-8 a character with a lower number has bytes that come first in the lexicographic order, and
they differ before the bytes of either one end (`before_utf8EncodeChar`). So texts are ordered by
their bytes, and the order of values looks at the kinds and then at the contents from left to right
(`Value.byContents_compare`). **The objects of plain values are ordered as the canonical forms of
these values are** (`Heap.compare_encoded_eq_compare_canonical`).
-/

namespace TypedLisp

/-! ## Bytes that come before others -/

/-- Whether the first byte in which two lists differ is less in the first list. Neither list may
end before that. -/
inductive Before : List UInt8 → List UInt8 → Prop where
  | head {x y : UInt8} (h : x < y) (xs ys : List UInt8) : Before (x :: xs) (y :: ys)
  | tail (x : UInt8) {xs ys : List UInt8} (h : Before xs ys) : Before (x :: xs) (x :: ys)

variable {xs ys : List UInt8} {a b : Nat}

theorem compareLex_append_left (zs xs ys : List UInt8) :
    (zs ++ xs).compareLex compare (zs ++ ys) = xs.compareLex compare ys := by
  induction zs with
  | nil => rfl
  | cons z zs ih =>
    have hself : compare z z = .eq := Std.ReflCmp.compare_self
    rw [List.cons_append, List.cons_append, List.compareLex_cons_cons, hself, ih]
    rfl

theorem Before.compareLex_append (h : Before xs ys) (rest rest' : List UInt8) :
    (xs ++ rest).compareLex compare (ys ++ rest') = .lt := by
  induction h with
  | head h xs ys =>
    rw [List.cons_append, List.cons_append, List.compareLex_cons_cons, Std.compare_eq_lt.2 h]
    rfl
  | tail x _ ih => exact (compareLex_append_left [x] ..).trans ih

theorem before_of_lt (hb : b < 256) (hlt : a < b) (xs ys : List UInt8) :
    Before (UInt8.ofNat a :: xs) (UInt8.ofNat b :: ys) := by
  refine .head ?_ xs ys
  rw [UInt8.lt_iff_toNat_lt, UInt8.toNat_ofNat_of_lt' (Nat.lt_trans hlt hb),
    UInt8.toNat_ofNat_of_lt' hb]
  exact hlt

theorem before_of_le (hb : b < 256) (hle : a ≤ b) (hrest : a = b → Before xs ys) :
    Before (UInt8.ofNat a :: xs) (UInt8.ofNat b :: ys) := by
  rcases Nat.lt_or_eq_of_le hle with hlt | rfl
  · exact before_of_lt hb hlt xs ys
  · exact .tail _ (hrest rfl)

/-- **The bytes of a lower character come before those of a higher one.** -/
theorem before_utf8EncodeChar {c d : Char} (hlt : c < d) :
    Before (String.utf8EncodeChar c) (String.utf8EncodeChar d) := by
  have hnumbers : c.val.toNat < d.val.toNat := hlt
  have hbound : d.val.toNat < 0x110000 := by
    rcases d.valid with h | ⟨-, h⟩ <;> omega
  simp only [String.utf8EncodeChar]
  generalize c.val.toNat = m at hnumbers
  generalize d.val.toNat = n at hnumbers hbound
  -- Of characters with different numbers of bytes the first bytes differ. Of others we look at one
  -- digit after the other; the last digits differ if all those before them are equal.
  split_ifs
  all_goals first
    | omega
    | repeat first
      | exact before_of_lt (by omega) (by omega) ..
      | refine before_of_le (by omega) (by omega) fun _ => ?_

/-! ## Texts -/

/-- The bytes of a text. -/
def bytes (s : String) : List UInt8 := s.toByteArray.data.toList

theorem bytes_eq_flatMap (s : String) : bytes s = s.toList.flatMap String.utf8EncodeChar := by
  rw [bytes, ← String.utf8Encode_toList]
  simp [List.utf8Encode]

theorem compareLex_flatMap_of_lt {cs ds : List Char} (hlt : cs < ds) :
    (cs.flatMap String.utf8EncodeChar).compareLex compare (ds.flatMap String.utf8EncodeChar) =
      .lt := by
  induction hlt with
  | @nil d ds =>
    obtain ⟨x, xs, hd⟩ := List.exists_cons_of_ne_nil (String.utf8EncodeChar_ne_nil (c := d))
    rw [List.flatMap_nil, List.flatMap_cons, hd]
    exact List.compareLex_nil_cons
  | @cons c cs ds _ ih => rw [List.flatMap_cons, List.flatMap_cons, compareLex_append_left, ih]
  | @rel c cs d ds hcd =>
    rw [List.flatMap_cons, List.flatMap_cons]
    exact (before_utf8EncodeChar hcd).compareLex_append ..

/-- **Texts are ordered as their bytes are.** -/
theorem compare_eq_compareLex_bytes (s t : String) :
    compare s t = (bytes s).compareLex compare (bytes t) := by
  have hlt : ∀ {s t : String}, compare s t = .lt →
      (bytes s).compareLex compare (bytes t) = .lt := by
    intro s t hst
    have hchars : s < t := compareOfLessAndEq_eq_lt.1 hst
    rw [bytes_eq_flatMap, bytes_eq_flatMap]
    exact compareLex_flatMap_of_lt hchars
  cases hcmp : compare s t with
  | lt => exact (hlt hcmp).symm
  | eq =>
    obtain rfl := Std.LawfulEqCmp.eq_of_compare hcmp
    exact Std.ReflCmp.compare_self.symm
  | gt => exact (Std.OrientedCmp.gt_of_lt (hlt (Std.OrientedCmp.lt_of_gt hcmp))).symm

namespace Value

/-- Whether values are ordered by their kinds, in the order of their ranks, and those of one kind by
their contents: numbers as such, texts by their bytes, and collections from left to right. -/
structure ByContents (cmp : Value → Value → Ordering) : Prop where
  kinds : ∀ {u v : Value}, u.rank < v.rank → cmp u v = .lt ∧ cmp v u = .gt
  bools : ∀ a b : Bool, cmp (.bool a) (.bool b) = Ord.compare a.toNat b.toNat
  ints : ∀ a b : Int64, cmp (.int a) (.int b) = Ord.compare a.toInt b.toInt
  strs : ∀ s t : String, cmp (.str s) (.str t) = (bytes s).compareLex Ord.compare (bytes t)
  vectors : ∀ us vs : List Value, cmp (.vector us) (.vector vs) = us.compareLex cmp vs
  sets : ∀ us vs : List Value, cmp (.set us) (.set vs) = us.compareLex cmp vs
  maps : ∀ es es' : List (Value × Value), cmp (.map es) (.map es') =
    es.compareLex (fun e e' => (cmp e.1 e'.1).then (cmp e.2 e'.2)) es'

theorem compare_eq_compare_rank {u v : Value} (hne : u.rank ≠ v.rank) :
    u.compare v = Ord.compare u.rank v.rank := by
  cases u <;> cases v <;> first | rfl | exact absurd rfl hne

/-- **Values are ordered by their contents.** -/
theorem byContents_compare : ByContents compare where
  kinds {u v} hlt := by
    rw [compare_eq_compare_rank (Nat.ne_of_lt hlt), compare_eq_compare_rank (Nat.ne_of_gt hlt)]
    exact ⟨Nat.compare_eq_lt.2 hlt, Nat.compare_eq_gt.2 hlt⟩
  bools := by decide
  ints a b := by
    show compareOfLessAndEq a b = compareOfLessAndEq a.toInt b.toInt
    simp only [compareOfLessAndEq, Int64.lt_iff_toInt_lt, ← Int64.toInt_inj]
  strs := compare_eq_compareLex_bytes
  vectors := compareAll_eq_compareLex
  sets := compareAll_eq_compareLex
  maps := compareEntries_eq_compareLex

end Value

namespace Heap

variable {h : Heap} {u v : Value}

/-- **Objects are ordered as the values they were made from.** Let two plain values be put on the
heap, with other objects in between and after them. Then their objects are in the order of their
canonical forms, and this order is by contents. -/
theorem compare_encoded_eq_compare_canonical (hh : h.Standard) (hu : u.Plain) (hv : v.Plain) :
    Value.ByContents Value.compare ∧
    ∃ a, (encode u h).1 = .ok a ∧ ∀ h₁, (encode u h).2 ≤ h₁ →
      ∃ b, (encode v h₁).1 = .ok b ∧ ∀ h₂, (encode v h₁).2 ≤ h₂ →
        h₂.compare a b = u.canonical.compare v.canonical ∧
        h₂.compare b a = v.canonical.compare u.canonical := by
  obtain ⟨a, ha, hdecode⟩ := returns_canonical hh hu
  refine ⟨Value.byContents_compare, a, ha, fun h₁ hle₁ => ?_⟩
  have hh₁ : h₁.Standard := hh.of_le ((leads_encode (R := LE.le) u h).trans hle₁)
  obtain ⟨b, hb, hdecode'⟩ := returns_canonical hh₁ hv
  refine ⟨b, hb, fun h₂ hle₂ => ?_⟩
  have hua : h₂.decode a = .ok u.canonical :=
    decode_of_le (hle₁.trans ((leads_encode (R := LE.le) v h₁).trans hle₂)) hdecode
  have hvb : h₂.decode b = .ok v.canonical := decode_of_le hle₂ hdecode'
  exact ⟨compare_eq_compare hua hvb hu.canonical, compare_eq_compare hvb hua hv.canonical⟩

/-- A set with its items out of order. -/
def lowerSet : Value := .set [.str "\uffff", .bool true]

/-- A set with a text that is greater in its first byte, although less in its UTF-16 units. -/
def upperSet : Value := .set [.bool true, .str "😀"]

/-- Two sets that differ in texts of three and of four bytes. -/
theorem compare_encoded_eq_compare_canonical_sets :
    lowerSet.Plain ∧ upperSet.Plain ∧
    ∃ a b, (encode lowerSet .empty).1 = .ok a ∧
      (encode upperSet (encode lowerSet .empty).2).1 = .ok b ∧
      (encode upperSet (encode lowerSet .empty).2).2.compare a b = .lt := by
  have hlower : lowerSet.Plain := Value.plain_iff.2 (by decide)
  have hupper : upperSet.Plain := Value.plain_iff.2 (by decide)
  have hcanonical : lowerSet.canonical.compare upperSet.canonical = .lt := by
    simp only [lowerSet, upperSet, Value.canonical, Value.canonicalAll, ← foldl_insertBy]
    decide
  obtain ⟨-, a, ha, hnext⟩ := compare_encoded_eq_compare_canonical
    (h := .empty) ⟨rfl, rfl, rfl⟩ hlower hupper
  obtain ⟨b, hb, hcompare⟩ := hnext _ le_rfl
  exact ⟨hlower, hupper, a, b, ha, hb, (hcompare _ le_rfl).1.trans hcanonical⟩

end Heap

end TypedLisp
