import Mathlib.Data.Finset.Card
import Mathlib.Logic.Relation
import TypedLisp.Proofs.Heap.Matching

/-!
# The laws of the order of objects

On a heap without cycles objects are compared by their contents all the way down, since the depth to
which references are followed is enough. The order of objects that are finished stays as it is while
others are made and filled in.
-/

namespace TypedLisp

namespace Heap

variable {h h' : Heap} {n m : Nat} {a b : Addr}

/-! ## Depths that are enough -/

/-- Whether comparing the object at one address looks at another address. -/
def LooksAt (h : Heap) (a b : Addr) : Prop := b ∈ (h.object a).parts

/-- Whether no chain of addresses, each looked at in comparing the one before, has more than a
number of members. -/
def Within (h : Heap) : Nat → Addr → Prop
  | 0, _ => False
  | n + 1, a => ∀ p, h.LooksAt a p → h.Within n p

/-- Two heaps that agree on what is looked at order it in the same way, to each depth that is
enough. -/
theorem compareTo_congr {P : Addr → Prop} (hobject : ∀ x, P x → h'.object x = h.object x)
    (hparts : ∀ x y, P x → h.LooksAt x y → P y) (hnm : n ≤ m) (ha : P a) (hb : P b)
    (hn : h.Within n a) : h.compareTo n a b = h'.compareTo m a b := by
  have hgroups : ∀ {Q : Addr → Addr → Prop} {x : Addr}, P x → (∀ y, h.LooksAt x y → Q y y) →
      List.Forall₂ (List.Forall₂ Q) (h.graph.groups x) (h'.graph.groups x) := by
    intro Q x hx hQ
    simp only [graph, hobject x hx, List.forall₂_same]
    exact fun g hg y hy => hQ y (Object.mem_parts_of_mem_groups hg hy)
  rw [compareTo_eq, compareTo_eq]
  refine Branching.compareTo_rel .eq (R := fun n x u => u = x ∧ P x ∧ h.Within n x)
    (Q := fun _ x u => u = x ∧ P x) ?_ ?_ ?_ ?_ hnm ⟨rfl, ha, hn⟩ ⟨rfl, hb⟩
  · exact fun x u hx => hx.2.2
  · rintro n x _ y _ ⟨rfl, hx, -⟩ ⟨rfl, hy⟩
    simp only [graph, hobject _ hx, hobject _ hy]
  · rintro n x _ ⟨rfl, hx, hwithin⟩
    exact hgroups hx fun y hy => ⟨rfl, hparts _ y hx hy, hwithin y hy⟩
  · rintro n x _ ⟨rfl, hx⟩
    exact hgroups hx fun y hy => ⟨rfl, hparts _ y hx hy⟩

theorem compareTo_of_within (hnm : n ≤ m) (hn : h.Within n a) (b : Addr) :
    h.compareTo n a b = h.compareTo m a b :=
  compareTo_congr (P := fun _ => True) (fun _ _ => rfl) (fun _ _ _ _ => trivial) hnm trivial trivial
    hn

open Relation in
/-- Where there are no cycles, a chain goes at most once through each address that leads on. -/
theorem within_card {S : Finset Addr}
    (hS : ∀ b, ReflTransGen h.LooksAt a b → (h.object b).parts ≠ [] → b ∈ S)
    (hacyclic : ∀ b, ReflTransGen h.LooksAt a b → ¬TransGen h.LooksAt b b) :
    h.Within (S.card + 1) a := by
  induction S using Finset.strongInduction generalizing a with
  | _ S ih =>
    intro p hp
    have ha : a ∈ S := hS a .refl (List.ne_nil_of_mem hp)
    rw [← Finset.card_erase_add_one ha]
    refine ih (S.erase a) (Finset.erase_ssubset ha) (fun b hb hne => ?_) fun b hb =>
      hacyclic b (.head hp hb)
    refine Finset.mem_erase.2 ⟨?_, hS b (.head hp hb) hne⟩
    rintro rfl
    exact hacyclic b .refl (.head' hp hb)

theorem lt_size_of_parts (ha : (h.object a).parts ≠ []) : a < h.slots.size := by
  by_contra hlt
  apply ha
  simp [object, get?, slot?, Array.getElem?_eq_none (Nat.le_of_not_lt hlt), Object.parts,
    Object.children]

theorem within_size
    (hacyclic : ∀ b, Relation.ReflTransGen h.LooksAt a b → ¬Relation.TransGen h.LooksAt b b) :
    h.Within (h.slots.size + 1) a := by
  rw [← Finset.card_range h.slots.size]
  exact within_card (fun b _ hb => Finset.mem_range.2 (lt_size_of_parts hb)) hacyclic

/-! ## Heaps without cycles -/

/-- Whether no object leads back to itself. -/
def Acyclic (h : Heap) : Prop :=
  ∀ a, ¬Relation.TransGen (fun a b => b ∈ (h.object a).children) a a

theorem Acyclic.within (hh : h.Acyclic) (a : Addr) : h.Within (h.slots.size + 1) a := by
  have hchild : ∀ x y, h.LooksAt x y → y ∈ (h.object x).children := fun _ _ hp =>
    Object.parts_subset_children _ hp
  exact within_size fun b _ hb => hh b (Relation.TransGen.mono hchild b b hb)

/-- **On a heap without cycles objects are compared by their contents, all the way down.** -/
theorem Acyclic.compare_eq (hh : h.Acyclic) (a b : Addr) :
    h.compare a b = compareObjects h.compare a b (h.object a) (h.object b) :=
  (compareTo_of_within (Nat.le_succ _) (hh.within a) b).trans (h.compareTo_succ _ a b)

/-- The laws of the order of the objects of a heap. -/
structure OrderLaws (h : Heap) : Prop where
  /-- Objects are compared by their contents, and these in the same way in turn. -/
  unfold : ∀ a b, h.compare a b = compareObjects h.compare a b (h.object a) (h.object b)
  refl : ∀ a, h.compare a a = .eq
  swap : ∀ a b, h.compare a b = (h.compare b a).swap
  trans : ∀ a b c, (h.compare a b).isLE → (h.compare b c).isLE → (h.compare a c).isLE
  /-- Equal objects compare alike with every other one. -/
  congr : ∀ a b c, h.compare a b = .eq → h.compare a c = h.compare b c

theorem Acyclic.orderLaws (hh : h.Acyclic) : h.OrderLaws where
  unfold := hh.compare_eq
  refl _ := Std.ReflCmp.compare_self
  swap _ _ := Std.OrientedCmp.eq_swap
  trans _ _ _ := Std.TransCmp.isLE_trans
  congr _ _ _ := Std.TransCmp.congr_left

/-! ## Finished objects -/

end Heap

/-- Whether the captures of a function or the fields of a variant are all set. -/
def Object.SlotsSet : Object → Prop
  | .fn f => ∀ x ∈ f.captures, x.isSome
  | .variant _ fields => ∀ x ∈ fields, x.isSome
  | _ => True

namespace Heap

variable {h h' : Heap} {n : Nat} {a b : Addr}

/-- Whether an object has all its slots set, and so has all that it is compared by. -/
inductive Finished (h : Heap) : Addr → Prop where
  | intro {a : Addr} {o : Object} (ha : h.get? a = some o) (ho : o.SlotsSet)
      (hparts : ∀ p ∈ o.parts, Finished h p) : Finished h a

theorem Finished.looksAt (ha : h.Finished a) (hab : h.LooksAt a b) : h.Finished b := by
  cases ha with
  | intro ha _ hparts =>
    rw [LooksAt, object_of_get? ha] at hab
    exact hparts b hab

theorem Finished.of_reflTransGen (ha : h.Finished a) (hab : Relation.ReflTransGen h.LooksAt a b) :
    h.Finished b := by
  induction hab with
  | refl => exact ha
  | tail _ hbc ih => exact ih.looksAt hbc

theorem Finished.not_transGen (ha : h.Finished a) : ¬Relation.TransGen h.LooksAt a a := by
  induction ha with
  | @intro a o ha _ _ ih =>
    intro hcycle
    -- a cycle goes through one of the parts, so there is a cycle from that part as well
    obtain ⟨p, hp, hpa⟩ := Relation.TransGen.head'_iff.1 hcycle
    refine ih p ?_ (.tail' hpa hp)
    rwa [LooksAt, object_of_get? ha] at hp

theorem Finished.within (ha : h.Finished a) : h.Within (h.slots.size + 1) a :=
  within_size fun _ hb => (ha.of_reflTransGen hb).not_transGen

/-- Whether a heap still has the finished objects of another one. -/
def Keeps (h h' : Heap) : Prop := ∀ a, h.Finished a → h'.get? a = h.get? a

theorem keeps_of_le (hle : h ≤ h') : h.Keeps h' := by
  rintro a (⟨ha⟩ : h.Finished a)
  rw [ha]
  exact get?_of_le hle ha

theorem keeps_modify (ha : ¬h.Finished a) (f : Object → Object) : h.Keeps (h.modify a f) := by
  intro b hb
  have hne : a ≠ b := fun hab => ha (hab ▸ hb)
  simp [get?, slot?, modify, Array.getElem?_modify, hne]

theorem Finished.of_keeps (ha : h.Finished a) (hkeeps : h.Keeps h') : h'.Finished a := by
  induction ha with
  | @intro a o ha ho hparts ih =>
    exact .intro ((hkeeps a (.intro ha ho hparts)).trans ha) ho ih

/-- **The order of finished objects stays as it is.** -/
theorem Finished.compare_eq (ha : h.Finished a) (hb : h.Finished b) (hkeeps : h.Keeps h') :
    h'.compare a b = h.compare a b := by
  have hobject : ∀ x, h.Finished x → h'.object x = h.object x := fun x hx => by
    rw [object, object, hkeeps x hx]
  have hwithin := ha.within
  have hwithin' := (ha.of_keeps hkeeps).within
  -- a depth that is enough in both heaps
  calc h'.compare a b
      = h'.compareTo (max (h'.slots.size + 1) (h.slots.size + 1)) a b :=
        compareTo_of_within (Nat.le_max_left _ _) hwithin' b
    _ = h.compareTo (h.slots.size + 1) a b :=
        (compareTo_congr hobject (fun _ _ hx hxy => hx.looksAt hxy) (Nat.le_max_right _ _) ha hb
          hwithin).symm

/-- Whether a heap has no cycles, no unset slots, and no references to where nothing is. -/
structure Tidy (h : Heap) : Prop where
  acyclic : h.Acyclic
  slotsSet : ∀ a o, h.get? a = some o → o.SlotsSet
  present : ∀ a o, h.get? a = some o → ∀ c ∈ o.children, ∃ o', h.get? c = some o'

/-- A heap is tidy where slots are set and objects refer only to earlier ones. -/
theorem tidy_of_lt (hall : ∀ a o, h.get? a = some o →
    o.SlotsSet ∧ ∀ c ∈ o.children, c < a ∧ (h.get? c).isSome) : h.Tidy := by
  refine ⟨fun a hcycle => ?_, fun a o ha => (hall a o ha).1,
    fun a o ha c hc => Option.isSome_iff_exists.1 ((hall a o ha).2 c hc).2⟩
  have hlt : ∀ x y, y ∈ (h.object x).children → y < x := by
    intro x y hy
    cases hx : h.get? x with
    | none => simp [object, hx, Object.children] at hy
    | some o => exact ((hall x o hx).2 y (object_of_get? hx ▸ hy)).1
  have hmono : ∀ {x y}, Relation.TransGen (fun a b => b ∈ (h.object a).children) x y → y < x := by
    intro x y hxy
    induction hxy with
    | single hchild => exact hlt _ _ hchild
    | tail _ hchild ih => exact Nat.lt_trans (hlt _ _ hchild) ih
  exact Nat.lt_irrefl a (hmono hcycle)

theorem Tidy.finished (hh : h.Tidy) {o : Object} (ha : h.get? a = some o) : h.Finished a := by
  have hwithin := hh.acyclic.within a
  generalize h.slots.size + 1 = n at hwithin
  induction n generalizing a o with
  | zero => exact hwithin.elim
  | succ n ih =>
    refine .intro ha (hh.slotsSet a o ha) fun p hp => ?_
    obtain ⟨o', hp'⟩ := hh.present a o ha p (o.parts_subset_children hp)
    exact ih hp' (hwithin p (by rwa [LooksAt, object_of_get? ha]))

end Heap

end TypedLisp
