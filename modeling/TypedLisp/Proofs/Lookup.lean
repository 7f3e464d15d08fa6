import Mathlib.Data.List.Basic
import Mathlib.Tactic.Common
import TypedLisp.Form
import TypedLisp.Table

/-!
# Association lists

Substitutions, demands, contexts and frames are lists of entries of which the first one for a key
counts. This module says how a lookup goes through the operations on such lists, and what is in the
list of entries that a list of keys and values in turn makes.
-/

namespace TypedLisp

variable {α β γ : Type} [BEq α] [LawfulBEq α] {a : α} {l : List (α × β)}

theorem lookup_cons_of_ne {b : α} (h : a ≠ b) (c : β) (l : List (α × β)) :
    ((b, c) :: l).lookup a = l.lookup a := by
  simp [List.lookup_cons, beq_eq_false_iff_ne.2 h]

theorem lookup_cons_eq_some {b : α} {c d : β} :
    ((b, c) :: l).lookup a = some d ↔ a = b ∧ c = d ∨ a ≠ b ∧ l.lookup a = some d := by
  by_cases h : a = b
  · subst h
    simp
  · simp [lookup_cons_of_ne h, h]

theorem lookup_map_snd (f : β → γ) (l : List (α × β)) (a : α) :
    (l.map fun e => (e.1, f e.2)).lookup a = (l.lookup a).map f := by
  induction l with
  | nil => rfl
  | cons e l ih =>
    obtain ⟨b, c⟩ := e
    by_cases h : a = b
    · subst h
      simp
    · rw [List.map_cons, lookup_cons_of_ne h, lookup_cons_of_ne h, ih]

theorem lookup_filter_of_pos {p : α → Bool} (h : p a = true) (l : List (α × β)) :
    (l.filter fun e => p e.1).lookup a = l.lookup a := by
  induction l with
  | nil => rfl
  | cons e l ih =>
    obtain ⟨b, c⟩ := e
    by_cases hab : a = b
    · subst hab
      simp [h]
    · by_cases hb : p b = true
      · simp [hb, lookup_cons_of_ne hab, ih]
      · simp [hb, lookup_cons_of_ne hab, ih]

theorem lookup_filter_of_neg {p : α → Bool} (h : p a = false) (l : List (α × β)) :
    (l.filter fun e => p e.1).lookup a = none := by
  rw [List.lookup_eq_none_iff]
  intro e he
  have hp : p e.1 = true := (List.mem_filter.1 he).2
  have hne : a ≠ e.1 := fun hae => by simp [← hae, h] at hp
  simpa using hne

theorem mem_of_lookup {b : β} (h : l.lookup a = some b) :
    (a, b) ∈ l := by
  obtain ⟨l₁, l₂, rfl, -⟩ := List.lookup_eq_some_iff.1 h
  simp

theorem mem_keys_of_lookup {b : β} (h : l.lookup a = some b) :
    a ∈ l.map Prod.fst :=
  List.mem_map.2 ⟨_, mem_of_lookup h, rfl⟩

theorem exists_lookup_of_mem_keys (h : a ∈ l.map Prod.fst) :
    ∃ b, l.lookup a = some b := by
  obtain ⟨⟨a', b⟩, he, rfl⟩ := List.mem_map.1 h
  refine Option.isSome_iff_exists.1 ?_
  rw [List.lookup_isSome_iff]
  exact ⟨_, he, by simp⟩

theorem lookup_eq_none_of_not_mem (h : a ∉ l.map Prod.fst) :
    l.lookup a = none := by
  cases hl : l.lookup a with
  | none => rfl
  | some b => exact absurd (mem_keys_of_lookup hl) h

/-! ## Tables -/

namespace Table

variable {κ α β : Type} [DecidableEq κ] {t : Table κ α} {k k' : κ} {a b : α}

/-- An entry of a table to which one has been added is that one or an old one. -/
theorem get?_insert_eq_some (h : (t.insert k a).get? k' = some b) :
    (k' = k ∧ b = a) ∨ (k' ≠ k ∧ t.get? k' = some b) := by
  by_cases hk : k' = k
  · subst hk
    rw [get?_insert_self] at h
    exact .inl ⟨rfl, (Option.some.inj h).symm⟩
  · rw [get?_insert_of_ne hk] at h
    exact .inr ⟨hk, h⟩

theorem get?_foldl_insert_eq_some {key : β → κ} {value : β → α} {es : List β}
    (h : (es.foldl (fun t e => t.insert (key e) (value e)) t).get? k = some a) :
    (∃ e ∈ es, key e = k ∧ value e = a) ∨ t.get? k = some a := by
  induction es generalizing t with
  | nil => exact .inr h
  | cons e es ih =>
    rcases ih h with ⟨e', he', hkey, hvalue⟩ | hget
    · exact .inl ⟨e', List.mem_cons_of_mem _ he', hkey, hvalue⟩
    · rcases get?_insert_eq_some hget with ⟨rfl, rfl⟩ | ⟨-, hget⟩
      · exact .inl ⟨e, List.mem_cons_self, rfl, rfl⟩
      · exact .inr hget

end Table

/-! ## Keys and values in turn -/

section Pairs

variable {α β : Type}

theorem pairs_map (f : α → β) (l : List α) :
    pairs (l.map f) = (pairs l).map fun p => (f p.1, f p.2) := by
  fun_induction pairs l with
  | case1 k v rest ih => simp [pairs, ih]
  | case2 l h =>
    match l with
    | [] => rfl
    | [a] => rfl
    | a :: b :: l => exact absurd rfl (h a b l)

theorem length_pairs (l : List α) : (pairs l).length = l.length / 2 := by
  fun_induction pairs l with
  | case1 k v rest ih =>
    rw [List.length_cons, ih, List.length_cons, List.length_cons]
    omega
  | case2 l h =>
    match l with
    | [] => simp
    | [a] => simp
    | a :: b :: l => exact absurd rfl (h a b l)

theorem mem_of_mem_pairs {l : List α} {p : α × α} (h : p ∈ pairs l) : p.1 ∈ l ∧ p.2 ∈ l := by
  fun_induction pairs l with
  | case1 k v rest ih =>
    rcases List.mem_cons.1 h with rfl | h
    · simp
    · simp [ih h]
  | case2 => simp at h

end Pairs

theorem Table.insert_map {κ α β : Type} [DecidableEq κ] (f : α → β) (t : Table κ α) (k : κ)
    (a : α) : Table.insert (t.map fun e => (e.1, f e.2)) k (f a) =
      (t.insert k a).map fun e => (e.1, f e.2) := by
  rw [Table.insert, Table.insert, List.filter_map, List.map_cons]
  rfl

end TypedLisp
