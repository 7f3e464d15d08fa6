/-!
# Finite maps

A table is a list of entries in which every key stands at most once. Adding an entry takes the place
of one with the same key.
-/

namespace TypedLisp

/-- A finite map, as a list of entries. -/
abbrev Table (κ α : Type) := List (κ × α)

namespace Table

variable {κ α : Type} [DecidableEq κ]

/-- The entry of a key. -/
def get? (t : Table κ α) (k : κ) : Option α := t.lookup k

/-- Adds an entry, in place of one with the same key. -/
def insert (t : Table κ α) (k : κ) (a : α) : Table κ α :=
  (k, a) :: t.filter fun e => e.1 ≠ k

/-- Whether a key has an entry. -/
def contains (t : Table κ α) (k : κ) : Bool := (t.get? k).isSome

/-- The table of a list of entries, of which a later one takes the place of an earlier one. -/
def ofList (es : List (κ × α)) : Table κ α := es.foldl (fun t e => t.insert e.1 e.2) []

theorem get?_insert_self (t : Table κ α) (k : κ) (a : α) : (t.insert k a).get? k = some a := by
  simp [get?, insert]

theorem get?_insert_of_ne {t : Table κ α} {k k' : κ} {a : α} (h : k' ≠ k) :
    (t.insert k a).get? k' = t.get? k' := by
  have hk : (k' == k) = false := by simpa using h
  simp only [get?, insert, List.lookup_cons, hk]
  induction t with
  | nil => rfl
  | cons e t ih =>
    obtain ⟨e1, e2⟩ := e
    by_cases he : e1 = k
    · rw [List.filter_cons_of_neg (by simp [he]), ih, he, List.lookup_cons, hk]
    · rw [List.filter_cons_of_pos (by simpa using he), List.lookup_cons, List.lookup_cons, ih]

end Table

end TypedLisp
