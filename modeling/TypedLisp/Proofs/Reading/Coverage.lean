import Mathlib.Data.List.Pairwise
import TypedLisp.Proofs.Reading.Lexing

/-!
# Lexing loses nothing

A text is lexed from left to right: each lexeme begins where the one before it ends, so the lexemes
lie side by side, in order, and every character is in one of them (`exists_lexeme_at`). The spans of
tokens and of text that is no token are those of the lexemes that are not blank (`spans`). What they
leave out is blank space or a comment up to the end of its line.
-/

namespace TypedLisp

variable {s : Span} {p : Lexeme × Span} {t : Token} {source : String}

/-! ## Stretches of a text -/

@[simp] theorem byteLength_append (xs ys : List Char) :
    byteLength (xs ++ ys) = byteLength xs + byteLength ys := by
  induction xs with
  | nil => simp [byteLength]
  | cons x xs ih => simp [byteLength, ih, Nat.add_assoc]

theorem byteLength_cons_pos (c : Char) (cs : List Char) : 0 < byteLength (c :: cs) :=
  Nat.lt_of_lt_of_le c.utf8Size_pos (Nat.le_add_right ..)

theorem append_inj_of_byteLength {xs xs' ys ys' : List Char} (h : xs ++ ys = xs' ++ ys')
    (hlen : byteLength xs = byteLength xs') : xs = xs' ∧ ys = ys' := by
  obtain ⟨zs, rfl, rfl⟩ | ⟨zs, rfl, rfl⟩ := List.append_eq_append_iff.1 h
  all_goals
    cases zs with
    | nil => simp
    | cons z zs =>
      have hpos := byteLength_cons_pos z zs
      rw [byteLength_append] at hlen
      omega

/-- Whether a span begins and ends between characters of a text and has the characters `inside`. -/
def Span.Holds (s : Span) (text inside : List Char) : Prop :=
  ∃ before after, text = before ++ (inside ++ after) ∧
    s = ⟨byteLength before, byteLength (before ++ inside)⟩

theorem Span.Holds.unique {text xs ys : List Char} (hx : s.Holds text xs) (hy : s.Holds text ys) :
    xs = ys := by
  obtain ⟨before, after, rfl, rfl⟩ := hx
  obtain ⟨before', after', htext, hspan⟩ := hy
  obtain ⟨hstart, hstop⟩ := Span.mk.inj hspan
  obtain ⟨rfl, hrest⟩ := append_inj_of_byteLength htext hstart
  rw [byteLength_append, byteLength_append, Nat.add_left_cancel_iff] at hstop
  exact (append_inj_of_byteLength hrest hstop).1

/-! ## The lexemes side by side -/

section Lexemes

variable {here : Nat} {text : List Char}

theorem exists_scan_of_mem_lexemes {l : Lexeme} (h : (l, s) ∈ lexemes here text) :
    ∃ before c cs, text = before ++ c :: cs ∧ l = (Lexer.scan c cs).lexeme ∧
      s = ⟨here + byteLength before,
        here + byteLength (before ++ c :: (Lexer.scan c cs).more)⟩ := by
  fun_induction lexemes here text with
  | case1 => cases h
  | case2 here c cs sc next ih =>
    rcases List.mem_cons.1 h with heq | h
    · obtain ⟨rfl, rfl⟩ := Prod.mk.inj heq
      exact ⟨[], c, cs, rfl, rfl, rfl⟩
    · obtain ⟨before, d, ds, hrest, rfl, rfl⟩ := ih h
      refine ⟨c :: sc.more ++ before, d, ds, ?_, rfl, ?_⟩
      · rw [List.append_assoc, ← hrest, List.cons_append, Lexer.more_append_rest_scan]
      · simp only [next, byteLength_append, Nat.add_assoc]

theorem le_start_of_mem_lexemes (h : p ∈ lexemes here text) :
    here ≤ p.2.start := by
  obtain ⟨before, c, cs, -, -, hs⟩ := exists_scan_of_mem_lexemes (l := p.1) (s := p.2) h
  rw [hs]
  exact Nat.le_add_right ..

theorem pairwise_lexemes (here : Nat) (text : List Char) :
    (lexemes here text).Pairwise fun p q => p.2.stop ≤ q.2.start := by
  fun_induction lexemes here text with
  | case1 => exact .nil
  | case2 here c cs sc next ih =>
    exact List.pairwise_cons.2 ⟨fun q hq => le_start_of_mem_lexemes hq, ih⟩

/-- **Every character of a text is in a lexeme.** -/
theorem exists_lexeme_at (here : Nat) {before after : List Char} {c : Char}
    (h : text = before ++ c :: after) :
    ∃ outer d ds x y, text = outer ++ d :: ds ∧ before = outer ++ x ∧
      d :: (Lexer.scan d ds).more = x ++ c :: y ∧
      ((Lexer.scan d ds).lexeme, (⟨here + byteLength outer,
        here + byteLength (outer ++ d :: (Lexer.scan d ds).more)⟩ : Span)) ∈ lexemes here text := by
  fun_induction lexemes here text generalizing before with
  | case1 => simp at h
  | case2 here d ds sc next =>
    rename_i ih
    have hsplit : d :: sc.more ++ sc.rest = before ++ c :: after := by
      rw [List.cons_append, Lexer.more_append_rest_scan, h]
    obtain ⟨x, hbefore, hrest⟩ | ⟨y, hmore, hafter⟩ := List.append_eq_append_iff.1 hsplit
    · -- the character comes after the first lexeme
      obtain ⟨outer, e, es, x', y, htext, rfl, hmore, hmem⟩ := ih hrest
      refine ⟨d :: sc.more ++ outer, e, es, x', y, ?_, by rw [hbefore, List.append_assoc], hmore,
        List.mem_cons_of_mem _ ?_⟩
      · rw [List.append_assoc, ← htext, List.cons_append, Lexer.more_append_rest_scan]
      · simpa only [next, byteLength_append, Nat.add_assoc] using hmem
    · cases y with
      | nil =>
        -- the character is the first one after it
        have hnext : sc.rest = [] ++ c :: after := hafter.symm
        obtain ⟨outer, e, es, x', y, htext, hx, hmore', hmem⟩ := ih hnext
        obtain ⟨rfl, rfl⟩ := List.append_eq_nil_iff.1 hx.symm
        refine ⟨d :: sc.more, e, es, [], y, ?_, by simpa using hmore.symm, hmore',
          List.mem_cons_of_mem _ ?_⟩
        · rw [List.nil_append] at htext
          rw [← htext, List.cons_append, Lexer.more_append_rest_scan]
        · simpa only [next, byteLength_append, Nat.add_assoc, List.nil_append, byteLength,
            Nat.add_zero] using hmem
      | cons y ys =>
        obtain ⟨rfl, -⟩ := List.cons.inj hafter
        exact ⟨[], d, ds, before, ys, rfl, rfl, hmore, List.mem_cons_self ..⟩

end Lexemes

/-! ## One lexeme -/

namespace Lexer

variable {c : Char} {cs : List Char}

theorem intLexeme_ne_blank (text : List Char) (n : Int) : intLexeme text n ≠ .blank := by
  unfold intLexeme
  split <;> simp

theorem wordLexeme_ne_blank (word : List Char) : wordLexeme word ≠ .blank := by
  unfold wordLexeme
  split
  · simp
  · simp
  · split
    · exact intLexeme_ne_blank _ _
    · simp
  · simp

theorem lexeme_scanMark_ne_blank (c : Char) (cs : List Char) :
    (scanMark c cs).lexeme ≠ .blank := by
  unfold scanMark scanString
  repeat' split
  all_goals simp [Scan.single]

/-- What is passed over is blank space, or a comment up to the end of its line. -/
theorem blank_of_scan (h : (scan c cs).lexeme = .blank) :
    (∀ x ∈ c :: (scan c cs).more, isBlank x) ∨
      c = ';' ∧ '\n' ∉ (scan c cs).more ∧ ∀ x ∈ (scan c cs).rest.head?, x = '\n' := by
  unfold scan at h ⊢
  split at h
  · rename_i hblank
    rw [if_pos hblank]
    refine .inl (List.forall_mem_cons.2 ⟨hblank, fun x hx => List.mem_takeWhile_imp hx⟩)
  rename_i hblank
  rw [if_neg hblank]
  split at h
  · rename_i hcomment
    rw [if_pos hcomment]
    refine .inr ⟨hcomment, fun hmem => ?_, fun x hx => ?_⟩
    · simpa using List.mem_takeWhile_imp hmem
    · have := List.head?_dropWhile_not (· != '\n') cs
      rw [Option.mem_def.1 hx] at this
      simpa using this
  split at h
  · dsimp only at h
    exact absurd h (intLexeme_ne_blank _ _)
  split at h
  · dsimp only at h
    exact absurd h (wordLexeme_ne_blank _)
  · exact absurd h (lexeme_scanMark_ne_blank c cs)

/-- The contents of a string that is closed are the same whatever comes after the closing quote. -/
theorem splitString_closed {body rest : List Char} (h : splitString cs = (body, '"' :: rest))
    (rest' : List Char) : splitString (body ++ '"' :: rest') = (body, '"' :: rest') := by
  fun_induction splitString cs generalizing body with
  | case1 => cases h
  | case2 cs =>
    cases h
    rw [List.nil_append, splitString]
  | case3 => simp at h
  | case4 cs => simp at h
  | case5 c cs hc body' rest₀ heq ih =>
    obtain ⟨rfl, rfl⟩ := Prod.mk.inj h
    rw [List.cons_append, List.cons_append, splitString_escape hc, ih heq]
  | case6 c cs hquote hlast hescape body' rest₀ heq ih =>
    obtain ⟨rfl, rfl⟩ := Prod.mk.inj h
    have hback : c ≠ '\\' := fun hc => by
      cases cs with
      | nil => exact hlast hc rfl
      | cons d ds => exact hescape d ds hc rfl
    rw [List.cons_append, splitString_plain hquote hback, ih heq]

theorem scanString_more (h : (scanString cs).lexeme = .token t) :
    scanString (scanString cs).more = ⟨.token t, (scanString cs).more, []⟩ := by
  unfold scanString at h
  split at h
  · rename_i body rest hsplit
    have hmore : (scanString cs).more = body ++ ['"'] := by simp [scanString, hsplit]
    rw [hmore, scanString, splitString_closed hsplit []]
    cases h
    rfl
  · cases h

/-- **A token is lexed alike on its own.** -/
theorem scan_more (h : (scan c cs).lexeme = .token t) :
    scan c (scan c cs).more = ⟨.token t, (scan c cs).more, []⟩ := by
  by_cases hblank : isBlank c
  · simp [scan, hblank] at h
  by_cases hcomment : c = ';'
  · subst hcomment
    simp [scan, hblank] at h
  by_cases hdigit : c.isDigit
  · have hscan : scan c cs = ⟨intLexeme (c :: cs.takeWhile Char.isDigit)
        (natOfDigits (c :: cs.takeWhile Char.isDigit)), cs.takeWhile Char.isDigit,
        cs.dropWhile Char.isDigit⟩ := by
      simp [scan, hblank, hcomment, hdigit]
    have hagain : scan c (cs.takeWhile Char.isDigit ++ []) = _ :=
      scan_digits hdigit (fun _ hx => List.mem_takeWhile_imp hx) (by rintro _ ⟨⟩)
    rw [List.append_nil] at hagain
    rw [hscan] at h ⊢
    dsimp only at h ⊢
    rw [hagain, h]
  by_cases hstart : isSymbolStart c
  · have hscan : scan c cs = ⟨wordLexeme (c :: cs.takeWhile isSymbolChar),
        cs.takeWhile isSymbolChar, cs.dropWhile isSymbolChar⟩ := by
      simp [scan, hblank, hcomment, hdigit, hstart]
    have hagain : scan c (cs.takeWhile isSymbolChar ++ []) = _ :=
      scan_word hstart (fun _ hx => List.mem_takeWhile_imp hx) (by rintro _ ⟨⟩)
    rw [List.append_nil] at hagain
    rw [hscan] at h ⊢
    dsimp only at h ⊢
    rw [hagain, h]
  · have hmark : ∀ ds, scan c ds = scanMark c ds := fun ds => by
      simp [scan, hblank, hcomment, hdigit, hstart]
    rw [hmark] at h ⊢
    rw [hmark]
    unfold scanMark at h
    split at h
    case h_9 => exact scanString_more h
    case h_10 => cases h
    all_goals
      cases h
      rfl

end Lexer

/-! ## The spans of a text -/

/-- The spans of the tokens of a text and of what is no token, in the order of their places. -/
def spans (source : String) : List Span :=
  ((tokens source).map Prod.snd ++ (invalidText source).map Prod.snd).mergeSort
    fun s t => s.start ≤ t.start

theorem Lexeme.token?_eq_some : Lexeme.token? p = some (t, s) ↔ p = (.token t, s) := by
  obtain ⟨l, s'⟩ := p
  cases l <;> simp [Lexeme.token?]

theorem Lexeme.invalid?_eq_some {text : String} :
    Lexeme.invalid? p = some (text, s) ↔ p = (.invalid text, s) := by
  obtain ⟨l, s'⟩ := p
  cases l <;> simp [Lexeme.invalid?]

section Spans

variable {source : String} {s : Span}

theorem mem_tokens_iff {t : Token} :
    (t, s) ∈ tokens source ↔ (.token t, s) ∈ lexemes 0 source.toList := by
  simp [tokens, Lexeme.token?_eq_some]

theorem mem_invalidText_iff {text : String} :
    (text, s) ∈ invalidText source ↔ (.invalid text, s) ∈ lexemes 0 source.toList := by
  simp [invalidText, Lexeme.invalid?_eq_some]

theorem mem_spans :
    s ∈ spans source ↔ ∃ l, l ≠ .blank ∧ (l, s) ∈ lexemes 0 source.toList := by
  simp only [spans, List.mem_mergeSort, List.mem_append, List.mem_map, Prod.exists,
    exists_eq_right, mem_tokens_iff, mem_invalidText_iff]
  constructor
  · rintro (⟨t, ht⟩ | ⟨text, htext⟩)
    · exact ⟨.token t, nofun, ht⟩
    · exact ⟨.invalid text, nofun, htext⟩
  · rintro ⟨l, hblank, hl⟩
    cases l with
    | blank => exact absurd rfl hblank
    | token t => exact .inl ⟨t, hl⟩
    | invalid text => exact .inr ⟨text, hl⟩

theorem exists_holds_of_mem_spans (h : s ∈ spans source) :
    ∃ c cs, s.Holds source.toList (c :: cs) := by
  obtain ⟨l, -, hl⟩ := mem_spans.1 h
  obtain ⟨before, c, cs, htext, -, rfl⟩ := exists_scan_of_mem_lexemes hl
  refine ⟨c, (Lexer.scan c cs).more, before, (Lexer.scan c cs).rest, ?_, by simp⟩
  rw [List.cons_append, Lexer.more_append_rest_scan, htext]

theorem start_lt_stop_of_mem_spans (h : s ∈ spans source) : s.start < s.stop := by
  obtain ⟨c, cs, before, after, -, rfl⟩ := exists_holds_of_mem_spans h
  have hpos := byteLength_cons_pos c cs
  show byteLength before < byteLength (before ++ c :: cs)
  rw [byteLength_append]
  omega

end Spans

/-- Whether no character is in both spans. -/
def Span.Apart (s t : Span) : Prop := s.stop ≤ t.start ∨ t.stop ≤ s.start

instance : Std.Symm fun p q : Lexeme × Span => p.2.Apart q.2 := ⟨fun _ _ h => h.symm⟩

/-- **The spans stand one after the other.** -/
theorem pairwise_spans (source : String) : (spans source).Pairwise fun s t => s.stop ≤ t.start := by
  have hlexemes : (lexemes 0 source.toList).Pairwise fun p q => p.2.Apart q.2 :=
    (pairwise_lexemes 0 source.toList).imp .inl
  have hapart : ((tokens source).map Prod.snd ++ (invalidText source).map Prod.snd).Pairwise
      Span.Apart := by
    refine List.pairwise_append.2 ⟨?_, ?_, ?_⟩
    · refine List.pairwise_map.2 (hlexemes.filterMap _ fun p q hpq t ht u hu => ?_)
      rwa [Lexeme.token?_eq_some.1 ht, Lexeme.token?_eq_some.1 hu] at hpq
    · refine List.pairwise_map.2 (hlexemes.filterMap _ fun p q hpq t ht u hu => ?_)
      rwa [Lexeme.invalid?_eq_some.1 ht, Lexeme.invalid?_eq_some.1 hu] at hpq
    · intro s hs t ht
      obtain ⟨⟨token, s⟩, htoken, rfl⟩ := List.mem_map.1 hs
      obtain ⟨⟨text, t⟩, htext, rfl⟩ := List.mem_map.1 ht
      exact hlexemes.forall (mem_tokens_iff.1 htoken) (mem_invalidText_iff.1 htext) (by simp)
  have hsorted : (spans source).Pairwise Span.Apart :=
    hapart.perm (List.mergeSort_perm ..).symm fun h => h.symm
  have hstarts : (spans source).Pairwise fun s t => s.start ≤ t.start := by
    have hmerge : (spans source).Pairwise fun s t => decide (s.start ≤ t.start) = true :=
      List.pairwise_mergeSort (by simpa using fun _ _ _ h h' => Nat.le_trans h h')
        (by simpa using fun s t : Span => Nat.le_total s.start t.start) _
    exact hmerge.imp of_decide_eq_true
  -- of two spans that do not meet, the first is the one that begins first
  refine (hsorted.and hstarts).imp_of_mem fun hs ht h => ?_
  have hlt := start_lt_stop_of_mem_spans ht
  obtain ⟨hbefore | hafter, hle⟩ := h
  · exact hbefore
  · omega

/-! ## What is between the spans -/

/-- Whether the character after `before` is in a comment: after a `;` in the same line, with no
token or other text beside the comment from there to the end of the line. -/
def InComment (source : String) (before : List Char) : Prop :=
  ∃ start body rest, source.toList = start ++ (';' :: body ++ rest) ∧ '\n' ∉ body ∧
    (∀ c ∈ rest.head?, c = '\n') ∧ start <+: before ∧
    before.length < (start ++ ';' :: body).length ∧
    ∀ s ∈ spans source, s.stop ≤ byteLength start ∨ byteLength (start ++ ';' :: body) ≤ s.start

/-- **What no span covers is blank or in a comment.** -/
theorem covered_or_blank {before after : List Char} {c : Char}
    (h : source.toList = before ++ c :: after) :
    (∃ s ∈ spans source, s.start ≤ byteLength before ∧ byteLength before < s.stop) ∨
      Lexer.isBlank c ∨ InComment source before := by
  obtain ⟨outer, d, ds, x, y, htext, rfl, hmore, hmem⟩ := exists_lexeme_at 0 h
  simp only [Nat.zero_add] at hmem
  by_cases hblank : (Lexer.scan d ds).lexeme = .blank
  · rcases Lexer.blank_of_scan hblank with hall | ⟨rfl, hline, hend⟩
    · exact .inr (.inl (hall c (hmore ▸ by simp)))
    · refine .inr (.inr ⟨outer, (Lexer.scan ';' ds).more, (Lexer.scan ';' ds).rest, ?_, hline, hend,
        List.prefix_append .., ?_, fun s hs => ?_⟩)
      · rw [List.cons_append, Lexer.more_append_rest_scan, htext]
      · rw [hmore]
        simp
      · obtain ⟨l, hl, hs⟩ := mem_spans.1 hs
        have hlexemes : (lexemes 0 source.toList).Pairwise fun p q => p.2.Apart q.2 :=
          (pairwise_lexemes 0 source.toList).imp .inl
        exact hlexemes.forall hs hmem fun heq => hl ((Prod.mk.inj heq).1.trans hblank)
  · refine .inl ⟨_, mem_spans.2 ⟨_, hblank, hmem⟩, ?_, ?_⟩
    · simp
    · have hpos := byteLength_cons_pos c y
      simp only [hmore, byteLength_append]
      omega

theorem lexemes_of_scan {c : Char} {cs : List Char} (h : (Lexer.scan c cs).lexeme = .token t) :
    lexemes 0 (c :: (Lexer.scan c cs).more) =
      [(.token t, ⟨0, byteLength (c :: (Lexer.scan c cs).more)⟩)] := by
  rw [lexemes]
  simp only [Lexer.scan_more h, Nat.zero_add]
  rw [lexemes]

theorem lex_slice {inside : List Char} (h : (t, s) ∈ tokens source)
    (hinside : s.Holds source.toList inside) :
    tokens (String.ofList inside) = [(t, ⟨0, byteLength inside⟩)] ∧
      invalidText (String.ofList inside) = [] := by
  obtain ⟨before, c, cs, htext, hlexeme, rfl⟩ := exists_scan_of_mem_lexemes (mem_tokens_iff.1 h)
  have hslice : Span.Holds ⟨0 + byteLength before,
      0 + byteLength (before ++ c :: (Lexer.scan c cs).more)⟩ source.toList
        (c :: (Lexer.scan c cs).more) := by
    refine ⟨before, (Lexer.scan c cs).rest, ?_, by simp⟩
    rw [List.cons_append, Lexer.more_append_rest_scan, htext]
  obtain rfl := hinside.unique hslice
  rw [tokens, invalidText, String.toList_ofList, lexemes_of_scan hlexeme.symm]
  exact ⟨rfl, rfl⟩

/-- **Lexing loses nothing.** The spans of the tokens of a text and of the stretches that are no
token lie one after the other; each begins and ends between characters of the text and has at least
one; every character outside of them is a space, a tabulator, a line break or a comma, or in a
comment that goes on to the end of its line; and the characters of a token are lexed on their own as
that token and nothing else. -/
theorem spans_account_for_text (source : String) :
    (spans source).Pairwise (fun s t => s.stop ≤ t.start) ∧
    (∀ s ∈ spans source, ∃ inside, inside ≠ [] ∧ s.Holds source.toList inside) ∧
    (∀ before c after, source.toList = before ++ c :: after →
      (∃ s ∈ spans source, s.start ≤ byteLength before ∧ byteLength before < s.stop) ∨
        c ∈ [' ', '\t', '\r', '\n', ','] ∨ InComment source before) ∧
    ∀ t s, (t, s) ∈ tokens source → ∀ inside, s.Holds source.toList inside →
      tokens (String.ofList inside) = [(t, ⟨0, byteLength inside⟩)] ∧
        invalidText (String.ofList inside) = [] := by
  refine ⟨pairwise_spans source, fun s hs => ?_, fun before c after htext => ?_,
    fun t s ht inside hinside => lex_slice ht hinside⟩
  · obtain ⟨c, cs, hholds⟩ := exists_holds_of_mem_spans hs
    exact ⟨c :: cs, List.cons_ne_nil _ _, hholds⟩
  · refine (covered_or_blank htext).imp_right (Or.imp_left fun hblank => ?_)
    simpa [Lexer.isBlank, or_assoc] using hblank

end TypedLisp
