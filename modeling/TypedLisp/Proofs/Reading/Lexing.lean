import Mathlib
import TypedLisp.Proofs.Reading.Grammar

/-!
# Lexing what was printed

Every token has a text (`Token.text`), and a text is lexed the same wherever it stands, so what
lexing makes of it is the list of its significant lexemes (`Lexer.significant`): its tokens and the
stretches that are no token, without blanks and without places.
-/

namespace TypedLisp

/-! ## Symbols -/

namespace Lexer

variable {name : String}

/-- Whether a name is that of a symbol token: a word that is no keyword and no number. -/
def IsSymbol (name : String) : Prop :=
  ∃ c cs, name.toList = c :: cs ∧ isSymbolStart c ∧ (∀ x ∈ cs, isSymbolChar x) ∧
    wordLexeme (c :: cs) = .token (.symbol name)

theorem intLexeme_ne_symbol (text : List Char) (n : Int) (name : String) :
    intLexeme text n ≠ .token (.symbol name) := by
  unfold intLexeme
  split <;> simp

theorem ofList_eq_of_wordLexeme {word : List Char} (h : wordLexeme word = .token (.symbol name)) :
    String.ofList word = name := by
  unfold wordLexeme at h
  split at h
  · cases h
  · cases h
  · split at h
    · exact absurd h (intLexeme_ne_symbol _ _ _)
    · cases h; rfl
  · cases h; rfl

theorem lexeme_scanMark_ne_symbol (c : Char) (cs : List Char) (name : String) :
    (scanMark c cs).lexeme ≠ .token (.symbol name) := by
  unfold scanMark scanString
  repeat' split
  all_goals simp [Scan.single]

theorem isSymbol_of_scan {c : Char} {cs : List Char}
    (h : (scan c cs).lexeme = .token (.symbol name)) : IsSymbol name := by
  unfold scan at h
  split at h
  · cases h
  split at h
  · cases h
  split at h
  · dsimp only at h
    exact absurd h (intLexeme_ne_symbol _ _ _)
  split at h
  · rename_i hstart
    refine ⟨c, cs.takeWhile isSymbolChar, ?_, hstart, fun x hx => List.mem_takeWhile_imp hx, h⟩
    rw [← ofList_eq_of_wordLexeme h, String.toList_ofList]
  · exact absurd h (lexeme_scanMark_ne_symbol c cs name)

theorem isSymbol_of_mem_lexemes {here : Nat} {text : List Char} {s : Span}
    (h : (.token (.symbol name), s) ∈ lexemes here text) : IsSymbol name := by
  fun_induction lexemes here text with
  | case1 => cases h
  | case2 here c cs sc next ih =>
    rcases List.mem_cons.1 h with heq | h
    · exact isSymbol_of_scan (Prod.mk.inj heq).1.symm
    · exact ih h

/-- **The symbols among the tokens of a text are words.** -/
theorem isSymbol_of_mem_tokens {source : String} {s : Span}
    (h : (.symbol name, s) ∈ tokens source) : IsSymbol name := by
  obtain ⟨⟨l, s'⟩, hl, htoken⟩ := List.mem_filterMap.1 h
  cases l with
  | token t =>
    cases htoken
    exact isSymbol_of_mem_lexemes hl
  | blank | invalid => cases htoken

end Lexer

/-! ## String literals -/

namespace Text

/-- Whether a string literal shows a character by its code point. -/
def ByCodePoint (c : Char) : Prop := ['\\', 'u', '\x7b'] <+: quoteChar c

instance (c : Char) : Decidable (ByCodePoint c) := inferInstanceAs (Decidable (_ <+: _))

/-- What reading makes of a character in a string literal. -/
def rereadChar (c : Char) : List Char := if ByCodePoint c then quoteChar c else [c]

/-- What reading makes of a string literal. -/
def reread (s : String) : String := String.ofList (s.toList.flatMap rereadChar)

/-- A character in a string literal stands for itself, or has a short escape, or is given by its
code point. -/
theorem quoteChar_cases (c : Char) :
    (¬ByCodePoint c ∧ c ≠ '"' ∧ c ≠ '\\' ∧ quoteChar c = [c]) ∨
    (¬ByCodePoint c ∧ ∃ e, e ≠ '\n' ∧ quoteChar c = ['\\', e] ∧
      ∀ cs, Lexer.unescape ('\\' :: e :: cs) = c :: Lexer.unescape cs) ∨
    (ByCodePoint c ∧ quoteChar c = '\\' :: 'u' :: '\x7b' :: (hexDigits c.toNat ++ ['\x7d'])) := by
  unfold ByCodePoint quoteChar
  split_ifs with h₀ ht hr hn hq hb hh
  · exact .inr (.inl ⟨by simp, '0', by decide, rfl, fun cs => by simp [Lexer.unescape, h₀]⟩)
  · exact .inr (.inl ⟨by simp, 't', by decide, rfl, fun cs => by simp [Lexer.unescape, ht]⟩)
  · exact .inr (.inl ⟨by simp, 'r', by decide, rfl, fun cs => by simp [Lexer.unescape, hr]⟩)
  · exact .inr (.inl ⟨by simp, 'n', by decide, rfl, fun cs => by simp [Lexer.unescape, hn]⟩)
  · exact .inr (.inl ⟨by simp, '"', by decide, rfl, fun cs => by simp [Lexer.unescape, hq]⟩)
  · exact .inr (.inl ⟨by simp, '\\', by decide, rfl, fun cs => by simp [Lexer.unescape, hb]⟩)
  · exact .inr (.inr ⟨by simp, by simp⟩)
  · exact .inl ⟨by simp, hq, hb, rfl⟩

theorem not_mark_of_mem_hexDigits {n : Nat} {x : Char} (h : x ∈ hexDigits n) :
    x ≠ '"' ∧ x ≠ '\\' := by
  have digit : ∀ k < 16, Nat.digitChar k ≠ '"' ∧ Nat.digitChar k ≠ '\\' := by decide
  unfold hexDigits at h
  induction n using Nat.strongRecOn with
  | ind n ih =>
    by_cases hn : n < 16
    · rw [Nat.toDigits_of_lt_base hn, List.mem_singleton] at h
      exact h ▸ digit n hn
    · rw [Nat.toDigits_of_base_le (by decide) (not_lt.1 hn), List.mem_append,
        List.mem_singleton] at h
      rcases h with h | rfl
      · exact ih _ (Nat.div_lt_self (by omega) (by decide)) h
      · exact digit _ (Nat.mod_lt _ (by decide))

theorem two_le_length_rereadChar {c : Char} (h : ByCodePoint c) : 2 ≤ (rereadChar c).length := by
  have := h.length_le
  rw [rereadChar, if_pos h]
  simp only [List.length_cons, List.length_nil] at this
  omega

theorem length_le_length_flatMap_rereadChar (s : List Char) :
    s.length ≤ (s.flatMap rereadChar).length := by
  induction s with
  | nil => simp
  | cons c s ih =>
    have hc : 1 ≤ (rereadChar c).length := by
      by_cases h : ByCodePoint c
      · have := two_le_length_rereadChar h
        omega
      · simp [rereadChar, h]
    simp only [List.flatMap_cons, List.length_append, List.length_cons]
    omega

/-- **A string comes back unchanged exactly if no character of it is shown by its code point**: such
a character comes back as several. -/
theorem reread_eq_self_iff {s : String} : reread s = s ↔ ∀ c ∈ s.toList, ¬ByCodePoint c := by
  have key : ∀ l : List Char, l.flatMap rereadChar = l ↔ ∀ c ∈ l, ¬ByCodePoint c := by
    intro l
    induction l with
    | nil => simp
    | cons c l ih =>
      rw [List.flatMap_cons, List.forall_mem_cons, ← ih]
      by_cases h : ByCodePoint c
      · have h₂ := two_le_length_rereadChar h
        have hl := length_le_length_flatMap_rereadChar l
        refine iff_of_false (fun heq => ?_) (fun hn => hn.1 h)
        have := congrArg List.length heq
        simp only [List.length_append, List.length_cons] at this
        omega
      · simp [rereadChar, h]
  rw [← key, reread]
  constructor
  · intro h
    rw [← String.toList_ofList (l := s.toList.flatMap rereadChar), h]
  · intro h
    rw [h, String.ofList_toList]

end Text

namespace Lexer

open Text

theorem splitString_plain {c : Char} (hq : c ≠ '"') (hb : c ≠ '\\') (cs : List Char) :
    splitString (c :: cs) = (c :: (splitString cs).1, (splitString cs).2) := by
  rw [splitString] <;> simp_all

theorem splitString_escape {e : Char} (he : e ≠ '\n') (cs : List Char) :
    splitString ('\\' :: e :: cs) =
      ('\\' :: e :: (splitString cs).1, (splitString cs).2) := by
  rw [splitString, if_neg he]

theorem unescape_plain {c : Char} (hb : c ≠ '\\') (cs : List Char) :
    unescape (c :: cs) = c :: unescape cs := by
  rw [unescape] <;> simp_all

/-- A run of characters that need no escape passes both through the contents of a string literal and
through their meaning. -/
theorem plain_run (xs cs : List Char) (h : ∀ x ∈ xs, x ≠ '"' ∧ x ≠ '\\') :
    splitString (xs ++ cs) = (xs ++ (splitString cs).1, (splitString cs).2) ∧
      unescape (xs ++ cs) = xs ++ unescape cs := by
  induction xs with
  | nil => exact ⟨rfl, rfl⟩
  | cons x xs ih =>
    obtain ⟨⟨hq, hb⟩, hxs⟩ := List.forall_mem_cons.1 h
    obtain ⟨hsplit, hmeaning⟩ := ih hxs
    exact ⟨by rw [List.cons_append, splitString_plain hq hb, hsplit]; rfl,
      by rw [List.cons_append, unescape_plain hb, hmeaning]; rfl⟩

/-- One character of a string literal is taken in whole, and means what `rereadChar` says. -/
theorem quoteChar_append (c : Char) (cs : List Char) :
    splitString (quoteChar c ++ cs) = (quoteChar c ++ (splitString cs).1, (splitString cs).2) ∧
      unescape (quoteChar c ++ cs) = rereadChar c ++ unescape cs := by
  obtain ⟨hcode, hq, hb, hquote⟩ | ⟨hcode, e, he, hquote, hmeaning⟩ | ⟨hcode, hquote⟩ :=
    quoteChar_cases c
  · rw [rereadChar, if_neg hcode, hquote]
    exact plain_run [c] cs (by simp [hq, hb])
  · rw [rereadChar, if_neg hcode, hquote]
    exact ⟨splitString_escape he cs, hmeaning cs⟩
  · rw [rereadChar, if_pos hcode, hquote]
    have hplain : ∀ x ∈ '\x7b' :: (hexDigits c.toNat ++ ['\x7d']), x ≠ '"' ∧ x ≠ '\\' := by
      intro x hx
      simp only [List.mem_cons, List.mem_append, List.not_mem_nil, or_false] at hx
      rcases hx with rfl | hx | rfl
      · decide
      · exact not_mark_of_mem_hexDigits hx
      · decide
    obtain ⟨hsplit, hmeaning⟩ := plain_run _ cs hplain
    refine ⟨?_, ?_⟩
    · rw [List.cons_append, List.cons_append, splitString_escape (by decide), hsplit]
      rfl
    · have hunknown : ∀ cs, unescape ('\\' :: 'u' :: cs) = '\\' :: 'u' :: unescape cs :=
        fun cs => by simp [unescape]
      rw [List.cons_append, List.cons_append, hunknown, hmeaning]
      rfl

theorem splitString_quoted (s rest : List Char) :
    splitString (s.flatMap quoteChar ++ '"' :: rest) = (s.flatMap quoteChar, '"' :: rest) := by
  induction s with
  | nil => rw [List.flatMap_nil, List.nil_append, splitString]
  | cons c s ih =>
    rw [List.flatMap_cons, List.append_assoc, (quoteChar_append c _).1, ih]

theorem unescape_quoted (s : List Char) :
    unescape (s.flatMap quoteChar) = s.flatMap rereadChar := by
  induction s with
  | nil => rfl
  | cons c s ih => rw [List.flatMap_cons, (quoteChar_append c _).2, ih, List.flatMap_cons]

end Lexer

/-! ## The lexemes of a text -/

theorem map_fst_lexemes (here here' : Nat) (text : List Char) :
    (lexemes here text).map Prod.fst = (lexemes here' text).map Prod.fst := by
  fun_induction lexemes here text generalizing here' with
  | case1 => rw [lexemes]
  | case2 here c cs sc next ih =>
    rw [lexemes, List.map_cons, List.map_cons]
    exact congrArg _ (ih _)

namespace Lexer

/-- The tokens of a text and the stretches that are none, in order. -/
def significant (text : List Char) : List Lexeme :=
  ((lexemes 0 text).map Prod.fst).filter (· ≠ .blank)

@[simp] theorem significant_nil : significant [] = [] := by
  simp [significant, lexemes]

theorem significant_cons (c : Char) (cs : List Char) :
    significant (c :: cs) =
      [(scan c cs).lexeme].filter (· ≠ .blank) ++ significant (scan c cs).rest := by
  rw [significant, lexemes, List.map_cons, List.filter_cons, significant,
    map_fst_lexemes _ 0 (scan c cs).rest]
  by_cases h : (scan c cs).lexeme = .blank <;> simp [h]

theorem significant_blank {c : Char} (hc : isBlank c) (cs : List Char) :
    significant (c :: cs) = significant cs := by
  have hscan : ∀ cs, scan c cs = ⟨.blank, cs.takeWhile isBlank, cs.dropWhile isBlank⟩ :=
    fun cs => by rw [scan, if_pos hc]
  rw [significant_cons, hscan]
  cases cs with
  | nil => simp
  | cons d ds =>
    by_cases hd : isBlank d
    · rw [significant_cons d ds, scan, if_pos hd]
      simp [hd]
    · simp [hd]

theorem significant_blanks {gap : List Char} (h : ∀ c ∈ gap, isBlank c) (cs : List Char) :
    significant (gap ++ cs) = significant cs := by
  induction gap with
  | nil => rfl
  | cons c gap ih =>
    obtain ⟨hc, hgap⟩ := List.forall_mem_cons.1 h
    rw [List.cons_append, significant_blank hc, ih hgap]

/-- A text whose significant lexemes are tokens has these tokens and no others. -/
theorem tokens_of_significant {source : String} {ts : List Token}
    (h : significant source.toList = ts.map .token) :
    invalidText source = [] ∧ (tokens source).map Prod.fst = ts := by
  have key : ∀ (ls : List (Lexeme × Span)) (ts : List Token),
      (ls.map Prod.fst).filter (· ≠ .blank) = ts.map .token →
        ls.filterMap Lexeme.invalid? = [] ∧ (ls.filterMap Lexeme.token?).map Prod.fst = ts := by
    intro ls
    induction ls with
    | nil => intro ts h; simpa using h
    | cons l ls ih =>
      intro ts h
      obtain ⟨l, s⟩ := l
      cases l with
      | blank =>
        rw [List.filterMap_cons_none rfl, List.filterMap_cons_none rfl]
        exact ih ts (by simpa using h)
      | token t =>
        cases ts with
        | nil => simp at h
        | cons t' ts =>
          obtain ⟨rfl, h⟩ : t = t' ∧ _ := by simpa using h
          obtain ⟨hinvalid, htokens⟩ := ih ts (by simpa using h)
          rw [List.filterMap_cons_none rfl, List.filterMap_cons_some (f := Lexeme.token?) rfl,
            List.map_cons, htokens]
          exact ⟨hinvalid, rfl⟩
      | invalid text =>
        cases ts <;> simp at h
  exact key _ ts h

end Lexer

/-! ## The text of a token -/

namespace Token

/-- The text of a token. -/
def text : Token → String
  | .opening b => b.opener
  | .closing c => c.text
  | .ascribe => "::"
  | .bool b => boolText b
  | .int n => intText n
  | .str s => Text.quote s
  | .symbol name => name

/-- What the text of a token is read as. -/
def reread : Token → Token
  | .str s => .str (Text.reread s)
  | t => t

/-- Whether what follows a token in a text can continue it. -/
def IsWord : Token → Prop
  | .bool _ => True
  | .int _ => True
  | .symbol _ => True
  | _ => False

/-- Whether a token has a text of its own kind: symbols must be words. -/
def Lexical : Token → Prop
  | .symbol name => Lexer.IsSymbol name
  | _ => True

theorem Lexical.ne_ascribe {t : Token} (h : t.Lexical) : t ≠ .symbol "::" := by
  rintro rfl
  obtain ⟨c, cs, hname, hstart, -⟩ := h
  obtain ⟨rfl, -⟩ := List.cons.inj hname
  exact absurd hstart (by decide)

end Token

namespace Lexer

variable {c : Char} {cs rest : List Char}

/-- Whether a text cannot continue a word or a number. -/
def Delimits (rest : List Char) : Prop := ∀ c ∈ rest.head?, isSymbolChar c = false

theorem isBlank_eq_false_of_isSymbolChar (h : isSymbolChar c) : isBlank c = false ∧ c ≠ ';' := by
  refine ⟨Bool.eq_false_iff.2 fun hb => ?_, fun hc => ?_⟩
  · simp only [isBlank, Bool.or_eq_true, decide_eq_true_eq] at hb
    obtain (((rfl | rfl) | rfl) | rfl) | rfl := hb <;> exact absurd h (by decide)
  · subst hc
    exact absurd h (by decide)

theorem delimits_of_isBlank (h : isBlank c) (cs : List Char) : Delimits (c :: cs) := by
  intro x hx
  obtain rfl : c = x := by simpa using hx
  exact Bool.eq_false_iff.2 fun hsymbol => by
    simp [(isBlank_eq_false_of_isSymbolChar hsymbol).1] at h

theorem isSymbolChar_of_isDigit (h : c.isDigit) : isSymbolChar c := by
  simp [isSymbolChar, Char.isAlphanum, h]

theorem isSymbolChar_of_isSymbolStart (h : isSymbolStart c) : isSymbolChar c := by
  simp only [isSymbolStart, Bool.or_eq_true] at h
  rcases h with h | h <;> simp [isSymbolChar, Char.isAlphanum, h]

theorem isDigit_eq_false_of_isSymbolStart (h : isSymbolStart c) : c.isDigit = false := by
  simp only [isSymbolStart, Bool.or_eq_true] at h
  rcases h with h | h
  · simp only [Char.isAlpha, Char.isUpper, Char.isLower, Char.isDigit, Bool.or_eq_true,
      Bool.and_eq_true, decide_eq_true_eq, Bool.and_eq_false_iff, decide_eq_false_iff_not,
      ge_iff_le, UInt32.le_iff_toNat_le, Char.reduceVal, UInt32.reduceToNat] at h ⊢
    omega
  · have hsigns : ("_+-*/<>=!&|^~?".toList.all fun x => !x.isDigit) = true := by decide
    simpa using List.all_eq_true.1 hsigns c (by simpa [isSign] using h)

theorem scan_word (hc : isSymbolStart c) (hcs : ∀ x ∈ cs, isSymbolChar x) (hrest : Delimits rest) :
    scan c (cs ++ rest) = ⟨wordLexeme (c :: cs), cs, rest⟩ := by
  obtain ⟨hblank, hcomment⟩ := isBlank_eq_false_of_isSymbolChar (isSymbolChar_of_isSymbolStart hc)
  obtain ⟨htake, hdrop⟩ := takeWhile_append_of_stop hcs hrest
  simp [scan, hblank, hcomment, isDigit_eq_false_of_isSymbolStart hc, hc, htake, hdrop]

theorem scan_digits (hc : c.isDigit) (hcs : ∀ x ∈ cs, x.isDigit) (hrest : Delimits rest) :
    scan c (cs ++ rest) = ⟨intLexeme (c :: cs) (natOfDigits (c :: cs)), cs, rest⟩ := by
  obtain ⟨hblank, hcomment⟩ := isBlank_eq_false_of_isSymbolChar (isSymbolChar_of_isDigit hc)
  obtain ⟨htake, hdrop⟩ := takeWhile_append_of_stop hcs fun x hx =>
    Bool.eq_false_iff.2 fun h => by simpa [isSymbolChar_of_isDigit h] using hrest x hx
  simp [scan, hblank, hcomment, hc, htake, hdrop]

theorem intLexeme_toInt (text : List Char) (n : Int64) :
    intLexeme text n.toInt = .token (.int n) := by
  rw [intLexeme, if_pos ⟨Int64.minValue_le_toInt n, Int64.toInt_le n⟩, Int64.ofInt_toInt]

theorem scan_intText (n : Int64) (hrest : Delimits rest) :
    ∃ c cs, (intText n).toList = c :: cs ∧ scan c (cs ++ rest) = ⟨.token (.int n), cs, rest⟩ := by
  rw [intText, Int.toString_eq_repr, Int.repr_eq_if]
  -- The number and the digits of its absolute value.
  have hdigits : ∀ m, ∃ d ds, Nat.toDigits 10 m = d :: ds ∧ (∀ x ∈ d :: ds, x.isDigit) ∧
      natOfDigits (d :: ds) = m := by
    intro m
    obtain ⟨d, ds, hd⟩ := List.exists_cons_of_ne_nil (Nat.toDigits_ne_nil (n := m) (b := 10))
    refine ⟨d, ds, hd, fun x hx => ?_, ?_⟩
    · exact Nat.isDigit_of_mem_toDigits (by decide) (by decide) (hd ▸ hx)
    · rw [← hd]
      exact Nat.ofDigitChars_ten_toDigits
  split
  · rename_i hn
    obtain ⟨d, ds, hd, hall, hvalue⟩ := hdigits n.toInt.toNat
    obtain ⟨hhead, htail⟩ := List.forall_mem_cons.1 hall
    refine ⟨d, ds, by rw [Nat.toList_repr, hd], ?_⟩
    rw [scan_digits hhead htail hrest, hvalue, Int.toNat_of_nonneg hn, intLexeme_toInt]
  · rename_i hn
    obtain ⟨d, ds, hd, hall, hvalue⟩ := hdigits (-n.toInt).toNat
    refine ⟨'-', d :: ds, by rw [String.toList_append, Nat.toList_repr, hd]; rfl, ?_⟩
    rw [scan_word (by decide) (fun x hx => isSymbolChar_of_isDigit (hall x hx)) hrest, wordLexeme,
      if_pos (List.all_eq_true.2 hall), hvalue, Int.toNat_of_nonneg (by omega), Int.neg_neg,
      intLexeme_toInt]

theorem scan_quote (s : String) (rest : List Char) :
    ∃ cs, (Text.quote s).toList = '"' :: cs ∧
      (scan '"' (cs ++ rest)).lexeme = .token (.str (Text.reread s)) ∧
      (scan '"' (cs ++ rest)).rest = rest := by
  refine ⟨s.toList.flatMap Text.quoteChar ++ ['"'], by simp [Text.quote], ?_⟩
  have hscan : ∀ cs, scan '"' cs = scanString cs := fun cs => rfl
  rw [hscan, List.append_assoc, scanString, List.cons_append, List.nil_append, splitString_quoted]
  exact ⟨congrArg (fun v => Lexeme.token (.str (String.ofList v))) (unescape_quoted s.toList), rfl⟩

/-- **The text of a token is lexed as that token**, strings apart, in front of a text that cannot
continue it. -/
theorem significant_text {t : Token} (ht : t.Lexical) (hrest : t.IsWord → Delimits rest) :
    significant (t.text.toList ++ rest) = .token t.reread :: significant rest := by
  suffices h : ∃ c cs, t.text.toList = c :: cs ∧ (scan c (cs ++ rest)).lexeme = .token t.reread ∧
      (scan c (cs ++ rest)).rest = rest by
    obtain ⟨c, cs, htext, hlexeme, hrest⟩ := h
    rw [htext, List.cons_append, significant_cons, hlexeme, hrest]
    simp
  cases t with
  | opening b => cases b <;> exact ⟨_, _, rfl, rfl, rfl⟩
  | closing c => cases c <;> exact ⟨_, _, rfl, rfl, rfl⟩
  | ascribe => exact ⟨_, _, rfl, rfl, rfl⟩
  | bool b =>
    have word : ∀ {c cs}, isSymbolStart c → (∀ x ∈ cs, isSymbolChar x) →
        (scan c (cs ++ rest)).lexeme = wordLexeme (c :: cs) ∧ (scan c (cs ++ rest)).rest = rest :=
      fun hc hcs => by rw [scan_word hc hcs (hrest trivial)]; exact ⟨rfl, rfl⟩
    cases b with
    | true => exact ⟨'t', ['r', 'u', 'e'], by decide, word (by decide) (List.all_eq_true.1 (by decide))⟩
    | false => exact ⟨'f', ['a', 'l', 's', 'e'], by decide, word (by decide) (List.all_eq_true.1 (by decide))⟩
  | int n =>
    obtain ⟨c, cs, htext, hscan⟩ := scan_intText n (hrest trivial)
    exact ⟨c, cs, htext, by rw [hscan]; rfl, by rw [hscan]⟩
  | str s =>
    obtain ⟨cs, htext, hscan⟩ := scan_quote s rest
    exact ⟨'"', cs, htext, hscan⟩
  | symbol name =>
    obtain ⟨c, cs, hname, hc, hcs, hword⟩ := ht
    have hscan := scan_word hc hcs (hrest trivial)
    exact ⟨c, cs, hname, by rw [hscan, hword]; rfl, by rw [hscan]⟩

end Lexer

end TypedLisp
