import TypedLisp.Token

/-!
# From text to tokens

`scan` finds the longest lexeme at the head of a text: blank space or a comment, a token, or text
that is no token. `lexemes` repeats it to the end of the text, so the lexemes it gives, written one
after the other, are the text; each scan takes at least one character (`length_rest_scan`).
-/

namespace TypedLisp

/-- What stands at some place of a text. -/
inductive Lexeme where
  /-- Blank space or a comment. -/
  | blank
  | token (t : Token)
  /-- Text that is no token. -/
  | invalid (text : String)
deriving DecidableEq, Repr

namespace Lexer

/-! ## Classes of characters -/

/-- Commas are blank. -/
def isBlank (c : Char) : Bool :=
  c = ' ' || c = '\t' || c = '\r' || c = '\n' || c = ','

/-- The signs that may stand anywhere in a symbol. -/
def isSign (c : Char) : Bool :=
  "_+-*/<>=!&|^~?".toList.contains c

/-- The characters that may begin a symbol. -/
def isSymbolStart (c : Char) : Bool := c.isAlpha || isSign c

/-- The characters that may follow in a symbol. -/
def isSymbolChar (c : Char) : Bool := c.isAlphanum || isSign c || c = '.'

/-! ## Literals -/

/-- The number that decimal digits denote. -/
def natOfDigits (ds : List Char) : Nat :=
  ds.foldl (fun n d => 10 * n + (d.toNat - '0'.toNat)) 0

/-- A token of a number, or text that is no token if the number does not fit in 64 bits. -/
def intLexeme (text : List Char) (n : Int) : Lexeme :=
  if Int64.minValue.toInt ≤ n ∧ n ≤ Int64.maxValue.toInt then .token (.int (Int64.ofInt n))
  else .invalid (String.ofList text)

/-- Splits a text after its longest run of string contents: characters other than the quote and the
backslash, and backslashes with the character that follows, a newline apart. -/
def splitString : List Char → List Char × List Char
  | [] => ([], [])
  | '"' :: cs => ([], '"' :: cs)
  | ['\\'] => ([], ['\\'])
  | '\\' :: c :: cs =>
    if c = '\n' then ([], '\\' :: c :: cs)
    else
      let (body, rest) := splitString cs
      ('\\' :: c :: body, rest)
  | c :: cs =>
    let (body, rest) := splitString cs
    (c :: body, rest)

/-- The characters that string contents denote. An escape that has no meaning stands for itself. -/
def unescape : List Char → List Char
  | [] => []
  | '\\' :: 'n' :: cs => '\n' :: unescape cs
  | '\\' :: 't' :: cs => '\t' :: unescape cs
  | '\\' :: 'r' :: cs => '\r' :: unescape cs
  | '\\' :: '0' :: cs => '\x00' :: unescape cs
  | '\\' :: '"' :: cs => '"' :: unescape cs
  | '\\' :: '\\' :: cs => '\\' :: unescape cs
  | '\\' :: c :: cs => '\\' :: c :: unescape cs
  | c :: cs => c :: unescape cs

/-- The lexeme of a run of symbol characters: a keyword, a negative number, or a symbol. -/
def wordLexeme (word : List Char) : Lexeme :=
  match word with
  | ['t', 'r', 'u', 'e'] => .token (.bool true)
  | ['f', 'a', 'l', 's', 'e'] => .token (.bool false)
  | '-' :: d :: ds =>
    if (d :: ds).all Char.isDigit then intLexeme word (-natOfDigits (d :: ds))
    else .token (.symbol (String.ofList word))
  | _ => .token (.symbol (String.ofList word))

/-! ## One lexeme -/

/-- A lexeme at the head of a text that begins with a known character: the characters `more` belong
to it as well, and `rest` follows it. -/
structure Scan where
  lexeme : Lexeme
  more : List Char
  rest : List Char

/-- A lexeme of one character. -/
def Scan.single (l : Lexeme) (cs : List Char) : Scan := ⟨l, [], cs⟩

/-- The string literal, or what there is of one, after its opening quote. -/
def scanString (cs : List Char) : Scan :=
  match splitString cs with
  | (body, '"' :: rest) => ⟨.token (.str (String.ofList (unescape body))), body ++ ['"'], rest⟩
  | (body, rest) => ⟨.invalid (String.ofList ('"' :: body)), body, rest⟩

/-- The bracket, `::` or string at the head of the text `c :: cs`, or text that is no token. -/
def scanMark (c : Char) (cs : List Char) : Scan :=
  match c, cs with
  | '(', cs => .single (.token (.opening .list)) cs
  | ')', cs => .single (.token (.closing .paren)) cs
  | '[', cs => .single (.token (.opening .vector)) cs
  | ']', cs => .single (.token (.closing .square)) cs
  | '\x7b', cs => .single (.token (.opening .map)) cs
  | '\x7d', cs => .single (.token (.closing .curly)) cs
  | '#', '\x7b' :: rest => ⟨.token (.opening .set), ['\x7b'], rest⟩
  | ':', ':' :: rest => ⟨.token .ascribe, [':'], rest⟩
  | '"', cs => scanString cs
  | c, cs => .single (.invalid (String.ofList [c])) cs

/-- The lexeme at the head of the text `c :: cs`. -/
def scan (c : Char) (cs : List Char) : Scan :=
  if isBlank c then ⟨.blank, cs.takeWhile isBlank, cs.dropWhile isBlank⟩
  else if c = ';' then ⟨.blank, cs.takeWhile (· != '\n'), cs.dropWhile (· != '\n')⟩
  else if c.isDigit then
    let digits := cs.takeWhile Char.isDigit
    ⟨intLexeme (c :: digits) (natOfDigits (c :: digits)), digits, cs.dropWhile Char.isDigit⟩
  else if isSymbolStart c then
    let word := cs.takeWhile isSymbolChar
    ⟨wordLexeme (c :: word), word, cs.dropWhile isSymbolChar⟩
  else scanMark c cs

theorem splitString_append (cs : List Char) :
    (splitString cs).1 ++ (splitString cs).2 = cs := by
  fun_induction splitString cs <;> simp_all

theorem more_append_rest_scanString (cs : List Char) :
    (scanString cs).more ++ (scanString cs).rest = cs := by
  have h := splitString_append cs
  unfold scanString
  split <;> simp_all

theorem more_append_rest_scanMark (c : Char) (cs : List Char) :
    (scanMark c cs).more ++ (scanMark c cs).rest = cs := by
  unfold scanMark
  split <;> simp [Scan.single, more_append_rest_scanString]

/-- Nothing is lost between a lexeme and the text after it. -/
theorem more_append_rest_scan (c : Char) (cs : List Char) :
    (scan c cs).more ++ (scan c cs).rest = cs := by
  unfold scan
  repeat' split
  all_goals simp [more_append_rest_scanMark]

theorem length_rest_scan (c : Char) (cs : List Char) :
    (scan c cs).rest.length < (c :: cs).length := by
  have h := congrArg List.length (more_append_rest_scan c cs)
  simp only [List.length_append] at h
  simp only [List.length_cons]
  omega

end Lexer

/-- The lexemes of a text that begins at byte `here`, with their spans. -/
def lexemes (here : Nat) (text : List Char) : List (Lexeme × Span) :=
  match text with
  | [] => []
  | c :: cs =>
    let s := Lexer.scan c cs
    let next := here + byteLength (c :: s.more)
    (s.lexeme, ⟨here, next⟩) :: lexemes next s.rest
termination_by text.length
decreasing_by exact Lexer.length_rest_scan c cs

/-- The token of a lexeme that is one. -/
def Lexeme.token? : Lexeme × Span → Option (Token × Span)
  | (.token t, s) => some (t, s)
  | _ => none

/-- The text of a lexeme that is no token. -/
def Lexeme.invalid? : Lexeme × Span → Option (String × Span)
  | (.invalid text, s) => some (text, s)
  | _ => none

/-- The tokens of a source text, with their spans. -/
def tokens (source : String) : List (Token × Span) :=
  (lexemes 0 source.toList).filterMap Lexeme.token?

/-- The stretches of a source text that are no token, with their text. -/
def invalidText (source : String) : List (String × Span) :=
  (lexemes 0 source.toList).filterMap Lexeme.invalid?

end TypedLisp
