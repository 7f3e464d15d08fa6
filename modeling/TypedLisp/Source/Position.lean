/-!
# Places in a source text

A `Span` is a stretch of a text in bytes, a `Range` the same stretch by lines and columns.
`Pos.ofOffset` finds the line and column of a byte offset: columns count characters, and an offset
that is not between two characters of the text counts bytes from the start of its line.
-/

namespace TypedLisp

/-- A stretch of a text, in bytes; `stop` is the first byte after it. -/
structure Span where
  start : Nat
  stop : Nat
deriving DecidableEq, Repr

/-- The least span that covers both spans. -/
def Span.merge (a b : Span) : Span :=
  ⟨min a.start b.start, max a.stop b.stop⟩

/-- A line and a column, both counted from one. -/
structure Pos where
  line : Nat
  col : Nat
deriving DecidableEq, Repr

/-- A stretch of a text from one position up to another. -/
structure Range where
  start : Pos
  stop : Pos
deriving DecidableEq, Repr

/-- The range of what no text was written for. -/
def Range.nowhere : Range := ⟨⟨0, 0⟩, ⟨0, 0⟩⟩

instance : Inhabited Range := ⟨.nowhere⟩

/-- The written form `line:col`. -/
def Pos.text (p : Pos) : String := toString p.line ++ ":" ++ toString p.col

/-- The written form `line:col-line:col`. -/
def Range.text (r : Range) : String := r.start.text ++ "-" ++ r.stop.text

/-- The length in bytes of a list of characters. -/
def byteLength : List Char → Nat
  | [] => 0
  | c :: cs => c.utf8Size + byteLength cs

/-- The position of byte `offset` in a text of which `cs` is left: `cs` begins at byte `here`,
which is column `col` of the line that starts at byte `lineStart`. -/
def Pos.seek (offset line lineStart col here : Nat) : List Char → Pos
  | [] => ⟨line, if here = offset then col else offset - lineStart + 1⟩
  | c :: cs =>
    if here = offset then ⟨line, col⟩
    else if offset < here + c.utf8Size then ⟨line, offset - lineStart + 1⟩
    else if c = '\n' then Pos.seek offset (line + 1) (here + 1) 1 (here + 1) cs
    else Pos.seek offset line lineStart (col + 1) (here + c.utf8Size) cs

/-- The position of a byte offset in a text. -/
def Pos.ofOffset (text : List Char) (offset : Nat) : Pos :=
  Pos.seek offset 1 0 1 0 text

/-- The range of a span of a text. -/
def Span.range (text : List Char) (s : Span) : Range :=
  ⟨Pos.ofOffset text s.start, Pos.ofOffset text s.stop⟩

end TypedLisp
