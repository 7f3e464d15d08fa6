import TypedLisp.Source.Position

/-!
# Tokens

The pieces of a source text: brackets, `::`, literals and symbols.
-/

namespace TypedLisp

/-- The kinds of bracketed form. -/
inductive Bracket where
  | list
  | vector
  | set
  | map
deriving DecidableEq, Repr

/-- The closing brackets; a set and a map end alike. -/
inductive Closer where
  | paren
  | square
  | curly
deriving DecidableEq, Repr

/-- The text that opens a bracketed form. -/
def Bracket.opener : Bracket → String
  | .list => "("
  | .vector => "["
  | .set => "#\x7b"
  | .map => "\x7b"

/-- The closing bracket of a bracketed form. -/
def Bracket.closer : Bracket → Closer
  | .list => .paren
  | .vector => .square
  | .set => .curly
  | .map => .curly

/-- The text of a closing bracket. -/
def Closer.text : Closer → String
  | .paren => ")"
  | .square => "]"
  | .curly => "\x7d"

/-- A token of the language. -/
inductive Token where
  | opening (bracket : Bracket)
  | closing (closer : Closer)
  /-- The ascription sign `::`. -/
  | ascribe
  | bool (value : Bool)
  | int (value : Int64)
  | str (value : String)
  | symbol (name : String)
deriving DecidableEq, Repr

end TypedLisp
