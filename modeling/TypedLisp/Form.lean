import TypedLisp.Token
import TypedLisp.Text.Quoted

/-!
# Forms

The tree of a source text: atoms, and bracketed sequences of forms. A map is a sequence of even
length in which keys and values alternate. `Form.text` writes a form back as source text.
-/

namespace TypedLisp

/-- A form without parts. -/
inductive Atom where
  | bool (value : Bool)
  | int (value : Int64)
  | str (value : String)
  | symbol (name : String)
  /-- A symbol `qualifier/name`. -/
  | qualified (qualifier name : String)
deriving DecidableEq, Repr

/-- A form, with the range it was read from. -/
inductive Form where
  | atom (value : Atom) (range : Range)
  | seq (bracket : Bracket) (items : List Form) (range : Range)
deriving Repr

instance : Inhabited Form := ⟨.seq .list [] .nowhere⟩

namespace Form

/-- Where the form stands. -/
def range : Form → Range
  | .atom _ r => r
  | .seq _ _ r => r

/-- The form as a symbol without qualifier. -/
def symbol? : Form → Option String
  | .atom (.symbol name) _ => some name
  | _ => none

end Form

/-- The name of an atom's kind, as messages give it. -/
def Atom.describe : Atom → String
  | .bool _ => "boolean"
  | .int _ => "integer"
  | .str _ => "string"
  | .symbol _ => "symbol"
  | .qualified _ _ => "qualified symbol"

/-- The name of a bracketed form's kind, as messages give it. -/
def Bracket.describe : Bracket → String
  | .list => "list"
  | .vector => "vector"
  | .set => "set"
  | .map => "map"

/-- The name of a form's kind, as messages give it. -/
def Form.describe : Form → String
  | .atom a _ => a.describe
  | .seq b _ _ => b.describe

/-! ## Printing -/

/-- An integer in decimal. -/
def intText (n : Int64) : String := toString n.toInt

/-- A boolean as it is written. -/
def boolText (b : Bool) : String := if b then "true" else "false"

/-- The source text of an atom. -/
def Atom.text : Atom → String
  | .bool b => boolText b
  | .int n => intText n
  | .str s => Text.quote s
  | .symbol name => name
  | .qualified qualifier name => qualifier ++ "/" ++ name

mutual

/-- The source text of a form, with one space between neighbours. -/
def Form.text : Form → String
  | .atom a _ => a.text
  | .seq b items _ => b.opener ++ " ".intercalate (Form.texts items) ++ b.closer.text

/-- The source texts of some forms. -/
def Form.texts : List Form → List String
  | [] => []
  | f :: fs => f.text :: Form.texts fs

end

/-- The items of a map by key and value. -/
def pairs {α : Type} : List α → List (α × α)
  | k :: v :: rest => (k, v) :: pairs rest
  | _ => []

end TypedLisp
