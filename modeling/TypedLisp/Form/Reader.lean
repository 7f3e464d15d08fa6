import TypedLisp.Form
import TypedLisp.Token.Lexer

/-!
# From tokens to forms

Reading goes through the tokens once. The state holds the forms that are complete and, innermost
first, the brackets that are still open with what stands in them so far. A closing bracket ends the
innermost open form if it is of its kind; otherwise it is reported and passed over. At the end every
bracket still open is reported, innermost first, and its contents are dropped.
-/

namespace TypedLisp

/-- What can be wrong with a source text. -/
inductive ReadProblem where
  | character (text : String)
  | unexpected (closer : Closer)
  | unclosed (bracket : Bracket)
  /-- A map with a key that has no value. -/
  | oddMap
deriving DecidableEq, Repr

/-- A problem and where it is. -/
structure ReadError where
  problem : ReadProblem
  range : Range
deriving DecidableEq, Repr

def ReadProblem.message : ReadProblem → String
  | .character text => "unexpected character '" ++ text ++ "'"
  | .unexpected c => "unexpected '" ++ c.text ++ "'"
  | .unclosed b => "unclosed '" ++ b.opener ++ "'"
  | .oddMap => "map literal must contain an even number of forms"

def ReadError.message (e : ReadError) : String :=
  "[" ++ e.range.text ++ "] " ++ e.problem.message

/-- A symbol with a slash inside is a qualifier and a name, divided at the first slash. -/
def Atom.ofSymbol (name : String) : Atom :=
  let cs := name.toList
  match cs.takeWhile (· != '/'), cs.dropWhile (· != '/') with
  | q :: qs, _ :: n :: ns => .qualified (String.ofList (q :: qs)) (String.ofList (n :: ns))
  | _, _ => .symbol name

/-! ## Reading as a state -/

/-- A bracket that is open: where it stands, and its items so far, newest first. -/
structure OpenForm where
  bracket : Bracket
  span : Span
  items : List Form

/-- Reading in progress: open brackets innermost first, complete forms and errors newest first. -/
structure Reading where
  openForms : List OpenForm := []
  forms : List Form := []
  errors : List ReadError := []

namespace Reading

variable (text : List Char)

/-- Puts a complete form where it belongs. -/
def add (r : Reading) (f : Form) : Reading :=
  match r.openForms with
  | [] => { r with forms := f :: r.forms }
  | o :: os => { r with openForms := { o with items := f :: o.items } :: os }

/-- Reports a problem. -/
def report (r : Reading) (p : ReadProblem) (s : Span) : Reading :=
  { r with errors := ⟨p, s.range text⟩ :: r.errors }

/-- Ends the bracket `o`, which is no longer among the open ones, at the span `s`. -/
def close (r : Reading) (o : OpenForm) (s : Span) : Reading :=
  let whole := o.span.merge s
  if o.bracket = .map ∧ o.items.length % 2 ≠ 0 then r.report text .oddMap whole
  else r.add (.seq o.bracket o.items.reverse (whole.range text))

/-- Takes in the next token. -/
def step (r : Reading) : Token × Span → Reading
  | (.opening b, s) => { r with openForms := ⟨b, s, []⟩ :: r.openForms }
  | (.closing c, s) =>
    match r.openForms with
    | [] => r.report text (.unexpected c) s
    | o :: os =>
      if o.bracket.closer = c then close text { r with openForms := os } o s
      else r.report text (.unexpected c) s
  | (.ascribe, s) => r.add (.atom (.symbol "::") (s.range text))
  | (.bool b, s) => r.add (.atom (.bool b) (s.range text))
  | (.int n, s) => r.add (.atom (.int n) (s.range text))
  | (.str v, s) => r.add (.atom (.str v) (s.range text))
  | (.symbol name, s) => r.add (.atom (.ofSymbol name) (s.range text))

/-- Reports every bracket that is still open. -/
def finish (r : Reading) : Reading :=
  r.openForms.foldl (fun r o => r.report text (.unclosed o.bracket) o.span) r

end Reading

/-- The forms of a source text and all its errors: text that is no token first, then brackets. -/
def read (source : String) : List Form × List ReadError :=
  let text := source.toList
  let r := ((tokens source).foldl (Reading.step text) {}).finish text
  let invalid := (invalidText source).map fun (t, s) => ⟨.character t, s.range text⟩
  (r.forms.reverse, invalid ++ r.errors.reverse)

/-- The forms of a source text that has no error, or else its first error. -/
def readAll (source : String) : Except ReadError (List Form) :=
  match read source with
  | (forms, []) => .ok forms
  | (_, e :: _) => .error e

end TypedLisp
