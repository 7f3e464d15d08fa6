import TypedLisp.Files
import TypedLisp.Form.Reader
import TypedLisp.Package.OptLevel

/-!
# Package manifests

A package is described by a form
`(package (name "…") (version "…") (sources "…" …) (opt-level "…"))` in a file of its own. The paths
of the sources are seen from the directory of that file.
-/

namespace TypedLisp

/-- The name of the file that describes a package. -/
def manifestName : String := "brj.pkg"

/-- The description of a package. -/
structure Manifest where
  name : String
  version : Option String
  sources : List String
  optLevel : Option OptLevel
deriving DecidableEq, Repr

/-- Why there is no description of a package. -/
inductive ManifestError where
  | unreadable (path : String) (cause : FileError)
  | read (e : ReadError)
  | parse (message : String) (range : Range)
  | missingField (name : String)
  | absent (dir : String)
deriving DecidableEq, Repr

def ManifestError.message : ManifestError → String
  | .unreadable path cause => "I/O error: " ++ path ++ ": " ++ cause.message
  | .read e => "manifest read error: " ++ e.message
  | .parse message r => "manifest parse error: [" ++ r.text ++ "] " ++ message
  | .missingField name => "missing required field `" ++ name ++ "` in manifest"
  | .absent dir => "no " ++ manifestName ++ " manifest found in " ++ dir

namespace Manifest

/-- The fields seen so far. -/
structure Fields where
  name : Option String := none
  version : Option String := none
  sources : List String := []
  optLevel : Option OptLevel := none

/-- The string that a form is. -/
def stringForm : Form → Except ManifestError String
  | .atom (.str s) _ => .ok s
  | f => .error (.parse ("expected string, got " ++ f.describe) f.range)

/-- The one string of a field. -/
def singleString (values : List Form) (r : Range) : Except ManifestError String :=
  match values with
  | [value] => stringForm value
  | _ => .error (.parse "expected exactly one string" r)

/-- Takes in a field. Sources add up; of the other fields the last one counts. -/
def addField (dir : String) (fields : Fields) : Form → Except ManifestError Fields
  | .seq .list [] r => throw (.parse "empty field" r)
  | .seq .list (key :: values) r => do
    match key.symbol? with
    | some "name" => return { fields with name := some (← singleString values r) }
    | some "version" => return { fields with version := some (← singleString values r) }
    | some "sources" =>
      let sources ← values.mapM stringForm
      return { fields with sources := fields.sources ++ sources.map (Path.join dir) }
    | some "opt-level" =>
      let level ← singleString values r
      match OptLevel.ofText? level with
      | some optLevel => return { fields with optLevel := some optLevel }
      | none => throw (.parse (OptLevel.unknownMessage level) r)
    | _ => throw (.parse ("unknown field `" ++ key.text ++ "`") key.range)
  | f => throw (.parse ("expected a field, got " ++ f.describe) f.range)

/-- The description that the fields make. -/
def ofFields (fields : Fields) : Except ManifestError Manifest := do
  let some name := fields.name | throw (.missingField "name")
  if fields.sources.isEmpty then throw (.missingField "sources")
  return ⟨name, fields.version, fields.sources, fields.optLevel⟩

/-- The description in the text of a file at a path. -/
def parse (source path : String) : Except ManifestError Manifest := do
  let dir := (Path.parent? path).getD "."
  let forms ← (readAll source).mapError .read
  match forms with
  | [.seq .list [] r] => throw (.parse "expected `package`" r)
  | [.seq .list (head :: fields) _] =>
    if head.symbol? = some "package" then ofFields (← fields.foldlM (addField dir) {})
    else throw (.parse ("expected `package`, got " ++ head.text) head.range)
  | [f] => throw (.parse "expected `(package ...)`" f.range)
  | _ =>
    throw (.parse "expected exactly one `(package ...)` form"
      ((forms[1]?.map (·.range)).getD .nowhere))

end Manifest

end TypedLisp
