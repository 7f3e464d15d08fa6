import TypedLisp.Checker
import TypedLisp.CommandLine.Help
import TypedLisp.Package.Manifest

/-!
# The command line

`read FILE` prints the forms of a file, `check [FILE]` checks it, `run [FILE]` runs it. Without a
file, `check` and `run` take the sources of the package in the current directory. `help [COMMAND]`
and the option `--help` print help. How files are read is a parameter, so that the command runs in
any monad.
-/

namespace TypedLisp

/-- A command with its options. -/
inductive Command where
  | read (file : String)
  | check (file : Option String)
  | run (file : Option String) (optLevel : Option OptLevel) (noVerify echo : Bool)
  | help (topic : HelpTopic)
deriving DecidableEq, Repr

/-- The words of a command seen so far: options and files. -/
structure Words where
  files : List String := []
  optLevel : Option OptLevel := none
  noVerify : Bool := false
  echo : Bool := false
  help : Bool := false

/-- The file among the words, if there is one. More than one file is an error, and so is one without
a name. -/
def Words.file? (w : Words) : Option (Option String) :=
  match w.files with
  | [] => some none
  | [file] => if file = "" then none else some (some file)
  | _ => none

namespace Command

/-- Whether a word asks for more messages; that can be done anywhere. -/
def isVerbose (word : String) : Bool :=
  word = "--verbose" ||
    match word.toList with
    | '-' :: 'v' :: vs => vs.all (· = 'v')
    | _ => false

/-- Whether a word asks for help, alone or after letters that ask for more messages. -/
def asksHelp (word : String) : Bool :=
  word = "--help" ||
    match word.toList with
    | '-' :: cs => (cs.dropWhile (· = 'v')).head? = some 'h'
    | _ => false

/-- Whether a word looks like an option. -/
def isOption (word : String) : Bool :=
  match word.toList with
  | '-' :: _ :: _ => true
  | _ => false

/-- The value in a word `--opt-level=value`. -/
def optLevelValue? (word : String) : Option String :=
  let flag := "--opt-level=".toList
  if flag.isPrefixOf word.toList then some (String.ofList (word.toList.drop flag.length)) else none

/-- The options and files of a list of words, if all are known and none is given twice. A word that
asks for help is the last one that counts. -/
def words (options : Bool) (w : Words) : List String → Option Words
  | [] => some w
  | "--" :: rest => some { w with files := w.files ++ rest }
  | "--opt-level" :: value :: rest =>
    if !options || w.optLevel.isSome then none
    else (OptLevel.ofText? value).bind fun l => words options { w with optLevel := some l } rest
  | word :: rest =>
    if isVerbose word then words options w rest
    else if asksHelp word then w.file?.map fun _ => { w with help := true }
    else if options && word = "--no-verify" && !w.noVerify then
      words options { w with noVerify := true } rest
    else if options && word = "--echo" && !w.echo then words options { w with echo := true } rest
    else if options && (optLevelValue? word).isSome && w.optLevel.isNone then
      ((optLevelValue? word).bind OptLevel.ofText?).bind fun l =>
        words options { w with optLevel := some l } rest
    else if isOption word then none
    else words options { w with files := w.files ++ [word] } rest

/-- The command that some words spell. -/
def parse? : List String → Option Command
  | [] => none
  | "read" :: rest => do
    let w ← words false {} rest
    if w.help then return .help .read
    return .read (← (← w.file?))
  | "check" :: rest => do
    let w ← words false {} rest
    if w.help then return .help .check
    return .check (← w.file?)
  | "run" :: rest => do
    let w ← words true {} rest
    if w.help then return .help .run
    return .run (← w.file?) w.optLevel w.noVerify w.echo
  | ["help"] => some (.help .program)
  | ["help", name] => (HelpTopic.ofName? name).map .help
  | word :: rest =>
    if isVerbose word then parse? rest
    else if asksHelp word then some (.help .program)
    else none

end Command

/-! ## Running a command -/

/-- What a command prints, and its exit code. -/
structure Output where
  code : Nat := 0
  stdout : String := ""
  stderr : String := ""
deriving DecidableEq, Repr

/-- Why a command failed. -/
inductive CommandError where
  | unreadable (path : String) (cause : FileError)
  | manifest (e : ManifestError)
  | eval (path : String) (e : EvalError)

def CommandError.message : CommandError → String
  | .unreadable path cause => "could not read " ++ path ++ ": " ++ cause.message
  | .manifest e => e.message
  | .eval path e => path ++ ": " ++ e.message

/-- A command at work: what it printed so far stays when it fails. -/
abbrev CommandM (m : Type → Type) := ExceptT CommandError (StateT String m)

namespace Command

variable {m : Type → Type} [Monad m] (files : Files m)

/-- Prints lines. -/
def printLines (lines : List String) : CommandM m Unit :=
  modify fun out => out ++ String.join (lines.map (· ++ "\n"))

/-- The text of a file. -/
def readFile (path : String) : CommandM m String := do
  match ← files.read path with
  | .ok text => return text
  | .error cause => throw (.unreadable path cause)

/-- The description of the package in a directory. -/
def loadManifest (dir : String) : CommandM m Manifest := do
  let path := Path.join dir manifestName
  if !(← files.isFile path) then throw (.manifest (.absent dir))
  match ← files.read path with
  | .error cause => throw (.manifest (.unreadable path cause))
  | .ok text =>
    match Manifest.parse text path with
    | .ok manifest => return manifest
    | .error e => throw (.manifest e)

/-- The files that a command is about: the one given, else the sources of the package. -/
def sources : Option String → CommandM m (List String)
  | some file => return [file]
  | none => return (← loadManifest files ".").sources

/-- Checks files one after the other. -/
def checkFiles (c : Checker) : List String → CommandM m Unit
  | [] => return ()
  | path :: paths => do
    let (result, c) := (Checker.checkSource (← readFile files path)).run c
    match result with
    | .ok lines =>
      printLines lines
      checkFiles c paths
    | .error e => throw (.eval path e)

/-- Whether the outcome is a value. -/
def isValue : Outcome → Bool
  | .value _ _ => true
  | _ => false

/-- Runs files one after the other, and prints values; with `echo` everything that was done. -/
def runFiles (echo : Bool) (s : Session) : List String → CommandM m Unit
  | [] => return ()
  | path :: paths => do
    let (result, s) := (Session.evalSource (← readFile files path)).run s
    match result with
    | .ok outcomes =>
      printLines ((outcomes.filter fun o => echo || isValue o).map (·.text))
      runFiles echo s paths
    | .error e => throw (.eval path e)

/-- Does what a command says. -/
def execute : Command → CommandM m Unit
  | .read file => do
    match readAll (← readFile files file) with
    | .ok forms => printLines (forms.map (·.text))
    | .error e => throw (.eval file (.read e))
  | .check file => do
    checkFiles files .start (← sources files file)
    printLines ["OK"]
  | .run file _ _ echo => do
    runFiles files echo (.start defaultCallLimit) (← sources files file)
  | .help topic => printLines topic.page.lines

/-- Does what the words of a command line say. -/
def main (args : List String) : m Output := do
  match parse? args with
  | none => return { code := 2, stderr := "error: unknown command line\n" }
  | some c =>
    match ← (execute files c).run.run "" with
    | (.ok (), stdout) => return { stdout }
    | (.error e, stdout) => return { code := 1, stdout, stderr := "error: " ++ e.message ++ "\n" }

end Command

end TypedLisp
