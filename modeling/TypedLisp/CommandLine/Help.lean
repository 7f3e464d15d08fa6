/-!
# Help on the command line

A page of help says what a thing is for and how it is written, and then lists its parts under
headings, in two columns. There is a page on the program and one on each command.
-/

namespace TypedLisp

/-- What a page of help is about. -/
inductive HelpTopic where
  | program
  | read
  | check
  | run
  | help
deriving DecidableEq, Repr

/-- A page of help. Each section has a heading and rows of a label and what it means. -/
structure HelpPage where
  about : String
  usage : String
  sections : List (String × List (String × String))
deriving DecidableEq, Repr

namespace HelpPage

/-- The rows of a section, with the labels filled up to the longest one. -/
def rowLines (rows : List (String × String)) : List String :=
  let width := (rows.map (·.1.length)).foldl max 0
  rows.map fun (label, meaning) =>
    "  " ++ label ++ String.ofList (List.replicate (width - label.length) ' ') ++ "  " ++ meaning

/-- The lines of a page. -/
def lines (page : HelpPage) : List String :=
  [page.about, "", "Usage: " ++ page.usage] ++
    page.sections.flatMap fun (heading, rows) => ["", heading ++ ":"] ++ rowLines rows

end HelpPage

namespace HelpTopic

/-- The topic that a word after `help` names. -/
def ofName? : String → Option HelpTopic
  | "read" => some .read
  | "check" => some .check
  | "run" => some .run
  | "help" => some .help
  | _ => none

/-- What a topic is for, in one line. -/
def about : HelpTopic → String
  | .program => "The Bridje programming language"
  | .read => "Read a .brj file and print its forms"
  | .check => "Resolve and type-check without running"
  | .run => "Compile and run via the Cranelift JIT"
  | .help => "Print this message or the help of the given subcommand(s)"

/-- The option for more messages. -/
def verboseRow : String × String :=
  ("-v, --verbose...", "More log output on stderr (-v debug, -vv trace)")

/-- The option for help. -/
def helpRow : String × String := ("-h, --help", "Print help")

/-- The file of a command that can do without. -/
def fileRow : String × String := ("[FILE]", "Path to the .brj source file (omit to use brj.pkg)")

/-- The page on a topic. -/
def page (topic : HelpTopic) : HelpPage where
  about := topic.about
  usage :=
    match topic with
    | .program => "brj [OPTIONS] <COMMAND>"
    | .read => "brj read [OPTIONS] <FILE>"
    | .check => "brj check [OPTIONS] [FILE]"
    | .run => "brj run [OPTIONS] [FILE]"
    | .help => "brj help [COMMAND]..."
  sections :=
    match topic with
    | .program => [
      ("Commands", [("read", about .read), ("check", about .check), ("run", about .run),
        ("help", about .help)]),
      ("Options", [verboseRow, helpRow])]
    | .read => [
      ("Arguments", [("<FILE>", "Path to the .brj source file")]),
      ("Options", [verboseRow, helpRow])]
    | .check => [
      ("Arguments", [fileRow]),
      ("Options", [verboseRow, helpRow])]
    | .run => [
      ("Arguments", [fileRow]),
      ("Options", [
        ("    --opt-level <OPT_LEVEL>",
          "Cranelift optimisation level: none, speed or speed_and_size"),
        verboseRow,
        ("    --no-verify", "Skip the Cranelift IR verifier"),
        ("    --echo", "Print the outcome of every form, not only expression values"),
        helpRow])]
    | .help => [("Arguments", [("[COMMAND]...", "Print help for the subcommand(s)")])]

end HelpTopic

end TypedLisp
