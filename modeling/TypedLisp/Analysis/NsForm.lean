import TypedLisp.Analysis.Basic
import TypedLisp.Host

/-!
# Namespace declarations

The form `(ns name options)`, where the options are a map with the keys `aliases` (other names for
namespaces), `refers` (names of vars of other namespaces) and `imports` (modules of the host).
-/

namespace TypedLisp

/-- The entries of an option, which is a map. -/
def mapEntries (what : String) : Form → Except AnalysisError (List (Form × Form))
  | .seq .map items _ => pure (pairs items)
  | f => malformed (what ++ " must be a map, got " ++ f.describe) f.range

/-- The symbol that a form is. -/
def symbolOr (what : String) (f : Form) : Except AnalysisError String :=
  match f.symbol? with
  | some name => pure name
  | none => malformed ("expected " ++ what ++ ", got " ++ f.describe) f.range

/-- The items of a vector. -/
def vectorItems (what : String) : Form → Except AnalysisError (List Form)
  | .seq .vector items _ => pure items
  | f => malformed (what ++ " must be a vector, got " ++ f.describe) f.range

/-- The name of a namespace that there is. -/
def knownNs (env : Env) (f : Form) : Except AnalysisError String := do
  let ns ← symbolOr "a namespace name" f
  if env.hasNs ns then return ns else throw ⟨.unknownNamespace ns, f.range⟩

/-- One alias. It must not be the name of a namespace other than its target. -/
def aliasEntry (env : Env) (entry : Form × Form) : Except AnalysisError (String × String) := do
  let name ← symbolOr "an alias symbol" entry.1
  let target ← knownNs env entry.2
  if name ≠ target ∧ env.hasNs name then throw ⟨.ambiguousAlias name target, entry.1.range⟩
  return (name, target)

/-- Adds one referred name, which must be that of a var and not referred from elsewhere. -/
def addRefer (env : Env) (source : String) (refers : List (String × GlobalName)) (f : Form) :
    Except AnalysisError (List (String × GlobalName)) := do
  let name ← symbolOr "a symbol to refer" f
  let target : GlobalName := ⟨source, name⟩
  if (env.var? target).isNone then throw ⟨.unresolved target.text, f.range⟩
  match refers.lookup name with
  | none => return refers ++ [(name, target)]
  | some first =>
    if first.ns = source then return refers
    else throw ⟨.ambiguousRefer name first.ns source, f.range⟩

/-- Adds the names referred from one namespace. -/
def addRefers (env : Env) (refers : List (String × GlobalName)) (entry : Form × Form) :
    Except AnalysisError (List (String × GlobalName)) := do
  let source ← knownNs env entry.1
  let names ← vectorItems ("refers for " ++ source) entry.2
  names.foldlM (addRefer env source) refers

/-- Adds one imported module, which must be one of the host's and have a name of its own. -/
def addImport (package : String) (imports : List (String × GlobalName)) (f : Form) :
    Except AnalysisError (List (String × GlobalName)) := do
  let name ← symbolOr "a host module name" f
  let target : GlobalName := ⟨package, name⟩
  if (hostModule? target).isNone then throw ⟨.unknownHostModule target.text, f.range⟩
  if (imports.lookup name).isSome then malformed ("duplicate import " ++ name) f.range
  return imports ++ [(name, target)]

/-- Adds the modules imported from one package. -/
def addImports (imports : List (String × GlobalName)) (entry : Form × Form) :
    Except AnalysisError (List (String × GlobalName)) := do
  let package ← symbolOr "a package name" entry.1
  let modules ← vectorItems ("imports for " ++ package) entry.2
  modules.foldlM (addImport package) imports

/-- Takes in one option. A repeated option counts as it was given last. -/
def nsOption (env : Env) (d : NsDecl) (entry : Form × Form) : Except AnalysisError NsDecl := do
  match entry.1.symbol? with
  | some "aliases" =>
    return { d with aliases := ← (← mapEntries "aliases" entry.2).mapM (aliasEntry env) }
  | some "refers" =>
    return { d with refers := ← (← mapEntries "refers" entry.2).foldlM (addRefers env) [] }
  | some "imports" =>
    return { d with imports := ← (← mapEntries "imports" entry.2).foldlM addImports [] }
  | _ => malformed ("unknown ns option: " ++ entry.1.text) entry.1.range

/-- The declaration that the arguments of an `ns` form make. -/
def nsForm (env : Env) (args : List Form) (r : Range) : Except AnalysisError NsDecl := do
  match args with
  | [name] => return { ns := ← symbolOr "a namespace name" name }
  | [name, options] =>
    let d : NsDecl := { ns := ← symbolOr "a namespace name" name }
    match options with
    | .seq .map items _ => (pairs items).foldlM (nsOption env) d
    | _ => malformed ("expected an options map, got " ++ options.describe) options.range
  | _ => malformed "ns expects a name and an optional options map" r

end TypedLisp
