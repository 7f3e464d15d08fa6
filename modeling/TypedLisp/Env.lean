import TypedLisp.Table
import TypedLisp.Var

/-!
# The environment

What is defined at top level: namespaces with the names they take from elsewhere, vars and data
types. An environment is a value; an update gives a new one with the next version number. The
lookups say what a name written in a namespace stands for.
-/

namespace TypedLisp

/-- A namespace declaration: other names for namespaces, names taken from other namespaces, and
names for modules of the host. -/
structure NsDecl where
  ns : String
  aliases : List (String × String) := []
  refers : List (String × GlobalName) := []
  imports : List (String × GlobalName) := []
deriving DecidableEq, Repr

/-- The names that a namespace takes from elsewhere. -/
structure NsTables where
  aliases : Table String String := []
  refers : Table String GlobalName := []
  imports : Table String GlobalName := []
deriving DecidableEq, Repr

/-- The tables of a declaration. -/
def NsTables.ofDecl (d : NsDecl) : NsTables :=
  ⟨Table.ofList d.aliases, Table.ofList d.refers, Table.ofList d.imports⟩

/-- All that is defined at top level. -/
structure Env where
  namespaces : Table String NsTables := [(userNs, {})]
  vars : Table GlobalName Var := []
  dataTypes : Table GlobalName DataType := []
  version : Nat := 0
deriving DecidableEq, Repr

namespace Env

/-! ## Updates -/

/-- Adds an empty namespace unless there is one of that name. -/
def ensureNs (e : Env) (ns : String) : Env :=
  if e.namespaces.contains ns then e else { e with namespaces := e.namespaces.insert ns {} }

/-- Adds or replaces a var. -/
def withVar (e : Env) (v : Var) : Env :=
  { e.ensureNs v.name.ns with vars := e.vars.insert v.name v, version := e.version + 1 }

/-- Adds or replaces a data type together with the vars of its constructors. -/
def withDataType (e : Env) (d : DataType) (constructors : List Var) : Env :=
  { e.ensureNs d.name.ns with
    vars := constructors.foldl (fun vars v => vars.insert v.name v) e.vars
    dataTypes := e.dataTypes.insert d.name d
    version := e.version + 1 }

/-- Creates a namespace, or replaces its tables. -/
def withNs (e : Env) (d : NsDecl) : Env :=
  { e with namespaces := e.namespaces.insert d.ns (.ofDecl d), version := e.version + 1 }

/-! ## Lookup -/

def hasNs (e : Env) (ns : String) : Bool := e.namespaces.contains ns

def tables? (e : Env) (ns : String) : Option NsTables := e.namespaces.get? ns

def var? (e : Env) (g : GlobalName) : Option Var := e.vars.get? g

def dataType? (e : Env) (g : GlobalName) : Option DataType := e.dataTypes.get? g

/-- What a bare symbol written in `ns` stands for in a table of global names: an entry of the
namespace itself, else what the namespace refers to, else an entry of the core namespace. -/
def resolveIn {α : Type} (e : Env) (ns sym : String) (table : Table GlobalName α) : Option α :=
  match table.get? ⟨ns, sym⟩ with
  | some a => some a
  | none =>
    match (e.tables? ns).bind (·.refers.get? sym) with
    | some target => table.get? target
    | none => table.get? ⟨coreNs, sym⟩

def resolveVar (e : Env) (ns sym : String) : Option Var := e.resolveIn ns sym e.vars

def resolveDataType (e : Env) (ns sym : String) : Option DataType := e.resolveIn ns sym e.dataTypes

/-- The namespace that a qualifier written in `ns` means: what it is an alias of, else the namespace
of that name. -/
def resolveQualifier (e : Env) (ns qualifier : String) : Option String :=
  match (e.tables? ns).bind (·.aliases.get? qualifier) with
  | some target => some target
  | none => if e.hasNs qualifier then some qualifier else none

/-- The host module that `ns` imports under a name. -/
def resolveImport (e : Env) (ns sym : String) : Option GlobalName :=
  (e.tables? ns).bind (·.imports.get? sym)

def resolveQualifiedVar (e : Env) (ns qualifier sym : String) : Option Var :=
  (e.resolveQualifier ns qualifier).bind fun target => e.var? ⟨target, sym⟩

def resolveQualifiedDataType (e : Env) (ns qualifier sym : String) : Option DataType :=
  (e.resolveQualifier ns qualifier).bind fun target => e.dataType? ⟨target, sym⟩

end Env

end TypedLisp
