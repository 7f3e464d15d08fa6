/-!
# Names

Symbols are plain strings. What is defined at top level has a global name, a symbol in a namespace;
a local has a number of its own, so that two locals of one name stay apart.
-/

namespace TypedLisp

/-- A name within a namespace. -/
structure GlobalName where
  ns : String
  name : String
deriving DecidableEq, Repr

/-- The written form `ns/name`. -/
def GlobalName.text (g : GlobalName) : String := g.ns ++ "/" ++ g.name

/-- The namespace of what the language provides. -/
def coreNs : String := "brj.core"

/-- The namespace in which a session starts. -/
def userNs : String := "user"

/-- A local: a parameter or a name bound by `let`. Its number is unlike that of any other. -/
structure Local where
  name : String
  id : Nat
deriving DecidableEq, Repr

/-- The written form `name#id`. -/
def Local.text (x : Local) : String := x.name ++ "#" ++ toString x.id

/-- The locals of a list by ascending number, each once. -/
def sortLocals (xs : List Local) : List Local :=
  xs.eraseDups.mergeSort fun x y => x.id ≤ y.id

end TypedLisp
