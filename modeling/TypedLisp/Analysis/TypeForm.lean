import TypedLisp.Analysis.Basic

/-!
# Forms that denote types

A type form is built from `Int`, `Str`, `Bool`, type variables (symbols that begin with a lower-case
letter), brackets for collections, `Fn` for functions, and names of data types with their arguments.
-/

namespace TypedLisp

/-- Whether a symbol is a type variable where a type is expected. -/
def isTyVarName (name : String) : Bool :=
  match name.toList with
  | [] => false
  | c :: _ => c.isLower

/-- Where a type form stands. In an open context a type variable may be new; while a data type is
being declared, its own name is known. -/
structure TypeContext where
  env : Env
  ns : String
  isOpen : Bool := true
  declaring : Option (String × Nat) := none

/-- The type variables that have a name, and the next new one. -/
structure TyNames where
  named : List (String × TyVar) := []
  next : TyVar

/-- Analysis of type forms. -/
abbrev TypeAnalysis := StateT TyNames (Except AnalysisError)

/-- The type variable of a name. -/
def tyVarOf (c : TypeContext) (name : String) (r : Range) : TypeAnalysis Ty := do
  let s ← get
  match s.named.lookup name with
  | some v => return .var v
  | none =>
    if c.isOpen then
      set { s with named := (name, s.next) :: s.named, next := s.next + 1 }
      return .var s.next
    else malformed ("unknown type variable: " ++ name) r

/-- The type and the number of parameters of the data type that an atom names, if it names one. -/
def TypeContext.dataType? (c : TypeContext) : Atom → Option (Ty × Nat)
  | .symbol name =>
    match c.declaring with
    | some (own, arity) =>
      if own = name then some (.data (GlobalName.text ⟨c.ns, name⟩), arity)
      else (c.env.resolveDataType c.ns name).map fun d => (.data d.name.text, d.params.length)
    | none => (c.env.resolveDataType c.ns name).map fun d => (.data d.name.text, d.params.length)
  | .qualified qualifier name =>
    (c.env.resolveQualifiedDataType c.ns qualifier name).map fun d =>
      (.data d.name.text, d.params.length)
  | _ => none

/-- The type of a data type's name on its own. -/
def bareDataType (c : TypeContext) (a : Atom) (r : Range) : TypeAnalysis Ty :=
  match c.dataType? a with
  | none => unresolved (.atom a r)
  | some (base, 0) => pure base
  | some (_, n) => malformed (a.text ++ " expects " ++ toString n ++ " type arguments") r

/-- The type and the number of parameters of the data type that a form names. -/
def headDataType (c : TypeContext) (head : Form) : TypeAnalysis (Ty × Nat) :=
  let refuse : TypeAnalysis (Ty × Nat) :=
    malformed ("expected a data type name, got " ++ head.describe) head.range
  match head with
  | .atom (.symbol name) _ =>
    if isTyVarName name then refuse
    else match c.dataType? (.symbol name) with
      | some found => pure found
      | none => unresolved head
  | .atom (.qualified qualifier name) _ =>
    match c.dataType? (.qualified qualifier name) with
    | some found => pure found
    | none => unresolved head
  | _ => refuse

mutual

/-- The type that a form denotes. -/
def typeForm (c : TypeContext) : Form → TypeAnalysis Ty
  | .atom (.symbol name) r =>
    if name = "Int" then pure .int
    else if name = "Str" then pure .str
    else if name = "Bool" then pure .bool
    else if isTyVarName name then tyVarOf c name r
    else bareDataType c (.symbol name) r
  | .atom (.qualified qualifier name) r => bareDataType c (.qualified qualifier name) r
  | .atom a r => malformed ("expected a type, got " ++ a.describe) r
  | .seq .vector [e] _ => return .vector (← typeForm c e)
  | .seq .vector _ r => malformed "vector type takes exactly one element type" r
  | .seq .set [e] _ => return .set (← typeForm c e)
  | .seq .set _ r => malformed "set type takes exactly one element type" r
  | .seq .map [k, v] _ => return .map (← typeForm c k) (← typeForm c v)
  | .seq .map _ r => malformed "map type takes one key and one value type" r
  | .seq .list [] r => malformed "expected a type, got ()" r
  | .seq .list (head :: args) r =>
    if head.symbol? = some "Fn" then do
      match (← typeForms c args).reverse with
      | [] => malformed "Fn type needs a return type" r
      | result :: params => return .fn params.reverse result
    else do
      let (base, arity) ← headDataType c head
      if args.length = arity then return .applied base (← typeForms c args)
      else malformed (head.text ++ " expects " ++ toString arity ++ " type arguments, got " ++
        toString args.length) r

/-- The types that some forms denote. -/
def typeForms (c : TypeContext) : List Form → TypeAnalysis (List Ty)
  | [] => return []
  | f :: fs => return (← typeForm c f) :: (← typeForms c fs)

end

/-- The type that a form denotes on its own, its type variables new. -/
def analyseType (env : Env) (ns : String) (f : Form) : Analysis Ty := do
  let s ← get
  let (t, names) ← (typeForm { env, ns } f).run { next := s.tyVar }
  set { s with tyVar := names.next }
  return t

end TypedLisp
