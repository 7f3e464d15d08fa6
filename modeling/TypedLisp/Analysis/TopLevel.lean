import TypedLisp.Analysis.Expression
import TypedLisp.Analysis.NsForm
import TypedLisp.Analysis.TypeForm
import TypedLisp.Ty.Printer

/-!
# Forms at top level

Definitions (`def`), ascriptions (`::`), data types (`defdata`), functions of the host (`defj`) and
namespaces (`ns`); any other form is an expression. `analyse` takes in one such form.
-/

namespace TypedLisp

/-- The arguments of `def`: a name, or a name with parameters, and a body. -/
def defForm (c : Scope) (r : Range) : List Form → Analysis (Expr Unit)
  | [target, body] => do
    let (name, body) ← match target with
      | .atom (.symbol name) _ => pure (name, ← exprForm c body)
      | .seq .list [] tr => malformed "def signature needs a name" tr
      | .seq .list (name :: params) _ =>
        let name ← bindingName name
        pure (name, ← fnParts c params body r)
      | _ => malformed ("expected a name to define, got " ++ target.describe) target.range
    let name : GlobalName := ⟨c.ns, name⟩
    return .define name ((c.env.var? name).bind (·.declared)) body (plainNote r)
  | _ => malformed "def expects a name and a body" r

/-- The arguments of `::`: a name and a type. -/
def ascribeForm (c : Scope) (r : Range) : List Form → Analysis Declaration
  | [name, ty] => do
    let name ← bindingName name
    return .ascribe ⟨c.ns, name⟩ (← analyseType c.env c.ns ty)
  | _ => malformed ":: expects a name and a type" r

/-- The arguments of `defj`: a name, an imported module, a function of it, and a type with as many
parameters as the function has. -/
def hostForm (c : Scope) (r : Range) : List Form → Analysis Declaration
  | [name, module, fn, ty] => do
    let name ← bindingName name
    let moduleName ← bindingName module
    let some path := c.env.resolveImport c.ns moduleName
      | throw ⟨.unknownHostModule moduleName, module.range⟩
    let some hostModule := hostModule? path
      | throw ⟨.unknownHostModule path.text, module.range⟩
    let fnName ← bindingName fn
    let some hostFn := hostModule.function? fnName
      | throw ⟨.unknownHostFn path fnName, fn.range⟩
    let t ← analyseType c.env c.ns ty
    let refuse : Analysis Declaration :=
      malformed (path.text ++ "." ++ fnName ++ " takes " ++ toString hostFn.arity ++
        " arguments, defj needs a Fn type to match, got " ++ t.text) ty.range
    match t with
    | .fn params _ =>
      if params.length = hostFn.arity then
        return .host ⟨c.ns, name⟩ ⟨path, fnName, hostFn.arity⟩ t
      else refuse
    | _ => refuse
  | _ => malformed "defj expects a name, a host module, a function name and a type" r

/-! ## Data types -/

/-- The parameters of a data type as new type variables, each name once. -/
def tyParams (names : TyNames) : List Form → Except AnalysisError (List TyVar × TyNames)
  | [] => return ([], names)
  | f :: fs => do
    let name ← bindingName f
    if !isTyVarName name then
      malformed ("type parameters must be lowercase: " ++ name) f.range
    if (names.named.lookup name).isSome then
      malformed ("duplicate type parameter " ++ name) f.range
    let (vs, rest) ← tyParams ⟨(name, names.next) :: names.named, names.next + 1⟩ fs
    return (names.next :: vs, rest)

/-- A constructor: a name, or a name with the types of its fields. -/
def constructorForm (c : TypeContext) : Form → TypeAnalysis Constructor
  | .atom (.symbol name) _ => return ⟨⟨c.ns, name⟩, none⟩
  | .seq .list [] r => malformed "constructor needs a name" r
  | .seq .list (name :: fields) _ => do
    let fields ← typeForms c fields
    return ⟨⟨c.ns, ← bindingName name⟩, some fields⟩
  | f => malformed ("expected a constructor, got " ++ f.describe) f.range

/-- Constructors, none of which may have the name of an earlier one. -/
def constructorForms (c : TypeContext) (seen : List Constructor) :
    List Form → TypeAnalysis (List Constructor)
  | [] => return seen
  | f :: fs => do
    let k ← constructorForm c f
    if seen.any fun other => other.name = k.name then
      malformed ("duplicate constructor " ++ k.name.text) f.range
    constructorForms c (seen ++ [k]) fs

/-- The name and the parameters of a data type. -/
def dataHeader (names : TyNames) : Form → Except AnalysisError (String × List TyVar × TyNames)
  | .atom (.symbol name) _ => return (name, [], names)
  | .seq .list [] r => malformed "defdata needs a type name" r
  | .seq .list (name :: params) _ => do
    let name ← bindingName name
    return (name, ← tyParams names params)
  | f => malformed ("expected a data type name, got " ++ f.describe) f.range

/-- The arguments of `defdata`: a header and constructors. -/
def dataForm (c : Scope) (r : Range) : List Form → Analysis Declaration
  | [] => malformed "defdata expects a name and constructors" r
  | header :: constructors => do
    let s ← get
    let (name, params, names) ← dataHeader { next := s.tyVar } header
    if isTyVarName name then
      malformed ("data type names must be capitalised: " ++ name) header.range
    if constructors.isEmpty then malformed (name ++ " has no constructors") r
    let context : TypeContext :=
      { env := c.env, ns := c.ns, isOpen := false, declaring := some (name, params.length) }
    let (constructors, names) ← (constructorForms context [] constructors).run names
    set { s with tyVar := names.next }
    return .data ⟨⟨c.ns, name⟩, params, constructors⟩

/-! ## Any form -/

/-- Takes in a form that stands at top level in the namespace `ns`. -/
def analyse (env : Env) (ns : String) (f : Form) : Analysis (Expr Unit) :=
  let c : Scope := { env, ns }
  match f with
  | .seq .list (head :: args) r =>
    match head.symbol? with
    | some "def" => defForm c r args
    | some "::" => return .declare (← ascribeForm c r args) (plainNote r)
    | some "defdata" => return .declare (← dataForm c r args) (plainNote r)
    | some "defj" => return .declare (← hostForm c r args) (plainNote r)
    | some "ns" => return .declare (.ns (← nsForm env args r)) (plainNote r)
    | _ => exprForm c f
  | _ => exprForm c f

end TypedLisp
