import TypedLisp.Analysis.Basic
import TypedLisp.Expr

/-!
# Forms that denote expressions

A bare symbol is the innermost local of its name, else the var that the environment gives. A list is
a call unless its head is the name of a special form, whatever locals are in scope. Every binding
makes a new local.
-/

namespace TypedLisp

/-- Where a form stands: the environment, the namespace, and the locals in scope from the innermost
out. -/
structure Scope where
  env : Env
  ns : String
  locals : List Local := []

namespace Scope

/-- The scope inside a binding. -/
def bind (c : Scope) (x : Local) : Scope := { c with locals := x :: c.locals }

/-- The innermost local of a name. -/
def local? (c : Scope) (name : String) : Option Local := c.locals.find? fun x => x.name = name

end Scope

/-- The heads of forms that stand only at top level. -/
def topLevelHeads : List String := ["def", "::", "defdata", "defj", "ns"]

/-- A node that analysis makes. -/
def plainNote (r : Range) : Note Unit := ⟨r, ()⟩

/-- The expression of an atom. -/
def atomExpr (c : Scope) (a : Atom) (r : Range) : Except AnalysisError (Expr Unit) :=
  match a with
  | .bool b => pure (.literal (.bool b) (plainNote r))
  | .int n => pure (.literal (.int n) (plainNote r))
  | .str s => pure (.literal (.str s) (plainNote r))
  | .symbol name =>
    match c.local? name with
    | some x => pure (.localVar x (plainNote r))
    | none =>
      match c.env.resolveVar c.ns name with
      | some v => pure (.globalVar v (plainNote r))
      | none => unresolved (.atom a r)
  | .qualified qualifier name =>
    match c.env.resolveQualifiedVar c.ns qualifier name with
    | some v => pure (.globalVar v (plainNote r))
    | none => unresolved (.atom a r)

/-- The call of an expression; that of a var is a node of its own. -/
def Expr.mkCall (callee : Expr Unit) (args : List (Expr Unit)) (r : Range) : Expr Unit :=
  match callee with
  | .globalVar v _ => .callVar v args (plainNote r)
  | _ => .call callee args (plainNote r)

/-- The parameters of a function as new locals, and the scope inside. -/
def bindParams (c : Scope) : List Form → Analysis (List Local × Scope)
  | [] => return ([], c)
  | p :: ps => do
    let x ← newLocal (← bindingName p)
    let (xs, c) ← bindParams (c.bind x) ps
    return (x :: xs, c)

mutual

/-- The expression that a form denotes. -/
def exprForm (c : Scope) : Form → Analysis (Expr Unit)
  | .atom a r => atomExpr c a r
  | .seq .vector items r => return .collection .vector (← exprForms c items) (plainNote r)
  | .seq .set items r => return .collection .set (← exprForms c items) (plainNote r)
  | .seq .map items r => return .collection .map (← exprForms c items) (plainNote r)
  | .seq .list [] r => malformed "cannot evaluate an empty list" r
  | .seq .list (head :: args) r =>
    match head.symbol? with
    | some "let" => letForm c r args
    | some "if" => ifForm c r args
    | some "fn" => fnForm c r args
    | symbol? =>
      match symbol?.filter topLevelHeads.contains with
      | some name => malformed (name ++ " is only allowed at top level") head.range
      | none => do
        let args ← exprForms c args
        let callee ← exprForm c head
        return Expr.mkCall callee args r

/-- The expressions that some forms denote, from left to right. -/
def exprForms (c : Scope) : List Form → Analysis (List (Expr Unit))
  | [] => return []
  | f :: fs => return (← exprForm c f) :: (← exprForms c fs)

/-- The arguments of `let`: a vector of names and expressions, and a body. -/
def letForm (c : Scope) (r : Range) : List Form → Analysis (Expr Unit)
  | [.seq .vector items vr, body] =>
    if items.length % 2 ≠ 0 then
      malformed "let bindings must pair every name with an expression" vr
    else do
      let (bindings, inner) ← bindingForms c items
      return .letIn bindings (← exprForm inner body) (plainNote r)
  | [bindings, _] =>
    malformed ("let bindings must be a vector, got " ++ bindings.describe) bindings.range
  | _ => malformed "let expects a binding vector and a body" r

/-- Names and expressions in turn, each name in scope in what follows it. -/
def bindingForms (c : Scope) : List Form → Analysis (List (Local × Expr Unit) × Scope)
  | target :: value :: rest => do
    let name ← bindingName target
    let e ← exprForm c value
    let x ← newLocal name
    let (bindings, c) ← bindingForms (c.bind x) rest
    return ((x, e) :: bindings, c)
  | _ => return ([], c)

/-- The arguments of `if`. -/
def ifForm (c : Scope) (r : Range) : List Form → Analysis (Expr Unit)
  | [test, thenBranch, elseBranch] =>
    return .ite (← exprForm c test) (← exprForm c thenBranch) (← exprForm c elseBranch)
      (plainNote r)
  | _ => malformed "if expects a test, a then branch and an else branch" r

/-- The arguments of `fn`: a list or vector of names, and a body. -/
def fnForm (c : Scope) (r : Range) : List Form → Analysis (Expr Unit)
  | [.seq .list params _, body] => do
    let (params, inner) ← bindParams c params
    return .fn params (← exprForm inner body) (plainNote r)
  | [.seq .vector params _, body] => do
    let (params, inner) ← bindParams c params
    return .fn params (← exprForm inner body) (plainNote r)
  | [params, _] => malformed ("fn parameters must be a list, got " ++ params.describe) params.range
  | _ => malformed "fn expects a parameter list and a body" r

end

/-- The function of a list of parameters and a body. -/
def fnParts (c : Scope) (params : List Form) (body : Form) (r : Range) : Analysis (Expr Unit) := do
  let (params, inner) ← bindParams c params
  return .fn params (← exprForm inner body) (plainNote r)

end TypedLisp
