import TypedLisp.Session

/-!
# Checking without running

The checker takes in forms as a session does, but runs nothing: definitions extend the environment
with vars whose cells stay empty. It gives a line of summary for each form.
-/

namespace TypedLisp

/-- The state of a check. -/
structure Checker where
  env : Env
  ns : String
  supply : Supply
  /-- The number of the next new cell. -/
  nextCell : Nat

namespace Checker

/-- A check that has seen nothing yet. -/
def start : Checker :=
  let s := Session.start 0
  ⟨s.env, s.ns, s.supply, s.machine.cells.size⟩

/-- A var with a new cell. -/
def newVar (c : Checker) (name : GlobalName) (kind : VarKind) (declared inferred : Option Ty) :
    Var × Checker :=
  ({ name, kind, declared, inferred, cell := ⟨c.nextCell, name.text⟩ },
    { c with nextCell := c.nextCell + 1 })

/-- The vars of constructors, with new cells. -/
def constructorVars (c : Checker) (d : DataType) : List Constructor → List Var × Checker
  | [] => ([], c)
  | k :: ks =>
    let (v, c) := c.newVar k.name (.constructor d.name k.arity) none (some (d.constructorTy k))
    let (vs, c) := c.constructorVars d ks
    (v :: vs, c)

/-- The kind of var that a definition makes. -/
def defineKind : Expr Ty → VarKind
  | .fn params _ _ => .fn params.length
  | _ => .value

/-- The var of a definition, with the cell of an earlier var of the same name. -/
def defineVar (c : Checker) (name : GlobalName) (kind : VarKind) (declared : Option Ty)
    (inferred : Ty) : Var × Checker :=
  match c.env.var? name with
  | some old => ({ name, kind, cell := old.cell, declared, inferred := some inferred }, c)
  | none => c.newVar name kind declared (some inferred)

/-- Takes in a typed form: the state after it, and its summary. -/
def declare (c : Checker) (f : Form) : Expr Ty → Checker × String
  | .define name declared body _ =>
    let (v, c) := c.defineVar name (defineKind body) declared body.ann
    ({ c with env := c.env.withVar v }, (Outcome.defined name (declared.getD body.ann)).text)
  | .declare (.ascribe name ty) _ =>
    let (v, c) := c.newVar name .declared (some ty) none
    ({ c with env := c.env.withVar v }, (Outcome.declared name ty).text)
  | .declare (.data d) _ =>
    let (vs, c) := c.constructorVars d d.constructors
    ({ c with env := c.env.withDataType d vs },
      (Outcome.dataType d.name (d.constructors.map (·.name))).text)
  | .declare (.host name ref ty) _ =>
    let (v, c) := c.newVar name (.host ref.arity) (some ty) none
    ({ c with env := c.env.withVar v }, (Outcome.defined name ty).text)
  | .declare (.ns d) _ => ({ c with env := c.env.withNs d, ns := d.ns }, (Outcome.ns d.ns).text)
  | e => (c, f.text ++ " : " ++ e.ann.text)

/-- Checks a form, and gives its summary. -/
def check (f : Form) : ExceptT EvalError (StateM Checker) String := fun c =>
  match (analyse c.env c.ns f).run c.supply with
  | .error e => (.error (.analysis e), c)
  | .ok (e, supply) =>
    match (infer e).run supply.tyVar with
    | .error e => (.error (.type e), { c with supply })
    | .ok (typed, tyVar) =>
      let (c, line) := { c with supply := { supply with tyVar } }.declare f typed
      (.ok line, c)

/-- Checks the forms of a source text in order, up to the first that fails. -/
def checkSource (source : String) : ExceptT EvalError (StateM Checker) (List String) := do
  match readAll source with
  | .ok forms => forms.mapM check
  | .error e => throw (.read e)

end Checker

end TypedLisp
