import TypedLisp.Analysis.TopLevel
import TypedLisp.Machine.Eval
import TypedLisp.Outcome

/-!
# Sessions

A session takes in one form after another: it analyses the form, infers its type, and runs it. A
definition puts its object into a cell. It takes over the cell of an earlier definition of the same
name if the visible type is still the same up to the names of variables, so that code made before
finds the new object; otherwise it has a cell of its own, and code made before keeps the old one.
A form that fails leaves the environment and the cells as they were.
-/

namespace TypedLisp

/-- The state of a session. -/
structure Session where
  env : Env := {}
  ns : String := userNs
  supply : Supply := {}
  machine : Machine := .empty
  /-- The number of units of code made so far. -/
  units : Nat := 0
  /-- How many calls may be nested in one another. -/
  callLimit : Nat

/-- How many calls may be nested in one another unless less is asked for. -/
def defaultCallLimit : Nat := 6000

/-- How many calls may be nested if they have so many bytes of stack, at 128 bytes for a call. -/
def callLimitWithin (bytes : Nat) : Nat := min defaultCallLimit (bytes / 128)

/-- A closure in a unit of code. -/
structure UnitClosure where
  unit : Nat
  /-- The place of the closure among the functions of the unit, of which the first is the entry. -/
  index : Nat
  info : ClosureInfo

/-- The name `unit<U>_f<N>` of a closure. -/
def UnitClosure.name (c : UnitClosure) : String :=
  "unit" ++ toString c.unit ++ "_f" ++ toString c.index

/-- What a form did, and the closures of its code. -/
structure Ran where
  outcome : Outcome
  closures : List UnitClosure := []

namespace Session

/-- An action of a session, which may fail. What it changed before it failed stays changed. -/
abbrev Action (ε : Type) := ExceptT ε (StateM Session)

/-- An action on the machine. -/
def onMachine {ε α : Type} (act : Run α) : Action ε α :=
  modifyGet fun s =>
    let (a, machine) := act s.machine
    (a, { s with machine })

/-! ## The core namespace -/

/-- Defines a built-in function. -/
def defineBuiltin (s : Session) (b : Builtin) : Session :=
  let name : GlobalName := ⟨coreNs, b.name⟩
  let bindBuiltin : Run Cell := do
    let cell ← Machine.newCell name.text
    Machine.store cell (← Machine.allocPinned (.fn ⟨b.name, b.arity, .builtin b, []⟩))
    return cell
  let (cell, machine) := bindBuiltin s.machine
  { s with
    env := s.env.withVar
      { name, cell, kind := .builtin b.arity, inferred := some (b.ty s.supply.tyVar) }
    supply := { s.supply with tyVar := s.supply.tyVar + 1 }
    machine }

/-- A new session: the built-in functions are defined, and the namespace `user` is empty. -/
def start (callLimit : Nat) : Session := Builtin.all.foldl defineBuiltin { callLimit }

/-! ## Analysis and inference -/

/-- Analyses a form in the current namespace. -/
def analyse (f : Form) : Action AnalysisError (Expr Unit) := fun s =>
  match (TypedLisp.analyse s.env s.ns f).run s.supply with
  | .ok (e, supply) => (.ok e, { s with supply })
  | .error e => (.error e, s)

/-- Infers the type of an expression. -/
def infer (e : Expr Unit) : Action TypeError (Expr Ty) := fun s =>
  match (TypedLisp.infer e).run s.supply.tyVar with
  | .ok (e, tyVar) => (.ok e, { s with supply := { s.supply with tyVar } })
  | .error e => (.error e, s)

/-! ## Running typed forms -/

/-- Makes a unit of code: a function of the parameters, and its closures. The cells that it reads
are tracked from then on. -/
def compileEntry (params : List Local) (body : Expr Ty) :
    Action RunError (Code × List UnitClosure) := do
  modify fun s => { s with units := s.units + 1 }
  let unit := (← get).units
  match body.lower params with
  | .ok code =>
    onMachine (Machine.track code.cells)
    let closures := code.closures.zipIdx 2 |>.map fun (info, index) => ⟨unit, index, info⟩
    return (code, closures)
  | .error e => throw (.lower e)

/-- Runs an expression on its own, and gives its object. -/
def runThunk (e : Expr Ty) : Action RunError (Addr × List UnitClosure) := do
  let (code, closures) ← compileEntry [] e
  let limit := (← get).callLimit
  let (a, fault) ← onMachine do
    let _ ← Machine.takeFault
    let a ← code.eval (call limit) []
    return (a, ← Machine.takeFault)
  match fault with
  | some f => throw (.fault f)
  | none => return (a, closures)

/-- The cell of a definition: that of the var of the same name if its visible type is the same, else
a new one. -/
def linkCell (name : GlobalName) (ty : Ty) : Action RunError Cell := do
  match (← get).env.var? name with
  | some v =>
    if (v.visible.map (·.alphaEquivalent ty)).getD false then return v.cell
    else onMachine (Machine.newCell name.text)
  | none => onMachine (Machine.newCell name.text)

/-- Puts an object into the cell of a definition, which is tracked from then on. -/
def bindObject (name : GlobalName) (ty : Ty) (a : Addr) : Action RunError Cell := do
  let cell ← linkCell name ty
  onMachine do
    Machine.store cell a
    Machine.track [cell]
  return cell

/-- Runs a definition. -/
def runDefine (name : GlobalName) (declared : Option Ty) (body : Expr Ty) :
    Action RunError Ran := do
  let ty := declared.getD body.ann
  let (a, kind, closures) ← match body with
    | .fn params fnBody _ => do
      let (code, closures) ← compileEntry params fnBody
      let a ← onMachine (Machine.alloc (.fn ⟨name.text, params.length, .code params [] code, []⟩))
      pure (a, VarKind.fn params.length, closures)
    | _ => do
      let (a, closures) ← runThunk body
      pure (a, VarKind.value, closures)
  let cell ← bindObject name ty a
  modify fun s =>
    { s with env := s.env.withVar { name, kind, cell, declared, inferred := some body.ann } }
  return ⟨.defined name ty, closures⟩

/-- The var of an ascription: the var of the same name if its visible type is the same, else a new
one with an empty cell. -/
def declareVar (name : GlobalName) (ty : Ty) : Action RunError Var := do
  let newVar : Action RunError Var := do
    let cell ← onMachine (Machine.newCell name.text)
    return { name, cell, kind := .declared, declared := some ty }
  match (← get).env.var? name with
  | some v =>
    if (v.visible.map (·.alphaEquivalent ty)).getD false then return { v with declared := some ty }
    else newVar
  | none => newVar

/-- The object of a constructor: a variant if it has no fields, else a function. -/
def constructorObject (d : DataType) (c : Constructor) (tag : Nat) : Object :=
  let layout : Layout := ⟨d.name.text, c.name.name, tag, c.arity⟩
  if 0 < c.arity then .fn ⟨c.name.name, c.arity, .construct layout, []⟩ else .variant layout []

/-- The var of a constructor. -/
def constructorVar (d : DataType) (c : Constructor) (tag : Nat) : Action RunError Var := do
  let a ← onMachine (Machine.alloc (constructorObject d c tag))
  let ty := d.constructorTy c
  let cell ← bindObject c.name ty a
  return { name := c.name, cell, kind := .constructor d.name c.arity, inferred := some ty }

/-- Runs a declaration. -/
def runDeclare : Declaration → Action RunError Ran
  | .ns d => do
    modify fun s => { s with env := s.env.withNs d, ns := d.ns }
    return ⟨.ns d.ns, []⟩
  | .ascribe name ty => do
    let v ← declareVar name ty
    modify fun s => { s with env := s.env.withVar v }
    return ⟨.declared name ty, []⟩
  | .data d => do
    if d.constructors.any (0 < ·.arity) then modify fun s => { s with units := s.units + 1 }
    let vars ← d.constructors.zipIdx.mapM fun (c, tag) => constructorVar d c tag
    modify fun s => { s with env := s.env.withDataType d vars }
    return ⟨.dataType d.name (d.constructors.map (·.name)), []⟩
  | .host name ref ty => do
    let some module := hostModule? ref.module | throw (.noHostModule ref.module)
    let some fn := (module.function? ref.fn).filter (·.arity = ref.arity) | throw (.noHostFn ref)
    let a ← onMachine (Machine.alloc (.fn ⟨name.text, ref.arity, .host fn, []⟩))
    let cell ← bindObject name ty a
    modify fun s =>
      { s with env := s.env.withVar { name, cell, kind := .host ref.arity, declared := some ty } }
    return ⟨.defined name ty, []⟩

/-- Runs a typed form. -/
def runForm : Expr Ty → Action RunError Ran
  | .define name declared body _ => runDefine name declared body
  | .declare d _ => runDeclare d
  | e => do
    let (a, closures) ← runThunk e
    match (← get).machine.heap.decode a with
    | .ok v => return ⟨.value v e.ann, closures⟩
    | .error f => throw (.fault f)

/-- Does an action and afterwards, whether it failed or not, collects garbage if that is due. -/
def thenCollect {α : Type} (act : Action RunError α) : Action RunError α := fun s =>
  let (result, s) := act s
  (result, { s with machine := (Machine.collectIfDue s.machine).2 })

/-- Runs a typed form, and collects garbage if that is due. -/
def run (e : Expr Ty) : Action RunError Ran := thenCollect (runForm e)

/-- An action with its errors as errors of evaluation. -/
def lift {ε α : Type} (f : ε → EvalError) (act : Action ε α) : Action EvalError α := fun s =>
  let (result, s) := act s
  (result.mapError f, s)

/-- Evaluates a form. -/
def eval (f : Form) : Action EvalError Outcome := do
  let e ← lift .analysis (analyse f)
  let typed ← lift .type (infer e)
  return (← lift .run (run typed)).outcome

/-- Evaluates the forms of a source text in order, up to the first that fails. -/
def evalSource (source : String) : Action EvalError (List Outcome) := do
  match readAll source with
  | .ok forms => forms.mapM eval
  | .error e => throw (.read e)

/-! ## Calls from outside -/

/-- Puts arguments on the heap. -/
def encodeArgs (args : List Value) : Run (Except Fault (List Addr)) := fun m =>
  let (result, heap) := Heap.encodeAll args m.heap
  (result, { m with heap })

/-- Calls the function of a var. -/
def callVar (v : Var) (args : List Value) : Action RunError Value := do
  let some f := (← get).machine.cell? v.cell | throw (.fault (.unboundVar v.cell.name))
  let args ← match ← onMachine (encodeArgs args) with
    | .ok args => pure args
    | .error e => throw (.fault e)
  let limit := (← get).callLimit
  let entered ← onMachine do
    let _ ← Machine.takeFault
    Machine.enter limit f args.length
  let some fn := entered
    | throw (.fault ((← onMachine Machine.takeFault).getD .escaped))
  if maxInvokeArgs < args.length then throw (.tooManyArgs args.length)
  let (a, fault) ← onMachine do
    let a ← fn.run (call (limit - 1)) args
    return (a, ← Machine.takeFault)
  match fault with
  | some e => throw (.fault e)
  | none =>
    match (← get).machine.heap.decode a with
    | .ok v => return v
    | .error e => throw (.fault e)

/-- Calls the function of a var, and collects garbage if that is due. -/
def invokeVar (v : Var) (args : List Value) : Action RunError Value := thenCollect (callVar v args)

/-- The var that a symbol names from outside, in the current namespace. A qualifier that names no
namespace counts as the name of one. -/
def resolve (s : Session) (sym : String) : Except EvalError Var :=
  match Atom.ofSymbol sym with
  | .qualified qualifier name =>
    let g : GlobalName := ⟨(s.env.resolveQualifier s.ns qualifier).getD qualifier, name⟩
    match s.env.var? g with
    | some v => .ok v
    | none => .error (.unknownVar g.text)
  | _ =>
    match s.env.resolveVar s.ns sym with
    | some v => .ok v
    | none => .error (.unknownVar sym)

/-- Calls the function that a symbol names. -/
def invoke (sym : String) (args : List Value) : Action EvalError Value := do
  match (← get).resolve sym with
  | .ok v => lift .run (invokeVar v args)
  | .error e => throw e

end Session

end TypedLisp
