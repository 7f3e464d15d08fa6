import TypedLisp.Proofs.Session.Reachable

/-!
# Evaluation in environments

Typed expressions can be evaluated as they are, without code. A function literal becomes a closure:
its parameters, its body, and all of the environment at the literal (`Keep.whole`) or only the
locals that the function closes over (`Keep.captured`). Evaluation is stuck at a local that the
environment lacks. The heap has a function without a body for each closure, and a table says what
the closure is made of.
-/

namespace TypedLisp

/-- Why an evaluation in environments ends early. -/
inductive EnvError where
  /-- A local that the environment lacks. -/
  | unbound (x : Local)
  /-- A definition or a declaration inside an expression. -/
  | misplaced
  /-- A function that has no body and that no closure stands for. -/
  | bodiless (a : Addr)
  /-- What can happen in a session too. -/
  | eval (e : EvalError)

/-- What a local stands for in an environment. -/
def Frame.find (env : Frame) (x : Local) : Except EnvError Addr :=
  match env.lookup x with
  | some a => .ok a
  | none => .error (.unbound x)

/-- A function with what it keeps of the environment at its literal. -/
structure EnvClosure where
  params : List Local
  body : Expr Ty
  env : Frame

/-- A machine, and the closures that its heap has functions for. -/
structure EnvStore where
  machine : Machine
  closures : List (Addr × EnvClosure)

/-- What the function of some parameters and a body keeps of an environment. -/
abbrev Keep := List Local → Expr Ty → Frame → Except EnvError Frame

/-- A closure keeps the whole environment at its literal. -/
def Keep.whole : Keep := fun _ _ env => .ok env

/-- A closure keeps the locals that it closes over. -/
def Keep.captured : Keep := fun params body env =>
  (body.closedOver params).mapM fun x => return (x, ← env.find x)

/-- An evaluation, which may be stuck. -/
abbrev EnvRun := ExceptT EnvError (StateM EnvStore)

namespace EnvRun

/-- What a machine does on its own. -/
def onMachine {α : Type} (act : Run α) : EnvRun α :=
  modifyGet fun σ =>
    let (a, machine) := act σ.machine
    (a, { σ with machine })

/-- Makes a closure with a name. -/
def newClosure (name : String) (c : EnvClosure) : EnvRun Addr := do
  let a ← onMachine (Machine.alloc (.fn ⟨name, c.params.length, .empty, []⟩))
  modify fun σ => { σ with closures := (a, c) :: σ.closures }
  return a

end EnvRun

open EnvRun

mutual

/-- Evaluates an expression in an environment, in the order in which its code would run. -/
def Expr.evalWith (keep : Keep) (call : Addr → List Addr → EnvRun Addr) (env : Frame) :
    Expr Ty → EnvRun Addr
  | .literal v _ => onMachine (Machine.literal v)
  | .collection kind items _ => do
    onMachine (Machine.collection kind (← Expr.evalAllWith keep call env items))
  | .localVar x _ => env.find x
  | .globalVar v _ => onMachine (Machine.load v.cell)
  | .call callee args _ => do
    let f ← Expr.evalWith keep call env callee
    call f (← Expr.evalAllWith keep call env args)
  | .callVar v args _ => do
    let f ← onMachine (Machine.load v.cell)
    call f (← Expr.evalAllWith keep call env args)
  | .letIn bindings body _ => do
    let inner ← Expr.evalBindingsWith keep call env bindings
    Expr.evalWith keep call inner body
  | .ite test thenBranch elseBranch _ => do
    if (← Expr.evalWith keep call env test) = trueAddr then Expr.evalWith keep call env thenBranch
    else Expr.evalWith keep call env elseBranch
  | .fn params body _ => do newClosure "fn" ⟨params, body, ← keep params body env⟩
  | .define _ _ _ _ => throw .misplaced
  | .declare _ _ => throw .misplaced

/-- Evaluates expressions from left to right. -/
def Expr.evalAllWith (keep : Keep) (call : Addr → List Addr → EnvRun Addr) (env : Frame) :
    List (Expr Ty) → EnvRun (List Addr)
  | [] => return []
  | e :: es => return (← Expr.evalWith keep call env e) :: (← Expr.evalAllWith keep call env es)

/-- Evaluates bindings, and gives the environment after them. -/
def Expr.evalBindingsWith (keep : Keep) (call : Addr → List Addr → EnvRun Addr) (env : Frame) :
    List (Local × Expr Ty) → EnvRun Frame
  | [] => return env
  | (x, e) :: bs => do
    let a ← Expr.evalWith keep call env e
    Expr.evalBindingsWith keep call ((x, a) :: env) bs

end

/-- Runs the function at an address, which has been entered. The body of a closure has its
parameters and what the closure kept. -/
def FnObject.runWith (keep : Keep) (call : Addr → List Addr → EnvRun Addr) (a : Addr)
    (f : FnObject) (args : List Addr) : EnvRun Addr := do
  match f.body with
  | .builtin b => onMachine (b.run args)
  | .host h => onMachine (h.run args)
  | .construct l => onMachine (Machine.alloc (.variant l (args.map some)))
  | _ =>
    match (← get).closures.lookup a with
    | some c => c.body.evalWith keep call (c.params.zip args ++ c.env)
    | none => throw (.bodiless a)

/-- Calls a function, with at most `depth` calls nested in one another. -/
def callWith (keep : Keep) : Nat → Addr → List Addr → EnvRun Addr
  | 0, f, args => do
    let _ ← onMachine (Machine.enter 0 f args.length)
    return faultAddr
  | depth + 1, f, args => do
    match ← onMachine (Machine.enter (depth + 1) f args.length) with
    | some fn => fn.runWith keep (callWith keep depth) f args
    | none => return faultAddr

/-! ## Sessions -/

/-- A session that evaluates in environments. -/
structure EnvSession where
  session : Session
  closures : List (Addr × EnvClosure) := []

namespace EnvSession

/-- An action of such a session, which may fail or be stuck. -/
abbrev Action := ExceptT EnvError (StateM EnvSession)

def store (σ : EnvSession) : EnvStore := ⟨σ.session.machine, σ.closures⟩

/-- An action of a session, with its errors as errors of evaluation. -/
def onSession {ε α : Type} (error : ε → EvalError) (act : Session.Action ε α) : Action α := fun σ =>
  let (result, session) := act σ.session
  (result.mapError fun e => .eval (error e), { σ with session })

/-- An evaluation on the machine and with the closures of the session. -/
def onStore {α : Type} (act : EnvRun α) : Action α := fun σ =>
  let (result, store) := act σ.store
  (result, ⟨{ σ.session with machine := store.machine }, store.closures⟩)

/-- Fails as a run of code would. -/
def fail {α : Type} (e : RunError) : Action α := throw (.eval (.run e))

/-- Evaluates an expression on its own, and gives its object. -/
def runThunk (keep : Keep) (e : Expr Ty) : Action Addr := do
  let limit := (← get).session.callLimit
  let (a, fault) ← onStore do
    let _ ← onMachine Machine.takeFault
    let a ← e.evalWith keep (callWith keep limit) []
    return (a, ← onMachine Machine.takeFault)
  match fault with
  | some f => fail (.fault f)
  | none => return a

/-- Makes the object of a definition. A function that is defined has no environment around it. -/
def definedObject (keep : Keep) (name : GlobalName) : Expr Ty → Action (Addr × VarKind)
  | .fn params body _ => do
    let a ← onStore (newClosure name.text ⟨params, body, []⟩)
    return (a, .fn params.length)
  | body => return (← runThunk keep body, .value)

/-- Runs a typed form. -/
def runForm (keep : Keep) : Expr Ty → Action Outcome
  | .define name declared body _ => do
    let ty := declared.getD body.ann
    let (a, kind) ← definedObject keep name body
    let cell ← onSession .run (Session.bindObject name ty a)
    let v : Var := { name, kind, cell, declared, inferred := some body.ann }
    modify fun σ => { σ with session.env := σ.session.env.withVar v }
    return .defined name ty
  | .declare d _ => return (← onSession .run (Session.runDeclare d)).outcome
  | e => do
    let a ← runThunk keep e
    match (← get).session.machine.heap.decode a with
    | .ok v => return .value v e.ann
    | .error f => fail (.fault f)

/-- Evaluates a form. -/
def eval (keep : Keep) (f : Form) : Action Outcome := do
  let e ← onSession .analysis (Session.analyse f)
  let typed ← onSession .type (Session.infer e)
  runForm keep typed

/-- Calls the function of a var from outside. -/
def callVar (keep : Keep) (v : Var) (args : List Value) : Action Value := do
  let some f := (← get).session.machine.cell? v.cell | fail (.fault (.unboundVar v.cell.name))
  let args ← match ← onStore (onMachine (Session.encodeArgs args)) with
    | .ok args => pure args
    | .error e => fail (.fault e)
  let limit := (← get).session.callLimit
  let entered ← onStore (onMachine do
    let _ ← Machine.takeFault
    Machine.enter limit f args.length)
  let some fn := entered
    | fail (.fault ((← onStore (onMachine Machine.takeFault)).getD .escaped))
  if maxInvokeArgs < args.length then fail (.tooManyArgs args.length)
  let (a, fault) ← onStore do
    let a ← fn.runWith keep (callWith keep (limit - 1)) f args
    return (a, ← onMachine Machine.takeFault)
  match fault with
  | some e => fail (.fault e)
  | none =>
    match (← get).session.machine.heap.decode a with
    | .ok v => return v
    | .error e => fail (.fault e)

/-- Calls the function that a symbol names. -/
def invoke (keep : Keep) (sym : String) (args : List Value) : Action Value := do
  match (← get).session.resolve sym with
  | .ok v => callVar keep v args
  | .error e => throw (.eval e)

/-- The result of an action, unless it was stuck. -/
def result? {α : Type} : Except EnvError α → Option (Except EvalError α)
  | .ok a => some (.ok a)
  | .error (.eval e) => some (.error e)
  | .error _ => none

/-- The answer to a request, unless the evaluation is stuck, and the session after it. -/
def answer (keep : Keep) (σ : EnvSession) : Session.Request → Option Session.Answer × EnvSession
  | .form f => ((result? (eval keep f σ).1).map .evaluated, (eval keep f σ).2)
  | .call sym args =>
    ((result? (invoke keep sym args σ).1).map .returned, (invoke keep sym args σ).2)

/-- The answers to requests that come one after the other. -/
def answers (keep : Keep) (σ : EnvSession) : List Session.Request → List (Option Session.Answer)
  | [] => []
  | r :: rs => (σ.answer keep r).1 :: (σ.answer keep r).2.answers keep rs

/-- A new session: the functions of the core namespace are no closures. -/
def start (callLimit : Nat) : EnvSession := ⟨.start callLimit, []⟩

end EnvSession

end TypedLisp
