import TypedLisp.Machine.Function

/-!
# Running code

`Code.eval` runs code in a frame, which gives the locals of the running function their objects; how
functions are called is a parameter. `call` ties the knot: it calls a function with a number of
further calls that may be nested in it.
-/

namespace TypedLisp

/-- The locals of a running function. -/
abbrev Frame := List (Local × Addr)

/-- What a local stands for. -/
def Frame.get (f : Frame) (x : Local) : Addr := (f.lookup x).getD faultAddr

mutual

/-- Runs code. The callee comes before the arguments, and arguments, items and bindings go from left
to right. A test that is not the object `true` chooses the second branch. -/
def Code.eval (call : Addr → List Addr → Run Addr) (frame : Frame) : Code → Run Addr
  | .literal v => Machine.literal v
  | .collection kind items => do Machine.collection kind (← Code.evalAll call frame items)
  | .slot x => return frame.get x
  | .load c => Machine.load c
  | .call callee args => do
    let f ← Code.eval call frame callee
    call f (← Code.evalAll call frame args)
  | .letIn bindings body => do
    let inner ← Code.evalBindings call frame bindings
    Code.eval call inner body
  | .ite test thenBranch elseBranch => do
    if (← Code.eval call frame test) = trueAddr then Code.eval call frame thenBranch
    else Code.eval call frame elseBranch
  | .closure params captures body =>
    Machine.alloc (.fn {
      name := "fn"
      arity := params.length
      body := .code params captures body
      captures := captures.map fun x => some (frame.get x) })

/-- Runs several pieces of code, from left to right. -/
def Code.evalAll (call : Addr → List Addr → Run Addr) (frame : Frame) : List Code → Run (List Addr)
  | [] => return []
  | c :: cs => return (← Code.eval call frame c) :: (← Code.evalAll call frame cs)

/-- Runs bindings, and gives the frame after them. -/
def Code.evalBindings (call : Addr → List Addr → Run Addr) (frame : Frame) :
    List (Local × Code) → Run Frame
  | [] => return frame
  | (x, c) :: bs => do
    let a ← Code.eval call frame c
    Code.evalBindings call ((x, a) :: frame) bs

end

/-- The frame in which the code of a function starts: its parameters and its captures. -/
def startFrame (params captured : List Local) (args : List Addr) (captures : List (Option Addr)) :
    Frame :=
  params.zip args ++ captured.zip (captures.map (·.getD faultAddr))

/-- Runs a function that has been entered. -/
def FnObject.run (call : Addr → List Addr → Run Addr) (f : FnObject) (args : List Addr) :
    Run Addr :=
  match f.body with
  | .builtin b => b.run args
  | .host h => h.run args
  | .construct l => Machine.alloc (.variant l (args.map some))
  | .code params captured body => body.eval call (startFrame params captured args f.captures)
  | .empty => return faultAddr

/-- Calls a function, with at most `depth` calls nested in one another. -/
def call : Nat → Addr → List Addr → Run Addr
  | 0, f, args => do
    let _ ← Machine.enter 0 f args.length
    return faultAddr
  | depth + 1, f, args => do
    match ← Machine.enter (depth + 1) f args.length with
    | some fn => fn.run (call depth) args
    | none => return faultAddr

end TypedLisp
