import TypedLisp.Machine.Eval

/-!
# Evaluation that stops at the first fault

A second semantics of code, in which a fault is an exception: nothing after a fault is evaluated.
The callee comes before the arguments, arguments and items go from left to right, bindings in their
order. A function is entered when all its arguments have been evaluated: then the depth of calls is
checked, what is called, and how many arguments there are. The mark of a fault is no fault of its
own: to call it gives the mark again.
-/

namespace TypedLisp

/-- What code works on: a machine without a record of faults. -/
structure Store where
  heap : Heap
  cells : Array (Option Addr)
  tracked : List Nat

/-- A computation on a store that stops at the first fault. -/
abbrev Attempt := ExceptT Fault (StateM Store)

namespace Attempt

/-! ## Objects -/

/-- Makes an object. -/
def alloc (o : Object) : Attempt Addr :=
  modifyGet fun σ => ((σ.heap.alloc o).1, { σ with heap := (σ.heap.alloc o).2 })

/-- The object at an address. -/
def object (a : Addr) : Attempt Object := return (← get).heap.object a

/-- Stops at an object of the wrong kind. -/
def wrongKind {α : Type} (expected : String) (found : Object) : Attempt α :=
  throw (.wrongKind expected found.kind)

/-- The integer at an address. -/
def int (a : Addr) : Attempt Int64 := do
  match ← object a with
  | .int n => return n
  | o => wrongKind "Int" o

/-- The string at an address. -/
def str (a : Addr) : Attempt String := do
  match ← object a with
  | .str s => return s
  | o => wrongKind "Str" o

/-- The object of a literal. -/
def literal : Literal → Attempt Addr
  | .bool b => return boolAddr b
  | .int n => alloc (.int n)
  | .str s => alloc (.str s)

/-! ## Collections -/

/-- A vector with one more item. -/
def vectorConj (vector item : Addr) : Attempt Addr := do
  match ← object vector with
  | .vector items => alloc (.vector (items ++ [item]))
  | o => wrongKind "vector" o

/-- A set with one more item. -/
def setConj (set item : Addr) : Attempt Addr := do
  match ← object set with
  | .set items => alloc (.set (insertItem (← get).heap.compare item items))
  | o => wrongKind "set" o

/-- A map with one more entry. -/
def mapAssoc (map : Addr) (entry : Addr × Addr) : Attempt Addr := do
  match ← object map with
  | .map entries => alloc (.map (insertEntry (← get).heap.compare entry.1 entry.2 entries))
  | o => wrongKind "map" o

/-- The collection of some items, built up from the empty one. -/
def collection : Collection → List Addr → Attempt Addr
  | .vector, items => do items.foldlM vectorConj (← alloc (.vector []))
  | .set, items => do items.foldlM setConj (← alloc (.set []))
  | .map, items => do (pairs items).foldlM mapAssoc (← alloc (.map []))

/-! ## Cells -/

/-- What a cell holds. -/
def load (c : Cell) : Attempt Addr := do
  match (← get).cells[c.id]? with
  | some (some a) => return a
  | _ => throw (.unboundVar c.name)

/-! ## Built-in and host functions -/

/-- The number of items of a collection. -/
def count (a : Addr) : Attempt Addr := do
  match ← object a with
  | .vector items | .set items => alloc (.int (.ofNat items.length))
  | .map entries => alloc (.int (.ofNat entries.length))
  | o => wrongKind "collection" o

/-- The text of a value; a string is its own text. -/
def textOf (a : Addr) : Attempt Addr := do
  match (← get).heap.decode a with
  | .ok (.str s) => alloc (.str s)
  | .ok v => alloc (.str v.text)
  | .error f => throw f

/-- The opposite of a boolean. -/
def not (a : Addr) : Attempt Addr := do
  match ← object a with
  | .bool b => return boolAddr !b
  | o => wrongKind "Bool" o

/-- A function of two integers. -/
def withInts (a b : Addr) (op : Int64 → Int64 → Attempt Addr) : Attempt Addr := do
  let x ← int a
  let y ← int b
  op x y

/-- A function of a string. -/
def withStr (a : Addr) (op : String → Attempt Addr) : Attempt Addr := do
  let s ← str a
  op s

/-- What a division gives, if the divisor is not zero. -/
def divided (divisor result : Int64) : Attempt Addr :=
  if divisor = 0 then throw .divideByZero else alloc (.int result)

end Attempt

open Attempt

/-- Calls a built-in function. -/
def Builtin.attempt : Builtin → List Addr → Attempt Addr
  | .add, [a, b] => withInts a b fun x y => alloc (.int (x + y))
  | .sub, [a, b] => withInts a b fun x y => alloc (.int (x - y))
  | .mul, [a, b] => withInts a b fun x y => alloc (.int (x * y))
  | .eq, [a, b] => withInts a b fun x y => return boolAddr (x == y)
  | .lt, [a, b] => withInts a b fun x y => return boolAddr (x < y)
  | .gt, [a, b] => withInts a b fun x y => return boolAddr (y < x)
  | .not, [a] => Attempt.not a
  | .count, [a] => Attempt.count a
  | .conj, [a, b] => vectorConj a b
  | .str, [a] => textOf a
  | .concat, [a, b] => withStr a fun s => withStr b fun t => alloc (.str (s ++ t))
  | _, _ => return faultAddr

/-- Calls a function of the host. -/
def HostFn.attempt : HostFn → List Addr → Attempt Addr
  | .abs, [a] => do
    let x ← int a
    alloc (.int (if x < 0 then -x else x))
  | .max, [a, b] => withInts a b fun x y => alloc (.int (if x < y then y else x))
  | .min, [a, b] => withInts a b fun x y => alloc (.int (if y < x then y else x))
  | .quot, [a, b] => withInts a b fun x y => divided y (x / y)
  | .rem, [a, b] => withInts a b fun x y => divided y (x % y)
  | .length, [a] => withStr a fun s => alloc (.int (.ofNat s.length))
  | .upper, [a] => withStr a fun s => alloc (.str (Text.upper s))
  | .lower, [a] => withStr a fun s => alloc (.str (Text.lower s))
  | .trim, [a] => withStr a fun s => alloc (.str (Text.trim s))
  | .repeat, [a, b] => do
    let s ← str a
    let n ← int b
    alloc (.str (repeatText s n))
  | _, _ => return faultAddr

/-! ## Code -/

mutual

/-- Evaluates code, up to the first fault. -/
def Code.attempt (call : Addr → List Addr → Attempt Addr) (frame : Frame) : Code → Attempt Addr
  | .literal v => Attempt.literal v
  | .collection kind items => do Attempt.collection kind (← Code.attemptAll call frame items)
  | .slot x => return frame.get x
  | .load c => Attempt.load c
  | .call callee args => do
    let f ← Code.attempt call frame callee
    let args ← Code.attemptAll call frame args
    call f args
  | .letIn bindings body => do
    let inner ← Code.attemptBindings call frame bindings
    Code.attempt call inner body
  | .ite test thenBranch elseBranch => do
    if (← Code.attempt call frame test) = trueAddr then Code.attempt call frame thenBranch
    else Code.attempt call frame elseBranch
  | .closure params captures body =>
    Attempt.alloc (.fn {
      name := "fn"
      arity := params.length
      body := .code params captures body
      captures := captures.map fun x => some (frame.get x) })

/-- Evaluates several pieces of code, from left to right. -/
def Code.attemptAll (call : Addr → List Addr → Attempt Addr) (frame : Frame) :
    List Code → Attempt (List Addr)
  | [] => return []
  | c :: cs => do
    let a ← Code.attempt call frame c
    let rest ← Code.attemptAll call frame cs
    return a :: rest

/-- Evaluates bindings in order, and gives the frame after them. -/
def Code.attemptBindings (call : Addr → List Addr → Attempt Addr) (frame : Frame) :
    List (Local × Code) → Attempt Frame
  | [] => return frame
  | (x, c) :: bs => do
    let a ← Code.attempt call frame c
    Code.attemptBindings call ((x, a) :: frame) bs

end

/-- What a function does with its arguments. -/
def FnObject.attempt (call : Addr → List Addr → Attempt Addr) (f : FnObject) (args : List Addr) :
    Attempt Addr :=
  match f.body with
  | .builtin b => b.attempt args
  | .host h => h.attempt args
  | .construct l => Attempt.alloc (.variant l (args.map some))
  | .code params captured body => body.attempt call (startFrame params captured args f.captures)
  | .empty => return faultAddr

/-- Calls a function, with at most `depth` calls nested in one another. -/
def Attempt.call : Nat → Addr → List Addr → Attempt Addr
  | 0, _, _ => throw .stackOverflow
  | depth + 1, f, args => do
    match ← object f with
    | .fn fn =>
      if fn.arity = args.length then fn.attempt (Attempt.call depth) args
      else throw (.arity fn.name fn.arity args.length)
    | .fault => return faultAddr
    | o => throw (.notAFunction o.kind)

end TypedLisp
