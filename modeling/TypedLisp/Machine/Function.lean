import TypedLisp.Machine
import TypedLisp.Text.Blank
import TypedLisp.Text.Case

/-!
# What built-in and host functions do

Integer arithmetic is modulo 2^64. A function that is given objects of kinds it has no use for
reports the first of them.
-/

namespace TypedLisp

namespace Machine

/-- The integer at an address. -/
def intArg (a : Addr) : Run (Option Int64) := do
  match ← object a with
  | .int n => return some n
  | o =>
    let _ ← wrongKind "Int" o
    return none

/-- The string at an address. -/
def strArg (a : Addr) : Run (Option String) := do
  match ← object a with
  | .str s => return some s
  | o =>
    let _ ← wrongKind "Str" o
    return none

/-- A function of two integers. -/
def withInts (a b : Addr) (op : Int64 → Int64 → Run Addr) : Run Addr := do
  let x ← intArg a
  let y ← intArg b
  match x, y with
  | some x, some y => op x y
  | _, _ => return faultAddr

/-- A function of a string. -/
def withStr (a : Addr) (op : String → Run Addr) : Run Addr := do
  match ← strArg a with
  | some s => op s
  | none => return faultAddr

/-- An integer as an object. -/
def newInt (n : Int64) : Run Addr := alloc (.int n)

/-- A string as an object. -/
def newStr (s : String) : Run Addr := alloc (.str s)

/-- The number of items of a collection. -/
def count (a : Addr) : Run Addr := do
  match ← object a with
  | .vector items => newInt (.ofNat items.length)
  | .set items => newInt (.ofNat items.length)
  | .map entries => newInt (.ofNat entries.length)
  | o => wrongKind "collection" o

/-- The text of a value; a string is its own text. -/
def textOf (a : Addr) : Run Addr := do
  match (← get).heap.decode a with
  | .ok (.str s) => newStr s
  | .ok v => newStr v.text
  | .error f => raise f

/-- Two strings one after the other. -/
def concat (a b : Addr) : Run Addr := do
  match ← object a with
  | .str s =>
    match ← object b with
    | .str t => newStr (s ++ t)
    | o => wrongKind "Str" o
  | o => wrongKind "Str" o

/-- The opposite of a boolean. -/
def not (a : Addr) : Run Addr := do
  match ← object a with
  | .bool b => return boolAddr !b
  | o => wrongKind "Bool" o

end Machine

open Machine

/-- Calls a built-in function. -/
def Builtin.run : Builtin → List Addr → Run Addr
  | .add, [a, b] => withInts a b fun x y => newInt (x + y)
  | .sub, [a, b] => withInts a b fun x y => newInt (x - y)
  | .mul, [a, b] => withInts a b fun x y => newInt (x * y)
  | .eq, [a, b] => withInts a b fun x y => return boolAddr (x == y)
  | .lt, [a, b] => withInts a b fun x y => return boolAddr (x < y)
  | .gt, [a, b] => withInts a b fun x y => return boolAddr (y < x)
  | .not, [a] => Machine.not a
  | .count, [a] => Machine.count a
  | .conj, [a, b] => vectorConj a b
  | .str, [a] => textOf a
  | .concat, [a, b] => Machine.concat a b
  | _, _ => return faultAddr

/-- A text several times over; not at all for a negative number. The empty text stays empty however
large the number is, so nothing is built up for it. -/
def repeatText (s : String) (n : Int64) : String :=
  if s = "" then "" else String.join (List.replicate n.toInt.toNat s)

/-- Calls a function of the host. -/
def HostFn.run : HostFn → List Addr → Run Addr
  | .abs, [a] => do
    match ← intArg a with
    | some x => newInt (if x < 0 then -x else x)
    | none => return faultAddr
  | .max, [a, b] => withInts a b fun x y => newInt (if x < y then y else x)
  | .min, [a, b] => withInts a b fun x y => newInt (if y < x then y else x)
  | .quot, [a, b] => withInts a b fun x y => if y == 0 then raise .divideByZero else newInt (x / y)
  | .rem, [a, b] => withInts a b fun x y => if y == 0 then raise .divideByZero else newInt (x % y)
  | .length, [a] => withStr a fun s => newInt (.ofNat s.length)
  | .upper, [a] => withStr a fun s => newStr (Text.upper s)
  | .lower, [a] => withStr a fun s => newStr (Text.lower s)
  | .trim, [a] => withStr a fun s => newStr (Text.trim s)
  | .repeat, [a, b] => do
    let s ← strArg a
    let n ← intArg b
    match s, n with
    | some s, some n => newStr (repeatText s n)
    | _, _ => return faultAddr
  | _, _ => return faultAddr

end TypedLisp
