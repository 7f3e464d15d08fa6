import TypedLisp.Fault
import TypedLisp.Heap.Order
import TypedLisp.Value

/-!
# Values on the heap

`Heap.decode` reads a value off the heap, `Heap.encode` puts one there. Functions and variants can
be read but not put in from outside.
-/

namespace TypedLisp

namespace Heap

/-- The value at an address, down to a depth of references. -/
def decodeTo (h : Heap) : Nat → Addr → Except Fault Value
  | 0, _ => .error .escaped
  | depth + 1, a =>
    match h.object a with
    | .bool b => return .bool b
    | .int n => return .int n
    | .str s => return .str s
    | .vector items => return .vector (← items.mapM (h.decodeTo depth))
    | .set items => return .set (← items.mapM (h.decodeTo depth))
    | .map entries =>
      return .map (← entries.mapM fun e => do
        return (← h.decodeTo depth e.1, ← h.decodeTo depth e.2))
    | .fn f => return .fn f.name f.arity
    | .variant l fields =>
      return .variant l.dataType l.constructor (← fields.mapM fun
        | some a => h.decodeTo depth a
        | none => .error .escaped)
    | .fault => .error .escaped

/-- The value at an address; it is an error if the mark of a fault is in it. -/
def decode (h : Heap) (a : Addr) : Except Fault Value := h.decodeTo (h.slots.size + 1) a

/-- Putting values on the heap. What was put there before an error stays. -/
abbrev Encode := ExceptT Fault (StateM Heap)

/-- Makes an object. -/
def encodeObject (o : Object) : Encode Addr := modifyGet fun h => h.alloc o

mutual

/-- Puts a value on the heap. -/
def encode : Value → Encode Addr
  | .bool b => return boolAddr b
  | .int n => encodeObject (.int n)
  | .str s => encodeObject (.str s)
  | .vector items => do encodeObject (.vector (← encodeAll items))
  | .set items => do
    let items ← encodeAll items
    encodeObject (.set ((← get).sortItems items))
  | .map entries => do
    let entries ← encodeEntries entries
    encodeObject (.map ((← get).sortEntries entries))
  | .fn _ _ => throw (.notEncodable "function")
  | .variant _ _ _ => throw (.notEncodable "variant")

/-- Puts some values on the heap, from left to right. -/
def encodeAll : List Value → Encode (List Addr)
  | [] => return []
  | v :: vs => return (← encode v) :: (← encodeAll vs)

/-- Puts keys and values on the heap, from left to right. -/
def encodeEntries : List (Value × Value) → Encode (List (Addr × Addr))
  | [] => return []
  | (k, v) :: es => return (← encode k, ← encode v) :: (← encodeEntries es)

end

end Heap

end TypedLisp
