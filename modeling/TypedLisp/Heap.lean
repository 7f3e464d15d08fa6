import TypedLisp.Builtin
import TypedLisp.Code
import TypedLisp.Host

/-!
# The heap

Objects live at addresses. An object refers to other objects by their addresses, so objects can be
shared. Pinned objects stay for ever; the others go when nothing that is needed leads to them. An
address is used once only. The booleans and the mark of a fault are single objects, at addresses
that every heap has in common.
-/

namespace TypedLisp

/-- The address of an object. -/
abbrev Addr := Nat

/-- The shape of a constructor's variants. -/
structure Layout where
  dataType : String
  constructor : String
  tag : Nat
  arity : Nat
deriving DecidableEq, Repr

/-- What a function does when it is called. -/
inductive FnBody where
  | builtin (b : Builtin)
  | host (h : HostFn)
  /-- Makes a variant of its arguments. -/
  | construct (layout : Layout)
  /-- Runs code in which the parameters stand for the arguments, and the captured locals for the
  captures of the function. -/
  | code (params captured : List Local) (body : Code)
  /-- Nothing: such a function cannot be run. -/
  | empty

/-- A function: what it does, and the objects that it captured. A capture may still be unset. -/
structure FnObject where
  name : String
  arity : Nat
  body : FnBody
  captures : List (Option Addr) := []

/-- An object. The items of a set and the keys of a map are ascending; a field of a variant may
still be unset. -/
inductive Object where
  | bool (value : Bool)
  | int (value : Int64)
  | str (value : String)
  | vector (items : List Addr)
  | set (items : List Addr)
  | map (entries : List (Addr × Addr))
  | fn (f : FnObject)
  | variant (layout : Layout) (fields : List (Option Addr))
  /-- The mark of a fault. -/
  | fault

namespace Object

/-- The name of the object's kind, as messages give it. -/
def kind : Object → String
  | .bool _ => "Bool"
  | .int _ => "Int"
  | .str _ => "Str"
  | .vector _ => "vector"
  | .set _ => "set"
  | .map _ => "map"
  | .fn _ => "function"
  | .variant _ _ => "variant"
  | .fault => "fault"

/-- The place of the object's kind among the kinds. -/
def rank : Object → Nat
  | .bool _ => 0
  | .int _ => 1
  | .str _ => 2
  | .vector _ => 3
  | .set _ => 4
  | .map _ => 5
  | .fn _ => 6
  | .variant _ _ => 7
  | .fault => 8

/-- The addresses that the object refers to. -/
def children : Object → List Addr
  | .bool _ | .int _ | .str _ | .fault => []
  | .vector items => items
  | .set items => items
  | .map entries => entries.flatMap fun (k, v) => [k, v]
  | .fn f => f.captures.filterMap id
  | .variant _ fields => fields.filterMap id

end Object

/-- An object in its place. -/
structure Entry where
  pinned : Bool
  object : Object

/-- A heap: by address, the objects that there are and the gaps left by those that went. A
collection is due when there are `threshold` objects that are not pinned. -/
structure Heap where
  slots : Array (Option Entry)
  threshold : Nat

/-- The least number of objects at which a collection is due. -/
def minThreshold : Nat := 4096

def trueAddr : Addr := 0

def falseAddr : Addr := 1

/-- The address of the mark of a fault. -/
def faultAddr : Addr := 2

/-- The address of a boolean. -/
def boolAddr (b : Bool) : Addr := if b then trueAddr else falseAddr

namespace Heap

/-- The heap with nothing but the single objects. -/
def empty : Heap :=
  ⟨#[some ⟨true, .bool true⟩, some ⟨true, .bool false⟩, some ⟨true, .fault⟩], minThreshold⟩

instance : Inhabited Heap := ⟨empty⟩

/-- What stands at an address. -/
def slot? (h : Heap) (a : Addr) : Option Entry := h.slots[a]?.join

/-- The object at an address. -/
def get? (h : Heap) (a : Addr) : Option Object := (h.slot? a).map (·.object)

/-- The object at an address, where a gap counts as a fault. -/
def object (h : Heap) (a : Addr) : Object := (h.get? a).getD .fault

/-- Puts an entry at the next address. -/
def push (h : Heap) (e : Entry) : Addr × Heap :=
  match h with
  | ⟨slots, threshold⟩ => (slots.size, ⟨slots.push (some e), threshold⟩)

/-- Makes an object that can go again. -/
def alloc (h : Heap) (o : Object) : Addr × Heap := h.push ⟨false, o⟩

/-- Makes an object that stays for ever. -/
def allocPinned (h : Heap) (o : Object) : Addr × Heap := h.push ⟨true, o⟩

/-- Changes the object at an address. -/
def modify (h : Heap) (a : Addr) (f : Object → Object) : Heap :=
  match h with
  | ⟨slots, threshold⟩ =>
    ⟨slots.modify a fun e => e.map fun e => { e with object := f e.object }, threshold⟩

/-- The number of objects. -/
def size (h : Heap) : Nat := h.slots.countP (·.isSome)

/-- The number of objects that are not pinned. -/
def collectable (h : Heap) : Nat := h.slots.countP fun e => (e.map (! ·.pinned)).getD false

/-- Whether a collection is due. -/
def collectionDue (h : Heap) : Bool := h.threshold ≤ h.collectable

theorem get?_push_self (h : Heap) (e : Entry) :
    (h.push e).2.get? (h.push e).1 = some e.object := by
  simp [push, get?, slot?]

theorem slot?_push_self (h : Heap) (e : Entry) : (h.push e).2.slot? (h.push e).1 = some e := by
  simp [push, slot?]

theorem slot?_push_of_lt {h : Heap} {e : Entry} {a : Addr} (ha : a < h.slots.size) :
    (h.push e).2.slot? a = h.slot? a := by
  simp [push, slot?, Array.getElem?_push, Nat.ne_of_lt ha]

end Heap

end TypedLisp
