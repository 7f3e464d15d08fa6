import TypedLisp.Heap.Collect
import TypedLisp.Heap.Value

/-!
# The machine

The state of running code: the heap, the cells with the numbers of those that collection starts
from, and the first fault since the run began. Code does not stop at a fault. An operation that
fails puts the fault on record, unless there is one already, and gives the mark of a fault as its
result; no function is entered while a fault is on record.
-/

namespace TypedLisp

/-- The state of running code. -/
structure Machine where
  heap : Heap
  /-- What each cell holds, by the number of the cell. -/
  cells : Array (Option Addr) := #[]
  /-- The numbers of the cells that collection starts from: those that code reads, and those that a
  definition has put an object into. -/
  tracked : List Nat := []
  fault : Option Fault := none

/-- Running code, which gives the address of its result. -/
abbrev Run := StateM Machine

namespace Machine

/-- A machine on which nothing has run. -/
def empty : Machine := ⟨.empty, #[], [], none⟩

instance : Inhabited Machine := ⟨empty⟩

/-! ## Faults -/

/-- Puts a fault on record unless there is one. -/
def record (m : Machine) (f : Fault) : Machine :=
  match m with
  | ⟨heap, cells, tracked, fault⟩ => ⟨heap, cells, tracked, fault <|> some f⟩

/-- Puts a fault on record unless there is one, and gives the mark of a fault. -/
def raise (f : Fault) : Run Addr := fun m => (faultAddr, m.record f)

/-- Whether a fault is on record. -/
def faultPending : Run Bool := fun m => (m.fault.isSome, m)

/-- Takes the fault off the record. -/
def takeFault : Run (Option Fault) := fun m =>
  match m with
  | ⟨heap, cells, tracked, fault⟩ => (fault, ⟨heap, cells, tracked, none⟩)

/-! ## Objects -/

/-- Makes an object. -/
def alloc (o : Object) : Run Addr := fun m =>
  match m with
  | ⟨heap, cells, tracked, fault⟩ =>
    let (a, heap) := heap.alloc o
    (a, ⟨heap, cells, tracked, fault⟩)

/-- Makes an object that stays for ever. -/
def allocPinned (o : Object) : Run Addr := fun m =>
  match m with
  | ⟨heap, cells, tracked, fault⟩ =>
    let (a, heap) := heap.allocPinned o
    (a, ⟨heap, cells, tracked, fault⟩)

/-- The object at an address. -/
def object (a : Addr) : Run Object := fun m => (m.heap.object a, m)

/-- Reports an object of the wrong kind. -/
def wrongKind (expected : String) (found : Object) : Run Addr :=
  raise (.wrongKind expected found.kind)

/-- The object of a literal. -/
def literal : Literal → Run Addr
  | .bool b => return boolAddr b
  | .int n => alloc (.int n)
  | .str s => alloc (.str s)

/-! ## Collections -/

/-- A vector with one more item. -/
def vectorConj (vector item : Addr) : Run Addr := do
  match ← object vector with
  | .vector items => alloc (.vector (items ++ [item]))
  | o => wrongKind "vector" o

/-- A set with one more item. -/
def setConj (set item : Addr) : Run Addr := do
  match ← object set with
  | .set items => do
    let cmp := (← get).heap.compare
    alloc (.set (insertItem cmp item items))
  | o => wrongKind "set" o

/-- A map with one more entry. -/
def mapAssoc (map key value : Addr) : Run Addr := do
  match ← object map with
  | .map entries => do
    let cmp := (← get).heap.compare
    alloc (.map (insertEntry cmp key value entries))
  | o => wrongKind "map" o

/-- Adds keys and values in turn to a map. -/
def mapAssocAll (map : Addr) : List Addr → Run Addr
  | k :: v :: rest => do mapAssocAll (← mapAssoc map k v) rest
  | _ => return map

/-- The collection of some items, built up from the empty one. -/
def collection : Collection → List Addr → Run Addr
  | .vector, items => do items.foldlM vectorConj (← alloc (.vector []))
  | .set, items => do items.foldlM setConj (← alloc (.set []))
  | .map, items => do mapAssocAll (← alloc (.map [])) items

/-! ## Functions and variants -/

/-- Sets a slot, if there is one. -/
def setSlot (slots : List (Option Addr)) (i : Nat) (a : Addr) : Option (List (Option Addr)) :=
  if i < slots.length then some (slots.set i (some a)) else none

/-- Changes the object at an address. -/
def modifyObject (a : Addr) (f : Object → Object) : Run Unit := fun m =>
  match m with
  | ⟨heap, cells, tracked, fault⟩ => ((), ⟨heap.modify a f, cells, tracked, fault⟩)

/-- Sets a capture of a function. -/
def setCapture (fn : Addr) (i : Nat) (a : Addr) : Run Addr := do
  match ← object fn with
  | .fn f =>
    match setSlot f.captures i a with
    | some captures => do
      modifyObject fn fun _ => .fn { f with captures }
      return fn
    | none => raise .escaped
  | o => wrongKind "function" o

/-- What a function captured in a slot, which may still be unset. -/
def getCapture (fn : Addr) (i : Nat) : Run (Option Addr) := do
  match ← object fn with
  | .fn f =>
    match f.captures[i]? with
    | some slot => return slot
    | none => some <$> raise .escaped
  | o => some <$> wrongKind "function" o

/-- A variant with all its fields unset. -/
def newVariant (l : Layout) : Run Addr := alloc (.variant l (List.replicate l.arity none))

/-- Sets a field of a variant. -/
def setField (variant : Addr) (i : Nat) (a : Addr) : Run Addr := do
  match ← object variant with
  | .variant l fields =>
    match setSlot fields i a with
    | some fields => do
      modifyObject variant fun _ => .variant l fields
      return variant
    | none => raise .escaped
  | o => wrongKind "variant" o

/-- The function at an address, if it can be entered with `argc` arguments at a depth of calls still
allowed. It cannot while a fault is on record. -/
def enter (depth : Nat) (f : Addr) (argc : Nat) : Run (Option FnObject) := do
  if ← faultPending then return none
  if depth = 0 then
    let _ ← raise .stackOverflow
    return none
  match ← object f with
  | .fn fn =>
    if fn.arity = argc then return some fn
    else
      let _ ← raise (.arity fn.name fn.arity argc)
      return none
  | .fault => return none
  | o =>
    let _ ← raise (.notAFunction o.kind)
    return none

/-! ## Cells -/

/-- What a cell holds. -/
def cell? (m : Machine) (c : Cell) : Option Addr := m.cells[c.id]?.join

/-- What a cell holds; it is a fault if the cell is empty. -/
def load (c : Cell) : Run Addr := do
  match (← get).cell? c with
  | some a => return a
  | none => raise (.unboundVar c.name)

/-- A new empty cell. -/
def newCell (name : String) : Run Cell := fun m =>
  match m with
  | ⟨heap, cells, tracked, fault⟩ => (⟨cells.size, name⟩, ⟨heap, cells.push none, tracked, fault⟩)

/-- Puts an object into a cell. -/
def store (c : Cell) (a : Addr) : Run Unit := fun m =>
  match m with
  | ⟨heap, cells, tracked, fault⟩ => ((), ⟨heap, cells.setIfInBounds c.id (some a), tracked, fault⟩)

/-- Adds cells to those that collection starts from. -/
def track (cs : List Cell) : Run Unit := fun m =>
  match m with
  | ⟨heap, cells, tracked, fault⟩ =>
    ((), ⟨heap, cells, cs.foldl (fun tracked c => tracked.insert c.id) tracked, fault⟩)

/-! ## Collection -/

/-- What the tracked cells hold. -/
def roots (m : Machine) : List Addr := m.tracked.filterMap fun i => m.cells[i]?.join

/-- Removes the objects that no tracked cell leads to, and says how many they were. -/
def collectGarbage : Run Nat := fun m =>
  let (freed, heap) := m.heap.collect m.roots
  (freed, { m with heap })

/-- Removes what no tracked cell leads to if a collection is due. -/
def collectIfDue : Run Unit := do
  if (← get).heap.collectionDue then
    let _ ← collectGarbage

end Machine

end TypedLisp
