import TypedLisp.Heap

/-!
# The order of objects

Objects are ordered by kind and then by contents, so that two objects of equal contents are equal
wherever they are. Functions are ordered by address, variants by the name of their data type, then
by the place of their constructor, then by their fields. Sets and the keys of maps are kept
ascending in this order.
-/

namespace TypedLisp

/-- The order of two slots by the order of what is in them; an unset slot comes first. -/
def compareSlots (cmp : Addr → Addr → Ordering) : Option Addr → Option Addr → Ordering
  | none, none => .eq
  | none, some _ => .lt
  | some _, none => .gt
  | some a, some b => cmp a b

namespace Heap

/-- The order of two objects, comparing references by a given order. -/
def compareObjects (cmp : Addr → Addr → Ordering) (a b : Addr) : Object → Object → Ordering
  | .bool x, .bool y => compare x y
  | .int x, .int y => compare x y
  | .str x, .str y => compare x y
  | .vector xs, .vector ys => xs.compareLex cmp ys
  | .set xs, .set ys => xs.compareLex cmp ys
  | .map xs, .map ys => xs.compareLex (fun x y => (cmp x.1 y.1).then (cmp x.2 y.2)) ys
  | .fn _, .fn _ => compare a b
  | .variant l fs, .variant l' fs' =>
    ((compare l.dataType l'.dataType).then (compare l.tag l'.tag)).then
      (fs.compareLex (compareSlots cmp) fs')
  | x, y => compare x.rank y.rank

/-- The order of the objects at two addresses, down to a depth of references. -/
def compareTo (h : Heap) : Nat → Addr → Addr → Ordering
  | 0, _, _ => .eq
  | depth + 1, a, b =>
    if a = b then .eq
    else compareObjects (h.compareTo depth) a b (h.object a) (h.object b)

/-- The order of the objects at two addresses. No chain of references that ends is longer than the
heap is large, so the depth is enough. -/
def compare (h : Heap) (a b : Addr) : Ordering := h.compareTo (h.slots.size + 1) a b

end Heap

/-! ## Ascending lists -/

/-- Puts an item into an ascending list, in place of an equal one. -/
def insertItem (cmp : Addr → Addr → Ordering) (x : Addr) : List Addr → List Addr
  | [] => [x]
  | y :: ys =>
    match cmp x y with
    | .lt => x :: y :: ys
    | .eq => x :: ys
    | .gt => y :: insertItem cmp x ys

/-- Puts an entry into a list with ascending keys, in place of one with an equal key. -/
def insertEntry (cmp : Addr → Addr → Ordering) (k v : Addr) :
    List (Addr × Addr) → List (Addr × Addr)
  | [] => [(k, v)]
  | e :: es =>
    match cmp k e.1 with
    | .lt => (k, v) :: e :: es
    | .eq => (k, v) :: es
    | .gt => e :: insertEntry cmp k v es

namespace Heap

/-- The ascending list of some items; of equal items the last one counts. -/
def sortItems (h : Heap) (items : List Addr) : List Addr :=
  items.foldl (fun acc x => insertItem h.compare x acc) []

/-- The list of some entries with ascending keys; of entries with equal keys the last one counts. -/
def sortEntries (h : Heap) (entries : List (Addr × Addr)) : List (Addr × Addr) :=
  entries.foldl (fun acc e => insertEntry h.compare e.1 e.2 acc) []

end Heap

end TypedLisp
