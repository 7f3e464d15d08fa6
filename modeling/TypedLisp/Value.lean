import TypedLisp.Form

/-!
# Values

What evaluation gives, as a tree on its own. `Value.text` writes a value; `Value.compare` orders
values by kind and then by contents.
-/

namespace TypedLisp

/-- A value. The elements of a set and the keys of a map stand in ascending order when the value
comes from evaluation; a value passed in may list them in any order. -/
inductive Value where
  | bool (value : Bool)
  | int (value : Int64)
  | str (value : String)
  | vector (items : List Value)
  | set (items : List Value)
  | map (entries : List (Value × Value))
  | fn (name : String) (arity : Nat)
  | variant (dataType constructor : String) (fields : List Value)
deriving Repr, Inhabited

namespace Value

/-! ## Printing -/

mutual

/-- The text of a value. -/
def text : Value → String
  | .bool b => boolText b
  | .int n => intText n
  | .str s => Text.quote s
  | .vector items => "[" ++ " ".intercalate (texts items) ++ "]"
  | .set items => "#\x7b" ++ " ".intercalate (texts items) ++ "\x7d"
  | .map entries => "\x7b" ++ " ".intercalate (entryTexts entries) ++ "\x7d"
  | .fn name arity => "<fn " ++ name ++ "/" ++ toString arity ++ ">"
  | .variant _ constructor [] => constructor
  | .variant _ constructor (f :: fs) =>
    "(" ++ constructor ++ " " ++ " ".intercalate (text f :: texts fs) ++ ")"

/-- The texts of some values. -/
def texts : List Value → List String
  | [] => []
  | v :: vs => text v :: texts vs

/-- The texts of the keys and values of a map. -/
def entryTexts : List (Value × Value) → List String
  | [] => []
  | (k, v) :: es => text k :: text v :: entryTexts es

end

/-! ## Order -/

/-- The place of a value's kind among the kinds. -/
def rank : Value → Nat
  | .bool _ => 0
  | .int _ => 1
  | .str _ => 2
  | .vector _ => 3
  | .set _ => 4
  | .map _ => 5
  | .fn _ _ => 6
  | .variant _ _ _ => 7

mutual

/-- The order of values: by kind, then by contents from left to right. -/
def compare : Value → Value → Ordering
  | .bool a, .bool b => Ord.compare a b
  | .int a, .int b => Ord.compare a b
  | .str a, .str b => Ord.compare a b
  | .vector as, .vector bs => compareAll as bs
  | .set as, .set bs => compareAll as bs
  | .map as, .map bs => compareEntries as bs
  | .fn n a, .fn n' a' => (Ord.compare n n').then (Ord.compare a a')
  | .variant d c fs, .variant d' c' fs' =>
    ((Ord.compare d d').then (Ord.compare c c')).then (compareAll fs fs')
  | a, b => Ord.compare a.rank b.rank

/-- The lexicographic order of lists of values. -/
def compareAll : List Value → List Value → Ordering
  | [], [] => .eq
  | [], _ :: _ => .lt
  | _ :: _, [] => .gt
  | a :: as, b :: bs => (compare a b).then (compareAll as bs)

/-- The lexicographic order of entries, by key and then by value. -/
def compareEntries : List (Value × Value) → List (Value × Value) → Ordering
  | [], [] => .eq
  | [], _ :: _ => .lt
  | _ :: _, [] => .gt
  | (k, v) :: as, (k', v') :: bs =>
    ((compare k k').then (compare v v')).then (compareEntries as bs)

end

end Value

end TypedLisp
