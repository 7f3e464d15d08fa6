import TypedLisp.Ty.Subst

/-!
# Equality up to the names of variables

Two types are alpha-equivalent when renaming variables one-to-one makes them the same. `Ty.pairUp`
walks through two types at once and collects the renaming in both directions; it can go on from a
renaming found before, so several pairs of types can share one.
-/

namespace TypedLisp

/-- Variables paired with variables, in both directions. -/
structure Renaming where
  forward : List (TyVar × TyVar) := []
  backward : List (TyVar × TyVar) := []
deriving Repr

/-- Pairs two variables unless one of them has another partner. -/
def Renaming.pair (r : Renaming) (a b : TyVar) : Bool × Renaming :=
  match r.forward.lookup a, r.backward.lookup b with
  | none, none => (true, ⟨(a, b) :: r.forward, (b, a) :: r.backward⟩)
  | some b', some a' => (b' == b && a' == a, r)
  | _, _ => (false, r)

namespace Ty

mutual

/-- Whether the types agree with their variables paired up, going on from a renaming; with the pairs
found up to the first disagreement. -/
def pairUp (r : Renaming) : Ty → Ty → Bool × Renaming
  | .bool, .bool => (true, r)
  | .str, .str => (true, r)
  | .int, .int => (true, r)
  | .effect, .effect => (true, r)
  | .vector a, .vector b => pairUp r a b
  | .set a, .set b => pairUp r a b
  | .map k v, .map k' v' =>
    match pairUp r k k' with
    | (true, r) => pairUp r v v'
    | (false, r) => (false, r)
  | .fn ps t, .fn ps' t' =>
    if ps.length = ps'.length then
      match pairUpAll r ps ps' with
      | (true, r) => pairUp r t t'
      | (false, r) => (false, r)
    else (false, r)
  | .var a, .var b => r.pair a b
  | .data n, .data n' => (n == n', r)
  | .applied b as, .applied b' as' =>
    if as.length = as'.length then
      match pairUp r b b' with
      | (true, r) => pairUpAll r as as'
      | (false, r) => (false, r)
    else (false, r)
  | _, _ => (false, r)

/-- The same for two lists of types, item by item. -/
def pairUpAll (r : Renaming) : List Ty → List Ty → Bool × Renaming
  | [], [] => (true, r)
  | a :: as, b :: bs =>
    match pairUp r a b with
    | (true, r) => pairUpAll r as bs
    | (false, r) => (false, r)
  | _, _ => (false, r)

end

/-- Whether a one-to-one renaming of variables makes the types the same. -/
def alphaEquivalent (a b : Ty) : Bool := (pairUp {} a b).1

end Ty

end TypedLisp
