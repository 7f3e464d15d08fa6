import TypedLisp.Ty.Alpha
import TypedLisp.Ty.Unify

/-!
# Instances of types

A type stands for all the types that come from it by replacing variables. `Ty.instantiate` replaces
its variables by new ones; `Ty.subtypeOf` tests whether one type is an instance of another.
New variables are counted up from a number above all variables in use.
-/

namespace TypedLisp

/-- Sends each of the variables to a new one, counted up from `next`. -/
def Subst.fresh (vs : List TyVar) (next : TyVar) : Subst :=
  vs.zipIdx next |>.map fun (v, w) => (v, .var w)

/-- The type with new variables, counted up from `next`; and the first number not used. -/
def Ty.instantiate (t : Ty) (next : TyVar) : Ty × TyVar :=
  (t.apply (Subst.fresh t.freeVars next), next + t.freeVars.length)

/-- Whether the first type is an instance of the second. The two should have no variable in
common. -/
def Ty.subtypeOf (t u : Ty) : Bool :=
  match unify [(t, u)] with
  | .ok s => t.alphaEquivalent (u.apply s)
  | .error _ => false

end TypedLisp
