import TypedLisp.Ty.Unify

/-!
# The text of types

Variables are shown as `a`, `b`, … in the order in which they first appear. A `Naming` keeps that
order over several types, so that types shown together share their names.
-/

namespace TypedLisp

namespace Ty

mutual

/-- The text of a type, with a given text for each variable. -/
def textWith (name : TyVar → String) : Ty → String
  | .bool => "Bool"
  | .str => "Str"
  | .int => "Int"
  | .effect => "EnvIO"
  | .vector e => "[" ++ textWith name e ++ "]"
  | .set e => "#\x7b" ++ textWith name e ++ "\x7d"
  | .map k v => "\x7b" ++ textWith name k ++ " " ++ textWith name v ++ "\x7d"
  | .fn ps r => "(Fn " ++ textsWith name ps ++ textWith name r ++ ")"
  | .var v => name v
  | .data n => n
  | .applied b as => "(" ++ textWith name b ++ argsWith name as ++ ")"

/-- The texts of some types, each with a space after it. -/
def textsWith (name : TyVar → String) : List Ty → String
  | [] => ""
  | t :: ts => textWith name t ++ " " ++ textsWith name ts

/-- The texts of some types, each with a space before it. -/
def argsWith (name : TyVar → String) : List Ty → String
  | [] => ""
  | t :: ts => " " ++ textWith name t ++ argsWith name ts

end

end Ty

/-- The name of the variable with the given place in the order: a letter, and from the
twenty-seventh on a number after it. -/
def varName (i : Nat) : String :=
  let letter := String.singleton (Char.ofNat ('a'.toNat + i % 26))
  if i < 26 then letter else letter ++ toString (i / 26)

/-- The variables seen so far, in the order of their first appearance. -/
abbrev Naming := List TyVar

namespace Naming

/-- Takes in the variables of a type. -/
def see (n : Naming) (t : Ty) : Naming := (n ++ t.vars).eraseDups

/-- The text of a type whose variables have been seen. -/
def text (n : Naming) (t : Ty) : String := t.textWith fun v => varName (n.idxOf v)

/-- The text of one more type, and the naming after it. -/
def render (n : Naming) (t : Ty) : String × Naming := ((n.see t).text t, n.see t)

/-- The texts of several types under one naming. -/
def renderAll (n : Naming) : List Ty → List String × Naming
  | [] => ([], n)
  | t :: ts =>
    let (s, n) := n.render t
    let (ss, n) := renderAll n ts
    (s :: ss, n)

end Naming

/-- The text of a type on its own. -/
def Ty.text (t : Ty) : String := (Naming.render [] t).1

/-- Two types shown together. -/
def Ty.textPair (a b : Ty) : String × String :=
  let (s, n) := Naming.render [] a
  (s, (n.render b).1)

/-- The text of a substitution, by ascending variable and under one naming. -/
def Subst.text (s : Subst) : String :=
  let rec go (n : Naming) : Subst → List String
    | [] => []
    | (v, t) :: rest =>
      let (left, n) := n.render (.var v)
      let (right, n) := n.render t
      (left ++ " := " ++ right) :: go n rest
  "\x7b" ++ ", ".intercalate (go [] s.sorted) ++ "\x7d"

def UnifyError.message : UnifyError → String
  | .mismatch l r =>
    let (l, r) := Ty.textPair l r
    "cannot unify " ++ l ++ " with " ++ r
  | .circular v t =>
    let (v, t) := Ty.textPair (.var v) t
    "circular type: " ++ v ++ " occurs in " ++ t

end TypedLisp
