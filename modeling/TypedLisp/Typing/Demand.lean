import TypedLisp.Name
import TypedLisp.Ty.Unify

/-!
# What an expression demands of its locals

Inference goes from the leaves to the root, so a local is used before it is known what it stands
for. The demands of an expression give each local it takes from outside the type that its uses need.
When expressions are put together, the demands on a local that several of them use have to agree.
-/

namespace TypedLisp

/-- The types that an expression needs its free locals to have. -/
abbrev Demands := List (Local × Ty)

namespace Demands

/-- The demands under a substitution. -/
def apply (s : Subst) (d : Demands) : Demands := d.map fun (x, t) => (x, t.apply s)

/-- The demands without those on some locals. -/
def without (d : Demands) (xs : List Local) : Demands := d.filter fun (x, _) => x ∉ xs

/-- The type variables of the demands. -/
def vars (d : Demands) : List TyVar := d.flatMap fun (_, t) => t.vars

/-- The locals with a demand in some of the lists, each once. -/
def locals (ds : List Demands) : List Local := (ds.flatten.map Prod.fst).eraseDups

/-- All demands on a local, in order. -/
def on (ds : List Demands) (x : Local) : List Ty := ds.filterMap fun d => d.lookup x

/-- Puts together the demands on the locals `xs`: a local with several has a new type variable,
counted up from `next`, and equations that make its demands agree. -/
def merge (ds : List Demands) (next : TyVar) :
    List Local → Demands × List Equation × TyVar
  | [] => ([], [], next)
  | x :: xs =>
    match on ds x with
    | [t] =>
      let (d, eqs, next) := merge ds next xs
      ((x, t) :: d, eqs, next)
    | ts =>
      let (d, eqs, next') := merge ds (next + 1) xs
      ((x, .var next) :: d, ts.map (fun t => (.var next, t)) ++ eqs, next')

/-- Puts demands together, and gives the equations that make them agree. -/
def union (ds : List Demands) (next : TyVar) : Demands × List Equation × TyVar :=
  merge ds next (locals ds)

end Demands

end TypedLisp
