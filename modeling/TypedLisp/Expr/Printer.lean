import TypedLisp.Expr
import TypedLisp.Ty.Printer

/-!
# The text of typed expressions

One line for each node, with its type, indented by its depth. Type variables have the same names in
the whole tree.
-/

namespace TypedLisp

/-- A piece of a line: text, or a type that is still to be written. -/
inductive Piece where
  | text (s : String)
  | ty (t : Ty)

/-- A line of the outline of an expression. -/
structure Line where
  depth : Nat
  pieces : List Piece

namespace Line

/-- The line of a node: a label and the node's type. -/
def node (depth : Nat) (label : List Piece) (t : Ty) : Line :=
  ⟨depth, label ++ [.text " : ", .ty t]⟩

/-- The types of a line. -/
def types (l : Line) : List Ty :=
  l.pieces.filterMap fun | .text _ => none | .ty t => some t

/-- The line as text, with its end. -/
def render (n : Naming) (l : Line) : String :=
  String.join (List.replicate l.depth "  ") ++
    String.join (l.pieces.map fun | .text s => s | .ty t => n.text t) ++ "\n"

end Line

def Literal.text : Literal → String
  | .bool b => boolText b
  | .int n => intText n
  | .str s => Text.quote s

def Collection.text : Collection → String
  | .vector => "vector"
  | .set => "set"
  | .map => "map"

/-- The lines of a declaration. -/
def Declaration.outline (depth : Nat) (t : Ty) : Declaration → List Line
  | .ns d => [.node depth [.text ("ns " ++ d.ns)] t]
  | .ascribe g declared => [.node depth [.text (":: " ++ g.text ++ " "), .ty declared] t]
  | .host g ref declared =>
    [.node depth [.text ("defj " ++ g.text ++ " " ++ ref.text ++ " "), .ty declared] t]
  | .data d =>
    .node depth [.text ("defdata " ++ d.name.text)] t ::
      d.constructors.map fun c => .node (depth + 1) [.text c.name.text] (d.constructorTy c)

namespace Expr

variable (label : Local → String)

mutual

/-- The lines of an expression at a depth, with a given text for each local. -/
def outline (depth : Nat) : Expr Ty → List Line
  | .literal v n => [.node depth [.text v.text] n.ann]
  | .collection k es n => .node depth [.text k.text] n.ann :: outlineAll (depth + 1) es
  | .localVar x n => [.node depth [.text ("local " ++ label x)] n.ann]
  | .globalVar v n => [.node depth [.text ("global " ++ v.name.text)] n.ann]
  | .call c es n =>
    .node depth [.text "call"] n.ann :: outline (depth + 1) c ++ outlineAll (depth + 1) es
  | .callVar v es n =>
    .node depth [.text ("call " ++ v.name.text)] n.ann :: outlineAll (depth + 1) es
  | .letIn bs b n =>
    .node depth [.text "let"] n.ann :: outlineBindings (depth + 1) bs ++ outline (depth + 1) b
  | .ite t a b n =>
    .node depth [.text "if"] n.ann :: outline (depth + 1) t ++ outline (depth + 1) a ++
      outline (depth + 1) b
  | .fn ps b n =>
    .node depth [.text ("fn (" ++ " ".intercalate (ps.map label) ++ ")")] n.ann ::
      outline (depth + 1) b
  | .define g _ b n => .node depth [.text ("def " ++ g.text)] n.ann :: outline (depth + 1) b
  | .declare d n => d.outline depth n.ann

/-- The lines of several expressions. -/
def outlineAll (depth : Nat) : List (Expr Ty) → List Line
  | [] => []
  | e :: es => outline depth e ++ outlineAll depth es

/-- The lines of bindings: the local on a line of its own, its expression below. -/
def outlineBindings (depth : Nat) : List (Local × Expr Ty) → List Line
  | [] => []
  | (x, e) :: bs =>
    ⟨depth, [.text (label x ++ " =")]⟩ :: outline (depth + 1) e ++ outlineBindings depth bs

end

/-- The text of a typed expression, with a given text for each local. -/
def textWith (e : Expr Ty) : String :=
  let lines := outline label 0 e
  let naming := (lines.flatMap Line.types).foldl Naming.see []
  String.join (lines.map (Line.render naming))

/-- The text of a typed expression. -/
def text (e : Expr Ty) : String := e.textWith Local.text

end Expr

end TypedLisp
