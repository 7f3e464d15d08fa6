import TypedLisp.Proofs.Lowering
import TypedLisp.Proofs.Machine.Growth
import TypedLisp.Proofs.Renumbering.Types

/-!
# Expressions and code under other numbers

A *renumbering* changes the numbers of type variables and of locals, and keeps the order of both. It
acts on all that types and locals occur in; what typing does not see of a var may change along with
it (`Recasting`). Closure conversion commutes with it (`Renumbering.lower`), as a function captures
its locals in the order of their numbers.
-/

namespace TypedLisp

/-- Other numbers for type variables and for locals, in the same order. -/
structure Renumbering where
  tyVar : TyVar → TyVar
  localId : Nat → Nat
  tyVar_mono : StrictMono tyVar
  localId_mono : StrictMono localId

namespace Renumbering

variable (ρ : Renumbering)

/-- The renumbering that leaves all numbers as they are. -/
protected def id : Renumbering := ⟨fun v => v, fun n => n, fun _ _ h => h, fun _ _ h => h⟩

theorem tyVar_injective : Function.Injective ρ.tyVar := ρ.tyVar_mono.injective

/-! ## What it acts on -/

def onTy (t : Ty) : Ty := t.rename ρ.tyVar

def onLocal (x : Local) : Local := ⟨x.name, ρ.localId x.id⟩

def onVar (v : Var) : Var :=
  { v with declared := v.declared.map ρ.onTy, inferred := v.inferred.map ρ.onTy }

def onConstructor (c : Constructor) : Constructor := ⟨c.name, c.fields.map (List.map ρ.onTy)⟩

def onDataType (d : DataType) : DataType :=
  ⟨d.name, d.params.map ρ.tyVar, d.constructors.map ρ.onConstructor⟩

def onDeclaration : Declaration → Declaration
  | .ns d => .ns d
  | .ascribe name t => .ascribe name (ρ.onTy t)
  | .data d => .data (ρ.onDataType d)
  | .host name ref t => .host name ref (ρ.onTy t)

def onEnv (e : Env) : Env :=
  { e with
    vars := e.vars.map fun b => (b.1, ρ.onVar b.2)
    dataTypes := e.dataTypes.map fun b => (b.1, ρ.onDataType b.2) }

/-! ## Locals -/

theorem onLocal_injective : Function.Injective ρ.onLocal := fun x y h => by
  obtain ⟨hname, hid⟩ := Local.mk.inj h
  exact Local.mk.injEq .. ▸ ⟨hname, ρ.localId_mono.injective hid⟩

theorem onLocal_mem {x : Local} {xs : List Local} :
    ρ.onLocal x ∈ xs.map ρ.onLocal ↔ x ∈ xs := List.mem_map_of_injective ρ.onLocal_injective

theorem sortLocals_map (xs : List Local) :
    sortLocals (xs.map ρ.onLocal) = (sortLocals xs).map ρ.onLocal := by
  rw [sortLocals, sortLocals, eraseDups_map ρ.onLocal_injective.injOn]
  refine (List.map_mergeSort fun x _ y _ => ?_).symm
  exact decide_eq_decide.2 ρ.localId_mono.le_iff_le.symm

end Renumbering

/-! ## Expressions -/

/-- Other numbers, other places, and other vars that have the same names, and types that only differ
in their numbers. -/
structure Recasting extends Renumbering where
  onRange : Range → Range
  onVar : Var → Var
  name_onVar : ∀ v, (onVar v).name = v.name
  declared_onVar : ∀ v, (onVar v).declared = v.declared.map toRenumbering.onTy
  visible_onVar : ∀ v, (onVar v).visible = v.visible.map toRenumbering.onTy

namespace Recasting

open Renumbering

variable (ρ : Recasting)

def onEnv (e : Env) : Env :=
  { e with
    vars := e.vars.map fun b => (b.1, ρ.onVar b.2)
    dataTypes := e.dataTypes.map fun b => (b.1, ρ.onDataType b.2) }

section Exprs

variable {α β γ : Type}

def onNote (r : α → β) (n : Note α) : Note β := ⟨ρ.onRange n.range, r n.ann⟩

mutual

/-- The expression with other numbers and places, and its annotations changed as `r` says. -/
def onExpr (r : α → β) : Expr α → Expr β
  | .literal v n => .literal v (ρ.onNote r n)
  | .collection k es n => .collection k (onExprs r es) (ρ.onNote r n)
  | .localVar x n => .localVar (ρ.onLocal x) (ρ.onNote r n)
  | .globalVar v n => .globalVar (ρ.onVar v) (ρ.onNote r n)
  | .call c es n => .call (onExpr r c) (onExprs r es) (ρ.onNote r n)
  | .callVar v es n => .callVar (ρ.onVar v) (onExprs r es) (ρ.onNote r n)
  | .letIn bs b n => .letIn (onBindings r bs) (onExpr r b) (ρ.onNote r n)
  | .ite t a b n => .ite (onExpr r t) (onExpr r a) (onExpr r b) (ρ.onNote r n)
  | .fn ps b n => .fn (ps.map ρ.onLocal) (onExpr r b) (ρ.onNote r n)
  | .define g d b n => .define g (d.map ρ.onTy) (onExpr r b) (ρ.onNote r n)
  | .declare d n => .declare (ρ.onDeclaration d) (ρ.onNote r n)

def onExprs (r : α → β) : List (Expr α) → List (Expr β)
  | [] => []
  | e :: es => onExpr r e :: onExprs r es

def onBindings (r : α → β) : List (Local × Expr α) → List (Local × Expr β)
  | [] => []
  | (x, e) :: bs => (ρ.onLocal x, onExpr r e) :: onBindings r bs

end

@[simp] theorem onExprs_eq_map (r : α → β) (es : List (Expr α)) :
    ρ.onExprs r es = es.map (ρ.onExpr r) := by
  induction es with
  | nil => rfl
  | cons e es ih => rw [onExprs, ih, List.map_cons]

@[simp] theorem onBindings_eq_map (r : α → β) (bs : List (Local × Expr α)) :
    ρ.onBindings r bs = bs.map fun b => (ρ.onLocal b.1, ρ.onExpr r b.2) := by
  induction bs with
  | nil => rfl
  | cons b bs ih =>
    obtain ⟨x, e⟩ := b
    rw [onBindings, ih, List.map_cons]

@[simp] theorem ann_onExpr (r : α → β) (e : Expr α) : (ρ.onExpr r e).ann = r e.ann := by
  cases e <;> rfl

theorem map_onExpr_map {δ : Type} (f : α → β) (r : β → γ) (g : γ → δ) (e : Expr α) :
    (ρ.onExpr r (e.map f)).map g = ρ.onExpr (g ∘ r ∘ f) e := by
  induction e with
  | literal | localVar | globalVar | declare => rfl
  | collection k es n ih =>
    simp only [Expr.map, Expr.mapAll_eq_map, onExpr, onExprs_eq_map, List.map_map]
    exact congrArg (Expr.collection k · _) (List.map_congr_left ih)
  | call c es n ihc ih =>
    simp only [Expr.map, Expr.mapAll_eq_map, onExpr, onExprs_eq_map, List.map_map, ihc]
    exact congrArg (Expr.call _ · _) (List.map_congr_left ih)
  | callVar v es n ih =>
    simp only [Expr.map, Expr.mapAll_eq_map, onExpr, onExprs_eq_map, List.map_map]
    exact congrArg (Expr.callVar _ · _) (List.map_congr_left ih)
  | letIn bs e n ihbs ihe =>
    simp only [Expr.map, Expr.mapBindings_eq_map, onExpr, onBindings_eq_map, List.map_map, ihe]
    refine congrArg (Expr.letIn · _ _) (List.map_congr_left fun b hb => ?_)
    exact congrArg (ρ.onLocal b.1, ·) (ihbs b hb)
  | ite t a b n iht iha ihb => simp only [Expr.map, onExpr, iht, iha, ihb]; rfl
  | fn ps e n ih => simp only [Expr.map, onExpr, ih]; rfl
  | define g d e n ih => simp only [Expr.map, onExpr, ih]; rfl

end Exprs

section FreeLocals

variable {α β : Type} {r : α → β}

theorem freeLocalsAll_onExprs_of {es : List (Expr α)} (h : ∀ e ∈ es, ∀ bound,
      (ρ.onExpr r e).freeLocals (bound.map ρ.onLocal) = (e.freeLocals bound).map ρ.onLocal)
    (bound : List Local) : Expr.freeLocalsAll (bound.map ρ.onLocal) (es.map (ρ.onExpr r)) =
      (Expr.freeLocalsAll bound es).map ρ.onLocal := by
  induction es with
  | nil => rfl
  | cons e es ih =>
    obtain ⟨he, hes⟩ := List.forall_mem_cons.1 h
    rw [List.map_cons, Expr.freeLocalsAll, Expr.freeLocalsAll, he, ih hes, List.map_append]

theorem freeLocalsLet_onBindings_of {bs : List (Local × Expr α)} (h : ∀ b ∈ bs, ∀ bound,
      (ρ.onExpr r b.2).freeLocals (bound.map ρ.onLocal) = (b.2.freeLocals bound).map ρ.onLocal)
    (bound : List Local) :
    Expr.freeLocalsLet (bound.map ρ.onLocal) (bs.map fun b => (ρ.onLocal b.1, ρ.onExpr r b.2)) =
      (Expr.freeLocalsLet bound bs).map ρ.onLocal := by
  induction bs generalizing bound with
  | nil => rfl
  | cons b bs ih =>
    obtain ⟨x, e⟩ := b
    obtain ⟨he, hbs⟩ := List.forall_mem_cons.1 h
    have hrest := ih hbs (x :: bound)
    rw [List.map_cons] at hrest
    rw [List.map_cons, Expr.freeLocalsLet, Expr.freeLocalsLet, he, hrest, List.map_append]

theorem names_onBindings (r : α → β) (bs : List (Local × Expr α)) (bound : List Local) :
    (bs.map fun b => (ρ.onLocal b.1, ρ.onExpr r b.2)).map Prod.fst ++ bound.map ρ.onLocal =
      (bs.map Prod.fst ++ bound).map ρ.onLocal := by
  simp [List.map_map, Function.comp_def]

theorem freeLocals_onExpr (r : α → β) (e : Expr α) (bound : List Local) :
    (ρ.onExpr r e).freeLocals (bound.map ρ.onLocal) = (e.freeLocals bound).map ρ.onLocal := by
  induction e generalizing bound with
  | literal | globalVar | declare => rfl
  | localVar x n =>
    simp only [onExpr, Expr.freeLocals, onLocal_mem]
    split <;> rfl
  | collection k es n ih =>
    simpa only [onExpr, onExprs_eq_map, Expr.freeLocals] using ρ.freeLocalsAll_onExprs_of ih bound
  | call c es n ihc ih =>
    simp only [onExpr, onExprs_eq_map, Expr.freeLocals, ihc, ρ.freeLocalsAll_onExprs_of ih,
      List.map_append]
  | callVar v es n ih =>
    simpa only [onExpr, onExprs_eq_map, Expr.freeLocals] using ρ.freeLocalsAll_onExprs_of ih bound
  | letIn bs e n ihbs ihe =>
    rw [onExpr, onBindings_eq_map, Expr.freeLocals, Expr.freeLocals, names_onBindings,
      ρ.freeLocalsLet_onBindings_of ihbs, ihe, List.map_append]
  | ite t a b n iht iha ihb => simp only [onExpr, Expr.freeLocals, iht, iha, ihb, List.map_append]
  | fn ps e n ih =>
    simp only [onExpr, Expr.freeLocals]
    rw [← List.map_append, ih]
  | define g d e n ih => exact ih bound

theorem closedOver_onExpr (r : α → β) (e : Expr α) (bound : List Local) :
    (ρ.onExpr r e).closedOver (bound.map ρ.onLocal) = (e.closedOver bound).map ρ.onLocal := by
  rw [Expr.closedOver, Expr.closedOver, freeLocals_onExpr, sortLocals_map]

end FreeLocals

end Recasting

namespace Renumbering

variable (ρ : Renumbering)

/-- The renumbering with the vars renumbered, and with other places. -/
abbrev recasting (g : Range → Range := id) : Recasting where
  toRenumbering := ρ
  onRange := g
  onVar := ρ.onVar
  name_onVar _ := rfl
  declared_onVar _ := rfl
  visible_onVar v := by cases hd : v.declared <;> simp [Var.visible, onVar, hd]

abbrev onExpr {α β : Type} (r : α → β) (e : Expr α) : Expr β := ρ.recasting.onExpr r e

/-! ## Code -/

mutual

/-- The code with other numbers for its locals. -/
def onCode : Code → Code
  | .literal v => .literal v
  | .collection k cs => .collection k (onCodes cs)
  | .slot x => .slot (ρ.onLocal x)
  | .load c => .load c
  | .call f cs => .call (onCode f) (onCodes cs)
  | .letIn bs c => .letIn (onCodeBindings bs) (onCode c)
  | .ite t a b => .ite (onCode t) (onCode a) (onCode b)
  | .closure ps xs c => .closure (ps.map ρ.onLocal) (xs.map ρ.onLocal) (onCode c)

def onCodes : List Code → List Code
  | [] => []
  | c :: cs => onCode c :: onCodes cs

def onCodeBindings : List (Local × Code) → List (Local × Code)
  | [] => []
  | (x, c) :: bs => (ρ.onLocal x, onCode c) :: onCodeBindings bs

end

@[simp] theorem onCodes_eq_map (cs : List Code) : ρ.onCodes cs = cs.map ρ.onCode := by
  induction cs with
  | nil => rfl
  | cons c cs ih => rw [onCodes, ih, List.map_cons]

@[simp] theorem onCodeBindings_eq_map (bs : List (Local × Code)) :
    ρ.onCodeBindings bs = bs.map fun b => (ρ.onLocal b.1, ρ.onCode b.2) := by
  induction bs with
  | nil => rfl
  | cons b bs ih =>
    obtain ⟨x, c⟩ := b
    rw [onCodeBindings, ih, List.map_cons]

theorem onTy_id (t : Ty) : Renumbering.id.onTy t = t := Ty.rename_eq_self fun _ _ => rfl

theorem onVar_id (v : Var) : Renumbering.id.onVar v = v := by
  rw [onVar, funext onTy_id, Option.map_id', Option.map_id']

theorem onDataType_id (d : DataType) : Renumbering.id.onDataType d = d := by
  have hconstructor : ∀ c, Renumbering.id.onConstructor c = c := fun c => by
    rw [onConstructor, funext onTy_id, List.map_id_fun', Option.map_id]
    rfl
  rw [onDataType, funext hconstructor, List.map_id']
  exact congrArg (DataType.mk d.name · _) (List.map_id _)

theorem onDeclaration_id (d : Declaration) : Renumbering.id.onDeclaration d = d := by
  cases d with
  | ns d => rfl
  | ascribe name t => rw [onDeclaration, onTy_id]
  | data d => rw [onDeclaration, onDataType_id]
  | host name ref t => rw [onDeclaration, onTy_id]

theorem onEnv_id (e : Env) : Renumbering.id.onEnv e = e := by
  simp only [onEnv, onVar_id, onDataType_id, List.map_id']

theorem map_onLocal_id (xs : List Local) : xs.map Renumbering.id.onLocal = xs := List.map_id xs

theorem onCode_id (c : Code) : Renumbering.id.onCode c = c := by
  induction c with
  | literal | slot | load => rfl
  | collection k cs ih =>
    simp only [onCode, onCodes_eq_map, List.map_congr_left ih, List.map_id']
  | call f cs ihf ih =>
    simp only [onCode, onCodes_eq_map, List.map_congr_left ih, List.map_id', ihf]
  | letIn bs c ihbs ihc =>
    have hbs : (bs.map fun b => (Renumbering.id.onLocal b.1, Renumbering.id.onCode b.2)) = bs := by
      rw [List.map_congr_left fun b hb => by rw [ihbs b hb]]
      exact List.map_id bs
    simp only [onCode, onCodeBindings_eq_map, hbs, ihc]
  | ite t a b iht iha ihb => simp only [onCode, iht, iha, ihb]
  | closure ps xs c ih => simp only [onCode, map_onLocal_id, ih]

end Renumbering

namespace Recasting

open Renumbering

/-! ## Expressions whose numbers stay -/

variable {ρ : Recasting} {α β : Type}

theorem onExpr_fn (hρ : ρ.toRenumbering = .id) (r : α → β) (ps : List Local) (e : Expr α)
    (n : Note α) : ρ.onExpr r (.fn ps e n) = .fn ps (ρ.onExpr r e) (ρ.onNote r n) := by
  rw [onExpr, hρ, map_onLocal_id]

theorem onExpr_define (hρ : ρ.toRenumbering = .id) (r : α → β) (g : GlobalName) (d : Option Ty)
    (e : Expr α) (n : Note α) :
    ρ.onExpr r (.define g d e n) = .define g d (ρ.onExpr r e) (ρ.onNote r n) := by
  rw [onExpr, hρ, funext onTy_id, Option.map_id']

theorem onExpr_declare (hρ : ρ.toRenumbering = .id) (r : α → β) (d : Declaration) (n : Note α) :
    ρ.onExpr r (.declare d n) = .declare d (ρ.onNote r n) := by
  rw [onExpr, hρ, onDeclaration_id]

end Recasting

namespace Renumbering

variable (ρ : Renumbering)

/-! ## Closure conversion -/

/-- The error with other numbers and places. -/
def onLowerError (g : Range → Range) : LowerError → LowerError
  | .outOfScope x => .outOfScope (ρ.onLocal x)
  | .constructorArity name expected found r => .constructorArity name expected found (g r)
  | e => e

theorem lookupLocal_onLocal (g : Range → Range) (scope : List Local) (x : Local) :
    lookupLocal (scope.map ρ.onLocal) (ρ.onLocal x) =
      changed ρ.onLocal (ρ.onLowerError g) (lookupLocal scope x) := by
  simp only [lookupLocal, onLocal_mem]
  split <;> rfl

theorem checkConstructor_onVar (g : Range → Range) (v : Var) (n : Nat) (range : Range) :
    checkConstructor (ρ.onVar v) n (g range) =
      changed id (ρ.onLowerError g) (checkConstructor v n range) := by
  show checkConstructor v n (g range) = _
  unfold checkConstructor
  split
  · rfl
  · split <;> rfl

section Lowering

variable {α β : Type} {g : Range → Range} {r : α → β}

theorem lowerAll_of {es : List (Expr α)} (h : ∀ e ∈ es, ∀ scope,
      ((ρ.recasting g).onExpr r e).lower (scope.map ρ.onLocal) =
        changed ρ.onCode (ρ.onLowerError g) (e.lower scope)) (scope : List Local) :
    Expr.lowerAll (scope.map ρ.onLocal) (es.map ((ρ.recasting g).onExpr r)) =
      changed (List.map ρ.onCode) (ρ.onLowerError g) (Expr.lowerAll scope es) := by
  induction es with
  | nil => rfl
  | cons e es ih =>
    obtain ⟨he, hes⟩ := List.forall_mem_cons.1 h
    rw [List.map_cons, Expr.lowerAll, Expr.lowerAll, he, ih hes]
    exact changed_bind fun c => changed_bind fun cs => rfl

theorem lowerBindings_of {bs : List (Local × Expr α)} (h : ∀ b ∈ bs, ∀ scope,
      ((ρ.recasting g).onExpr r b.2).lower (scope.map ρ.onLocal) =
        changed ρ.onCode (ρ.onLowerError g) (b.2.lower scope)) (scope : List Local) :
    Expr.lowerBindings (scope.map ρ.onLocal)
        (bs.map fun b => (ρ.onLocal b.1, (ρ.recasting g).onExpr r b.2)) =
      changed (List.map fun b => (ρ.onLocal b.1, ρ.onCode b.2)) (ρ.onLowerError g)
        (Expr.lowerBindings scope bs) := by
  induction bs generalizing scope with
  | nil => rfl
  | cons b bs ih =>
    obtain ⟨x, e⟩ := b
    obtain ⟨he, hbs⟩ := List.forall_mem_cons.1 h
    have hrest := ih hbs (x :: scope)
    rw [List.map_cons] at hrest
    rw [List.map_cons, Expr.lowerBindings, Expr.lowerBindings, he, hrest]
    exact changed_bind fun c => changed_bind fun cs => rfl

/-- **Closure conversion commutes with a renumbering.** -/
theorem lower (g : Range → Range) (r : α → β) (e : Expr α) (scope : List Local) :
    ((ρ.recasting g).onExpr r e).lower (scope.map ρ.onLocal) =
      changed ρ.onCode (ρ.onLowerError g) (e.lower scope) := by
  induction e generalizing scope with
  | literal | globalVar => rfl
  | localVar x n =>
    rw [Recasting.onExpr, Expr.lower, Expr.lower, ρ.lookupLocal_onLocal g]
    exact changed_bind fun x => rfl
  | collection k es n ih =>
    rw [Recasting.onExpr, Recasting.onExprs_eq_map, Expr.lower, Expr.lower, ρ.lowerAll_of ih]
    exact changed_bind fun cs => by rw [← onCodes_eq_map]; rfl
  | call c es n ihc ih =>
    rw [Recasting.onExpr, Recasting.onExprs_eq_map, Expr.lower, Expr.lower, ihc, ρ.lowerAll_of ih]
    exact changed_bind fun c => changed_bind fun cs => by rw [← onCodes_eq_map]; rfl
  | callVar v es n ih =>
    rw [Recasting.onExpr, Recasting.onExprs_eq_map, Expr.lower, Expr.lower, List.length_map,
      Recasting.onNote, ρ.checkConstructor_onVar, ρ.lowerAll_of ih]
    exact changed_bind fun _ => changed_bind fun cs => by rw [← onCodes_eq_map]; rfl
  | letIn bs e n ihbs ihe =>
    rw [Recasting.onExpr, Recasting.onBindings_eq_map, Expr.lower, Expr.lower,
      Recasting.names_onBindings, ρ.lowerBindings_of ihbs, ihe]
    exact changed_bind fun bs => changed_bind fun c => by rw [← onCodeBindings_eq_map]; rfl
  | ite t a b n iht iha ihb =>
    rw [Recasting.onExpr, Expr.lower, Expr.lower, iht, iha, ihb]
    exact changed_bind fun t => changed_bind fun a => changed_bind fun b => rfl
  | fn ps e n ih =>
    rw [Recasting.onExpr, Expr.lower, Expr.lower, Recasting.closedOver_onExpr,
      changed_mapM fun x _ => ρ.lookupLocal_onLocal g scope x]
    refine changed_bind fun captures => ?_
    rw [← List.map_append, ih]
    exact changed_bind fun c => rfl
  | define => rfl
  | declare d n => cases d <;> rfl

end Lowering

end Renumbering

end TypedLisp
