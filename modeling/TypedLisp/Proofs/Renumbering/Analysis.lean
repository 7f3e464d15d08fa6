import TypedLisp.Proofs.Relocation.Forms
import TypedLisp.Proofs.Renumbering.Expressions
import TypedLisp.Proofs.Renumbering.Runs
import TypedLisp.Proofs.TypeForms

/-!
# Analysis under other numbers and in other places

Analysis of a form that has moved, in a recast environment and started at a renumbered supply,
follows analysis of the form in the environment: it gives the recast expression, or it fails with
the same error at the other place (`Recasting.follows_analyse`). An error of analysis has no numbers
in it; the text of a type that its message shows does not depend on them.
-/

namespace TypedLisp

namespace Renumbering

variable (ρ : Renumbering)

/-! ## What analysis works with -/

def onSupply (s : Supply) : Supply := ⟨ρ.tyVar s.tyVar, ρ.localId s.localId⟩

def onNames (n : TyNames) : TyNames := ⟨n.named.map fun e => (e.1, ρ.tyVar e.2), ρ.tyVar n.next⟩

end Renumbering

/-! ## Lookup in the environment -/

namespace Recasting

open Renumbering

variable (ρ : Recasting)

/-- The form in its other place. -/
abbrev onForm (f : Form) : Form := f.relocate ρ.onRange

/-- The change that analysis of forms is followed under. -/
def analysing : Change Supply AnalysisError where
  state := ρ.onSupply
  error := .relocate ρ.onRange
  Good s := Shifts ρ.tyVar s.tyVar ∧ Shifts ρ.localId s.localId

/-- The change that analysis of type forms is followed under. -/
def naming : Change TyNames AnalysisError where
  state := ρ.onNames
  error := .relocate ρ.onRange
  Good n := Shifts ρ.tyVar n.next

def onScope (c : Scope) : Scope := ⟨ρ.onEnv c.env, c.ns, c.locals.map ρ.onLocal⟩

def onContext (c : TypeContext) : TypeContext := { c with env := ρ.onEnv c.env }

section Lookup

variable (e : Env)

theorem var?_onEnv (g : GlobalName) : (ρ.onEnv e).var? g = (e.var? g).map ρ.onVar :=
  lookup_map_snd ρ.onVar e.vars g

theorem dataType?_onEnv (g : GlobalName) :
    (ρ.onEnv e).dataType? g = (e.dataType? g).map ρ.onDataType :=
  lookup_map_snd ρ.onDataType e.dataTypes g

theorem resolveIn_map {α β : Type} (f : α → β) (e : Env) (ns sym : String)
    (table : Table GlobalName α) : e.resolveIn ns sym (table.map fun b => (b.1, f b.2)) =
      (e.resolveIn ns sym table).map f := by
  have hget : ∀ g, Table.get? (table.map fun b => (b.1, f b.2)) g = (Table.get? table g).map f :=
    lookup_map_snd f table
  unfold Env.resolveIn
  rw [hget]
  cases Table.get? table ⟨ns, sym⟩ with
  | some a => rfl
  | none =>
    dsimp only [Option.map_none]
    cases (e.tables? ns).bind (·.refers.get? sym) with
    | some target => exact hget target
    | none => exact hget _

theorem resolveVar_onEnv (ns sym : String) :
    (ρ.onEnv e).resolveVar ns sym = (e.resolveVar ns sym).map ρ.onVar :=
  resolveIn_map ρ.onVar e ns sym e.vars

theorem resolveDataType_onEnv (ns sym : String) :
    (ρ.onEnv e).resolveDataType ns sym = (e.resolveDataType ns sym).map ρ.onDataType :=
  resolveIn_map ρ.onDataType e ns sym e.dataTypes

theorem resolveQualifiedVar_onEnv (ns qualifier sym : String) :
    (ρ.onEnv e).resolveQualifiedVar ns qualifier sym =
      (e.resolveQualifiedVar ns qualifier sym).map ρ.onVar := by
  unfold Env.resolveQualifiedVar
  show (e.resolveQualifier ns qualifier).bind _ = _
  cases e.resolveQualifier ns qualifier with
  | none => rfl
  | some target => exact ρ.var?_onEnv e _

theorem resolveQualifiedDataType_onEnv (ns qualifier sym : String) :
    (ρ.onEnv e).resolveQualifiedDataType ns qualifier sym =
      (e.resolveQualifiedDataType ns qualifier sym).map ρ.onDataType := by
  unfold Env.resolveQualifiedDataType
  show (e.resolveQualifier ns qualifier).bind _ = _
  cases e.resolveQualifier ns qualifier with
  | none => rfl
  | some target => exact ρ.dataType?_onEnv e _

end Lookup

/-! ## Updates of the environment -/

theorem onEnv_ensureNs (e : Env) (ns : String) :
    (ρ.onEnv e).ensureNs ns = ρ.onEnv (e.ensureNs ns) := by
  unfold Env.ensureNs
  show (if e.namespaces.contains ns then _ else _) = _
  split <;> rfl

theorem onEnv_withVar (e : Env) (v : Var) :
    (ρ.onEnv e).withVar (ρ.onVar v) = ρ.onEnv (e.withVar v) := by
  unfold Env.withVar
  rw [ρ.name_onVar, onEnv_ensureNs]
  exact congrArg (fun vars => Env.mk _ vars _ _) (Table.insert_map ρ.onVar e.vars v.name v)

theorem onEnv_withDataType (e : Env) (d : DataType) (vs : List Var) :
    (ρ.onEnv e).withDataType (ρ.onDataType d) (vs.map ρ.onVar) = ρ.onEnv (e.withDataType d vs) := by
  have hvars : ∀ vars : Table GlobalName Var,
      (vs.map ρ.onVar).foldl (fun (vars : Table GlobalName Var) v => vars.insert v.name v)
          (vars.map fun b => (b.1, ρ.onVar b.2)) =
        (vs.foldl (fun (vars : Table GlobalName Var) v => vars.insert v.name v) vars).map
          fun b => (b.1, ρ.onVar b.2) := by
    induction vs with
    | nil => exact fun _ => rfl
    | cons v vs ih =>
      intro vars
      rw [List.map_cons, List.foldl_cons, List.foldl_cons, ← ih, ρ.name_onVar]
      exact congrArg (List.foldl _ · _) (Table.insert_map ρ.onVar vars v.name v)
  unfold Env.withDataType
  rw [show (ρ.onDataType d).name = d.name from rfl, onEnv_ensureNs]
  exact congrArg₂ (fun vars types => Env.mk _ vars types _) (hvars e.vars)
    (Table.insert_map ρ.onDataType e.dataTypes d.name d)

theorem local?_onScope (c : Scope) (name : String) :
    (ρ.onScope c).local? name = (c.local? name).map ρ.onLocal := by
  unfold Scope.local? onScope
  rw [List.find?_map]
  rfl

end Recasting

/-! ## Errors -/

namespace Follows

variable {σ α α' : Type} {c : Change σ AnalysisError} {r : α → α'}

theorem malformed {message : String} {range range' : Range}
    (h : c.error ⟨.malformed message, range⟩ = ⟨.malformed message, range'⟩) :
    Follows c r (TypedLisp.malformed message range) (TypedLisp.malformed message range') := .throw h

theorem malformed_bind {β β' : Type} {q : β → β'} {message : String} {range range' : Range}
    {k : α → StateT σ (Except AnalysisError) β} {k' : α' → StateT σ (Except AnalysisError) β'}
    (h : c.error ⟨.malformed message, range⟩ = ⟨.malformed message, range'⟩) :
    Follows c q (TypedLisp.malformed message range >>= k)
      (TypedLisp.malformed message range' >>= k') := fun s hs =>
  (malformed h : Follows c q _ _) s hs

/-- What comes after a computation without a state may rely on what is known of its result. -/
theorem lift_bind {β β' : Type} {q : β → β'} {P : α → Prop} {x : Except AnalysisError α}
    {x' : Except AnalysisError α'} {k : α → StateT σ (Except AnalysisError) β}
    {k' : α' → StateT σ (Except AnalysisError) β'} (hx : x' = changed r c.error x)
    (hP : ∀ a, x = .ok a → P a) (hk : ∀ a, P a → Follows c q (k a) (k' (r a))) :
    Follows c q (liftM x >>= k) (liftM x' >>= k') := fun s hs => by
  subst hx
  cases x with
  | error e => exact rfl
  | ok a => exact hk a (hP a rfl) s hs

theorem run_bind {τ β β' : Type} {d : Change τ AnalysisError} {q : β → β'}
    {act : StateT τ (Except AnalysisError) α} {act' : StateT τ (Except AnalysisError) α'}
    {k : α × τ → StateT σ (Except AnalysisError) β}
    {k' : α' × τ → StateT σ (Except AnalysisError) β'} (h : Follows d r act act')
    (hd : d.error = c.error) {n n' : τ} (hn : d.Good n) (hn' : d.state n = n')
    (hk : ∀ a n, d.Good n → Follows c q (k (a, n)) (k' (r a, d.state n))) :
    Follows c q (liftM (act.run n) >>= k) (liftM (act'.run n') >>= k') := by
  subst hn'
  exact lift_bind (P := fun p => d.Good p.2) (hd ▸ h.run_eq hn) (fun p hp => (h.run_ok hn hp).2)
    fun p hp => hk p.1 p.2 hp

end Follows

namespace Recasting

open Renumbering

variable (ρ : Recasting)

theorem follows_bindingName (f : Form) :
    Follows ρ.analysing id (liftM (bindingName f)) (liftM (bindingName (ρ.onForm f))) :=
  .lift (bindingName_relocate ρ.onRange f)

/-! ## Expressions -/

theorem follows_newLocal (name : String) :
    Follows ρ.analysing ρ.onLocal (newLocal name) (newLocal name) := by
  refine .get_bind fun s hs => .bind (r := id) ?_ fun _ => .pure rfl
  exact .set (congrArg (Supply.mk (ρ.tyVar s.tyVar)) (hs.2 1)) ⟨hs.1, hs.2.add 1⟩

theorem follows_atomExpr (c : Scope) (a : Atom) (r : Range) :
    Follows ρ.analysing (ρ.onExpr id) (liftM (atomExpr c a r))
      (liftM (atomExpr (ρ.onScope c) a (ρ.onRange r))) := by
  refine .lift ?_
  cases a with
  | bool | int | str => rfl
  | symbol name =>
    simp only [atomExpr, local?_onScope]
    cases c.local? name with
    | some x => rfl
    | none =>
      simp only [Option.map_none, onScope, resolveVar_onEnv]
      cases c.env.resolveVar c.ns name <;> rfl
  | qualified qualifier name =>
    simp only [atomExpr, onScope, resolveQualifiedVar_onEnv]
    cases c.env.resolveQualifiedVar c.ns qualifier name <;> rfl

theorem onExpr_mkCall (callee : Expr Unit) (args : List (Expr Unit)) (r : Range) :
    ρ.onExpr id (Expr.mkCall callee args r) =
      Expr.mkCall (ρ.onExpr id callee) (args.map (ρ.onExpr id)) (ρ.onRange r) := by
  cases callee <;> simp only [Expr.mkCall, onExpr, onExprs_eq_map] <;> rfl

/-- New locals, and the scope inside them. -/
def onParams (p : List Local × Scope) : List Local × Scope :=
  (p.1.map ρ.onLocal, ρ.onScope p.2)

theorem follows_bindParams (c : Scope) (ps : List Form) :
    Follows ρ.analysing ρ.onParams (bindParams c ps)
      (bindParams (ρ.onScope c) (ps.map ρ.onForm)) := by
  induction ps generalizing c with
  | nil => exact .pure rfl
  | cons p ps ih =>
    exact (ρ.follows_bindingName p).bind fun name =>
      (ρ.follows_newLocal name).bind fun x => (ih (c.bind x)).bind fun (xs, c) => .pure rfl

/-- Bindings, and the scope inside them. -/
def onBound (p : List (Local × Expr Unit) × Scope) : List (Local × Expr Unit) × Scope :=
  (p.1.map fun b => (ρ.onLocal b.1, ρ.onExpr id b.2), ρ.onScope p.2)

theorem follows_collection (kind : Collection) (r : Range)
    {items items' : Analysis (List (Expr Unit))}
    (h : Follows ρ.analysing (List.map (ρ.onExpr id)) items items') :
    Follows ρ.analysing (ρ.onExpr id)
      (do return Expr.collection kind (← items) (plainNote r))
      (do return Expr.collection kind (← items') (plainNote (ρ.onRange r))) :=
  h.bind fun es => .pure (by rw [onExpr, onExprs_eq_map]; rfl)

mutual

theorem follows_exprForm (c : Scope) (f : Form) :
    Follows ρ.analysing (ρ.onExpr id) (exprForm c f) (exprForm (ρ.onScope c) (ρ.onForm f)) := by
  match f with
  | .atom a r =>
    rw [onForm, Form.relocate, exprForm, exprForm]
    exact ρ.follows_atomExpr c a r
  | .seq .vector items r | .seq .set items r | .seq .map items r =>
    rw [onForm, Form.relocate, Form.relocateAll_eq_map, exprForm, exprForm]
    exact ρ.follows_collection _ r (follows_exprForms c items)
  | .seq .list [] r =>
    rw [onForm, Form.relocate, Form.relocateAll, exprForm, exprForm]
    exact .malformed rfl
  | .seq .list (head :: args) r =>
    rw [onForm, Form.relocate, Form.relocateAll, Form.relocateAll_eq_map, exprForm, exprForm]
    simp only [Form.symbol?_relocate, Form.range_relocate]
    split
    · exact follows_letForm c r args
    · exact follows_ifForm c r args
    · exact follows_fnForm c r args
    · split
      · exact .malformed rfl
      · exact (follows_exprForms c args).bind fun es => (follows_exprForm c head).bind fun callee =>
          .pure (ρ.onExpr_mkCall callee es r)
termination_by sizeOf f

theorem follows_exprForms (c : Scope) (fs : List Form) :
    Follows ρ.analysing (List.map (ρ.onExpr id)) (exprForms c fs)
      (exprForms (ρ.onScope c) (fs.map ρ.onForm)) := by
  match fs with
  | [] => exact .pure rfl
  | f :: fs =>
    rw [List.map_cons, exprForms, exprForms]
    exact (follows_exprForm c f).bind fun e => (follows_exprForms c fs).bind fun es => .pure rfl
termination_by sizeOf fs

theorem follows_letForm (c : Scope) (r : Range) (fs : List Form) :
    Follows ρ.analysing (ρ.onExpr id) (letForm c r fs)
      (letForm (ρ.onScope c) (ρ.onRange r) (fs.map ρ.onForm)) := by
  match fs with
  | [] => exact .malformed rfl
  | [.atom _ _] | .atom _ _ :: _ :: _ :: _ => exact .malformed rfl
  | [.seq b _ _] | .seq b _ _ :: _ :: _ :: _ => cases b <;> exact .malformed rfl
  | [.atom a vr, body] | [.seq .list items vr, body] | [.seq .set items vr, body]
  | [.seq .map items vr, body] =>
    simp only [letForm, List.map_nil, List.map_cons, onForm, Form.relocate]
    exact .malformed rfl
  | [.seq .vector items vr, body] =>
    simp only [letForm, List.map_nil, List.map_cons, onForm, Form.relocate, Form.relocateAll_eq_map,
      List.length_map]
    split
    · exact .malformed rfl
    · refine (follows_bindingForms c items).bind fun (bs, inner) =>
        (follows_exprForm inner body).bind fun e => .pure ?_
      rw [onExpr, onBindings_eq_map]
      rfl
termination_by sizeOf fs

theorem follows_bindingForms (c : Scope) (fs : List Form) :
    Follows ρ.analysing ρ.onBound (bindingForms c fs)
      (bindingForms (ρ.onScope c) (fs.map ρ.onForm)) := by
  match fs with
  | [] => exact .pure rfl
  | [f] => exact .pure rfl
  | target :: value :: rest =>
    rw [List.map_cons, List.map_cons, bindingForms, bindingForms]
    exact (ρ.follows_bindingName target).bind fun name =>
      (follows_exprForm c value).bind fun e => (ρ.follows_newLocal name).bind fun x =>
        (follows_bindingForms (c.bind x) rest).bind fun (bs, inner) => .pure rfl
termination_by sizeOf fs

theorem follows_ifForm (c : Scope) (r : Range) (fs : List Form) :
    Follows ρ.analysing (ρ.onExpr id) (ifForm c r fs)
      (ifForm (ρ.onScope c) (ρ.onRange r) (fs.map ρ.onForm)) := by
  match fs with
  | [test, a, b] =>
    rw [List.map_cons, List.map_cons, List.map_singleton, ifForm, ifForm]
    exact (follows_exprForm c test).bind fun t => (follows_exprForm c a).bind fun u =>
      (follows_exprForm c b).bind fun w => .pure rfl
  | [] | [_] | [_, _] | _ :: _ :: _ :: _ :: _ =>
    simp only [ifForm, List.map_nil, List.map_cons]
    exact .malformed rfl
termination_by sizeOf fs

theorem follows_fnForm (c : Scope) (r : Range) (fs : List Form) :
    Follows ρ.analysing (ρ.onExpr id) (fnForm c r fs)
      (fnForm (ρ.onScope c) (ρ.onRange r) (fs.map ρ.onForm)) := by
  match fs with
  | [] => exact .malformed rfl
  | [.atom _ _] | .atom _ _ :: _ :: _ :: _ => exact .malformed rfl
  | [.seq b _ _] | .seq b _ _ :: _ :: _ :: _ => cases b <;> exact .malformed rfl
  | [.atom a pr, body] | [.seq .set items pr, body] | [.seq .map items pr, body] =>
    simp only [fnForm, List.map_nil, List.map_cons, onForm, Form.relocate]
    exact .malformed rfl
  | [.seq .list ps pr, body] | [.seq .vector ps pr, body] =>
    simp only [fnForm, List.map_nil, List.map_cons, onForm, Form.relocate, Form.relocateAll_eq_map]
    exact (ρ.follows_bindParams c ps).bind fun (xs, inner) =>
      (follows_exprForm inner body).bind fun e => .pure rfl
termination_by sizeOf fs

end

theorem follows_fnParts (c : Scope) (ps : List Form) (body : Form) (r : Range) :
    Follows ρ.analysing (ρ.onExpr id) (fnParts c ps body r)
      (fnParts (ρ.onScope c) (ps.map ρ.onForm) (ρ.onForm body) (ρ.onRange r)) :=
  (ρ.follows_bindParams c ps).bind fun (_, inner) =>
    (ρ.follows_exprForm inner body).bind fun _ => .pure rfl

/-! ## Types -/

theorem dataType?_onContext (c : TypeContext) (a : Atom) :
    (ρ.onContext c).dataType? a = c.dataType? a := by
  have hd : ∀ d : Option DataType, (d.map ρ.onDataType).map (fun d =>
      (Ty.data d.name.text, d.params.length)) = d.map fun d =>
        (Ty.data d.name.text, d.params.length) := fun d => by
    cases d <;> simp [onDataType]
  cases a with
  | symbol name => simp only [TypeContext.dataType?, onContext, resolveDataType_onEnv, hd]
  | qualified qualifier name =>
    simp only [TypeContext.dataType?, onContext, resolveQualifiedDataType_onEnv, hd]
  | _ => rfl

theorem onTy_of_dataType? {c : TypeContext} {a : Atom} {t : Ty} {k : Nat}
    (h : c.dataType? a = some (t, k)) : ρ.onTy t = t :=
  Ty.rename_eq_self fun v hv => by simp [TypeContext.vars_of_dataType? h] at hv

theorem follows_unresolved {α α' : Type} {q : α → α'} (f : Form) :
    Follows ρ.naming q (unresolved f) (unresolved (ρ.onForm f)) :=
  .throw (by rw [Form.text_relocate, Form.range_relocate]; rfl)

theorem follows_tyVarOf (c : TypeContext) (name : String) (r : Range) :
    Follows ρ.naming ρ.onTy (tyVarOf c name r) (tyVarOf (ρ.onContext c) name (ρ.onRange r)) := by
  refine .get_bind fun n hn => ?_
  have hlookup : (ρ.onNames n).named.lookup name = (n.named.lookup name).map ρ.tyVar :=
    lookup_map_snd ρ.tyVar n.named name
  rw [show ρ.naming.state n = ρ.onNames n from rfl, hlookup]
  cases n.named.lookup name with
  | some v => exact .pure rfl
  | none =>
    show Follows _ _ (if c.isOpen then _ else _) (if c.isOpen then _ else _)
    split
    · refine .bind (r := id) (.set ?_ (hn.add 1)) fun _ => .pure rfl
      exact congrArg (TyNames.mk _) (hn 1)
    · exact .malformed rfl

theorem follows_bareDataType (c : TypeContext) (a : Atom) (r : Range) :
    Follows ρ.naming ρ.onTy (bareDataType c a r)
      (bareDataType (ρ.onContext c) a (ρ.onRange r)) := by
  unfold bareDataType
  rw [dataType?_onContext]
  split
  · exact ρ.follows_unresolved (.atom a r)
  · rename_i base hbase
    exact .pure (ρ.onTy_of_dataType? hbase)
  · exact .malformed rfl

/-- The type of a data type's name, and the number of its parameters. -/
def onHead (p : Ty × Nat) : Ty × Nat := (ρ.onTy p.1, p.2)

theorem follows_headDataType (c : TypeContext) (head : Form) :
    Follows ρ.naming ρ.onHead (headDataType c head)
      (headDataType (ρ.onContext c) (ρ.onForm head)) := by
  match head with
  | .atom (.bool _) r | .atom (.int _) r | .atom (.str _) r | .seq b items r =>
    exact .malformed rfl
  | .atom (.symbol name) r =>
    rw [onForm, Form.relocate, headDataType, headDataType, dataType?_onContext]
    split_ifs
    · exact .malformed rfl
    · split
      · rename_i found hfound
        exact .pure (Prod.ext (ρ.onTy_of_dataType? hfound) rfl)
      · exact ρ.follows_unresolved (.atom (.symbol name) r)
  | .atom (.qualified qualifier name) r =>
    rw [onForm, Form.relocate, headDataType, headDataType, dataType?_onContext]
    split
    · rename_i found hfound
      exact .pure (Prod.ext (ρ.onTy_of_dataType? hfound) rfl)
    · exact ρ.follows_unresolved (.atom (.qualified qualifier name) r)

mutual

theorem follows_typeForm (c : TypeContext) (f : Form) :
    Follows ρ.naming ρ.onTy (typeForm c f) (typeForm (ρ.onContext c) (ρ.onForm f)) := by
  match f with
  | .atom (.symbol name) r =>
    rw [onForm, Form.relocate, typeForm, typeForm]
    split_ifs
    · exact .pure rfl
    · exact .pure rfl
    · exact .pure rfl
    · exact ρ.follows_tyVarOf c name r
    · exact ρ.follows_bareDataType c _ r
  | .atom (.qualified qualifier name) r => exact ρ.follows_bareDataType c _ r
  | .atom (.bool _) r | .atom (.int _) r | .atom (.str _) r | .seq .list [] r
  | .seq .vector [] r | .seq .vector (_ :: _ :: _) r | .seq .set [] r | .seq .set (_ :: _ :: _) r
  | .seq .map [] r | .seq .map [_] r | .seq .map (_ :: _ :: _ :: _) r =>
    exact .malformed rfl
  | .seq .vector [e] r | .seq .set [e] r =>
    exact (follows_typeForm c e).bind fun t => .pure rfl
  | .seq .map [k, v] r =>
    exact (follows_typeForm c k).bind fun k => (follows_typeForm c v).bind fun v => .pure rfl
  | .seq .list (head :: args) r =>
    rw [onForm, Form.relocate, Form.relocateAll, Form.relocateAll_eq_map, typeForm, typeForm,
      Form.symbol?_relocate, Form.text_relocate, List.length_map]
    split
    · refine (follows_typeForms c args).bind fun ts => ?_
      rw [← List.map_reverse]
      cases ts.reverse with
      | nil => exact .malformed rfl
      | cons result params => exact .pure (by simp [onTy, List.map_reverse])
    · refine (ρ.follows_headDataType c head).bind fun (base, arity) => ?_
      show Follows _ _ (if args.length = arity then _ else _) (if args.length = arity then _ else _)
      split
      · exact (follows_typeForms c args).bind fun ts => .pure (Ty.rename_applied _ _ _)
      · exact .malformed rfl
termination_by sizeOf f

theorem follows_typeForms (c : TypeContext) (fs : List Form) :
    Follows ρ.naming (List.map ρ.onTy) (typeForms c fs)
      (typeForms (ρ.onContext c) (fs.map ρ.onForm)) := by
  match fs with
  | [] => exact .pure rfl
  | f :: fs =>
    rw [List.map_cons, typeForms, typeForms]
    exact (follows_typeForm c f).bind fun t => (follows_typeForms c fs).bind fun ts => .pure rfl
termination_by sizeOf fs

end

theorem follows_analyseType (env : Env) (ns : String) (f : Form) :
    Follows ρ.analysing ρ.onTy (analyseType env ns f)
      (analyseType (ρ.onEnv env) ns (ρ.onForm f)) := by
  refine .get_bind fun s hs => ?_
  refine .run_bind (c := ρ.analysing) (n := { next := s.tyVar }) (ρ.follows_typeForm { env, ns } f)
    rfl hs.1 rfl fun t n hn => ?_
  exact .bind (r := id) (.set rfl ⟨hn, hs.2⟩) fun _ => .pure rfl

/-! ## Declarations -/

theorem follows_ascribeForm (c : Scope) (r : Range) (args : List Form) :
    Follows ρ.analysing ρ.onDeclaration (ascribeForm c r args)
      (ascribeForm (ρ.onScope c) (ρ.onRange r) (args.map ρ.onForm)) := by
  match args with
  | [] | [_] | _ :: _ :: _ :: _ =>
    simp only [ascribeForm, List.map_nil, List.map_cons]
    exact .malformed rfl
  | [name, ty] =>
    simp only [ascribeForm, List.map_nil, List.map_cons]
    exact (ρ.follows_bindingName name).bind fun name =>
      (ρ.follows_analyseType c.env c.ns ty).bind fun t => .pure rfl

theorem follows_hostForm (c : Scope) (r : Range) (args : List Form) :
    Follows ρ.analysing ρ.onDeclaration (hostForm c r args)
      (hostForm (ρ.onScope c) (ρ.onRange r) (args.map ρ.onForm)) := by
  match args with
  | [] | [_] | [_, _] | [_, _, _] | _ :: _ :: _ :: _ :: _ :: _ =>
    simp only [hostForm, List.map_nil, List.map_cons]
    exact .malformed rfl
  | [name, module, fn, ty] =>
    simp only [hostForm, List.map_nil, List.map_cons, Form.range_relocate]
    refine (ρ.follows_bindingName name).bind fun name =>
      (ρ.follows_bindingName module).bind fun moduleName => ?_
    have himport : (ρ.onScope c).env.resolveImport (ρ.onScope c).ns (id moduleName) =
        c.env.resolveImport c.ns moduleName := rfl
    rw [himport]
    cases c.env.resolveImport c.ns moduleName with
    | none => exact .throw rfl
    | some path =>
      dsimp only
      cases hostModule? path with
      | none => exact .throw rfl
      | some m =>
        refine (ρ.follows_bindingName fn).bind fun fnName => ?_
        dsimp only [id_eq]
        cases m.function? fnName with
        | none => exact .throw rfl
        | some hostFn =>
          refine (ρ.follows_analyseType c.env c.ns ty).bind fun t => ?_
          have htext : (ρ.onTy t).text = t.text := Ty.text_rename ρ.tyVar_injective.injOn
          rw [htext]
          cases t with
          | fn ps result =>
            rw [onTy, Ty.rename_fn]
            simp only [List.length_map]
            split
            · refine .pure ?_
              rw [onDeclaration, onTy, Ty.rename_fn]
              rfl
            · exact .malformed rfl
          | _ => exact .malformed rfl

/-- The parameters of a data type, as a computation on the names of type variables. -/
def params (fs : List Form) : TypeAnalysis (List TyVar) := fun n => tyParams n fs

theorem params_cons (f : Form) (fs : List Form) :
    params (f :: fs) = do
      let name ← bindingName f
      let n ← get
      if !isTyVarName name then malformed ("type parameters must be lowercase: " ++ name) f.range
      else if (n.named.lookup name).isSome then
        malformed ("duplicate type parameter " ++ name) f.range
      else do
        set (⟨(name, n.next) :: n.named, n.next + 1⟩ : TyNames)
        let vs ← params fs
        return n.next :: vs := by
  funext n
  rw [params, tyParams]
  cases bindingName f with
  | error e => rfl
  | ok name =>
    show (if !isTyVarName name then _ else if (n.named.lookup name).isSome then _ else _ :
      Except AnalysisError _) = (if !isTyVarName name then _ else _ : TypeAnalysis _) n
    split_ifs <;> rfl

theorem follows_params (fs : List Form) :
    Follows ρ.naming (List.map ρ.tyVar) (params fs) (params (fs.map ρ.onForm)) := by
  induction fs with
  | nil => exact .pure rfl
  | cons f fs ih =>
    rw [List.map_cons, params_cons, params_cons]
    refine .bind (r := id) (.lift (bindingName_relocate ρ.onRange f)) fun name =>
      .get_bind fun n hn => ?_
    have hlookup : (ρ.onNames n).named.lookup name = (n.named.lookup name).map ρ.tyVar :=
      lookup_map_snd ρ.tyVar n.named name
    simp only [id_eq, show ρ.naming.state n = ρ.onNames n from rfl, hlookup, Option.isSome_map,
      Form.range_relocate]
    split_ifs
    · exact .malformed rfl
    · exact .malformed rfl
    · refine .bind (r := id) (.set ?_ (hn.add 1)) fun _ => ih.bind fun vs => .pure rfl
      exact congrArg (TyNames.mk _) (hn 1)

theorem follows_constructorForm (c : TypeContext) (f : Form) :
    Follows ρ.naming ρ.onConstructor (constructorForm c f)
      (constructorForm (ρ.onContext c) (ρ.onForm f)) := by
  match f with
  | .atom (.symbol name) r => exact .pure rfl
  | .atom (.bool _) r | .atom (.int _) r | .atom (.str _) r | .atom (.qualified _ _) r
  | .seq .vector _ r | .seq .set _ r | .seq .map _ r | .seq .list [] r =>
    simp only [constructorForm, onForm, Form.relocate, Form.relocateAll]
    exact .malformed rfl
  | .seq .list (name :: fields) r =>
    simp only [constructorForm, onForm, Form.relocate, Form.relocateAll, Form.relocateAll_eq_map]
    exact (ρ.follows_typeForms c fields).bind fun ts =>
      .bind (r := id) (.lift (bindingName_relocate ρ.onRange name)) fun name => .pure rfl

theorem follows_constructorForms (c : TypeContext) (seen : List Constructor) (fs : List Form) :
    Follows ρ.naming (List.map ρ.onConstructor) (constructorForms c seen fs)
      (constructorForms (ρ.onContext c) (seen.map ρ.onConstructor) (fs.map ρ.onForm)) := by
  induction fs generalizing seen with
  | nil => exact .pure rfl
  | cons f fs ih =>
    rw [List.map_cons, constructorForms, constructorForms]
    refine (ρ.follows_constructorForm c f).bind fun k => ?_
    have hseen : ((seen.map ρ.onConstructor).any fun other =>
        other.name = (ρ.onConstructor k).name) = seen.any fun other => other.name = k.name := by
      rw [List.any_map]
      rfl
    simp only [hseen, Form.range_relocate]
    split_ifs
    · exact .malformed_bind rfl
    · simpa using ih (seen ++ [k])

/-- The name and the parameters of a data type. -/
def onHeader (p : String × List TyVar × TyNames) : String × List TyVar × TyNames :=
  (p.1, p.2.1.map ρ.tyVar, ρ.onNames p.2.2)

theorem dataHeader_onNames {n : TyNames} (hn : ρ.naming.Good n) (f : Form) :
    dataHeader (ρ.onNames n) (ρ.onForm f) =
        changed ρ.onHeader (.relocate ρ.onRange) (dataHeader n f) ∧
      ∀ p, dataHeader n f = .ok p → ρ.naming.Good p.2.2 := by
  match f with
  | .atom (.symbol name) r => exact ⟨rfl, fun p hp => Except.ok.inj hp ▸ hn⟩
  | .atom (.bool _) r | .atom (.int _) r | .atom (.str _) r | .atom (.qualified _ _) r
  | .seq .vector _ r | .seq .set _ r | .seq .map _ r | .seq .list [] r => exact ⟨rfl, nofun⟩
  | .seq .list (name :: fs) r =>
    simp only [dataHeader, onForm, Form.relocate, Form.relocateAll, Form.relocateAll_eq_map,
      bindingName_relocate]
    cases bindingName name with
    | error e => exact ⟨rfl, nofun⟩
    | ok name =>
      cases hrun : tyParams n fs with
      | error e =>
        have hparams : tyParams (ρ.onNames n) (fs.map ρ.onForm) = _ :=
          (ρ.follows_params fs).run_error hn hrun
        exact ⟨congrArg (fun x => do return (name, ← x)) hparams, nofun⟩
      | ok p =>
        have hparams : tyParams (ρ.onNames n) (fs.map ρ.onForm) = _ ∧ _ :=
          (ρ.follows_params fs).run_ok hn hrun
        exact ⟨congrArg (fun x => do return (name, ← x)) hparams.1,
          fun q hq => Except.ok.inj hq ▸ hparams.2⟩

theorem follows_dataForm (c : Scope) (r : Range) (args : List Form) :
    Follows ρ.analysing ρ.onDeclaration (dataForm c r args)
      (dataForm (ρ.onScope c) (ρ.onRange r) (args.map ρ.onForm)) := by
  cases args with
  | nil => exact .malformed rfl
  | cons header constructors =>
    rw [List.map_cons, dataForm, dataForm]
    refine .get_bind fun s hs => ?_
    obtain ⟨hheader, hgood⟩ := ρ.dataHeader_onNames (n := { next := s.tyVar }) hs.1 header
    refine .lift_bind hheader hgood ?_
    rintro ⟨name, ps, n⟩ hn
    dsimp only [onHeader]
    rw [List.length_map, Form.range_relocate, List.isEmpty_map]
    split_ifs
    · exact .malformed_bind rfl
    · exact .malformed_bind rfl
    · exact .malformed_bind rfl
    · refine .run_bind (c := ρ.analysing) (ρ.follows_constructorForms _ [] constructors) rfl hn rfl
        fun ks n hn => ?_
      exact .bind (r := id) (.set rfl ⟨hn, hs.2⟩) fun _ => .pure rfl

/-! ## Namespaces -/

theorem nsForm_onEnv (env : Env) (args : List Form) (r : Range) :
    nsForm (ρ.onEnv env) args r = nsForm env args r := by
  have hvar : ∀ g, ((ρ.onEnv env).var? g).isNone = (env.var? g).isNone := fun g => by
    rw [var?_onEnv, Option.isNone_map]
  have hrefer : addRefer (ρ.onEnv env) = addRefer env := by
    funext source refers f
    simp only [addRefer, hvar]
  have hrefers : addRefers (ρ.onEnv env) = addRefers env := by
    funext refers entry
    simp only [addRefers, hrefer]
    rfl
  have hoption : nsOption (ρ.onEnv env) = nsOption env := by
    funext d entry
    simp only [nsOption, hrefers]
    rfl
  simp only [nsForm, hoption]

theorem follows_nsForm (env : Env) (args : List Form) (r : Range) :
    Follows ρ.analysing id (liftM (nsForm env args r))
      (liftM (nsForm (ρ.onEnv env) (args.map ρ.onForm) (ρ.onRange r))) :=
  .lift (by rw [nsForm_onEnv]; exact nsForm_relocate ρ.onRange env args r)

/-! ## Any form -/

theorem follows_defForm (c : Scope) (r : Range) (args : List Form) :
    Follows ρ.analysing (ρ.onExpr id) (defForm c r args)
      (defForm (ρ.onScope c) (ρ.onRange r) (args.map ρ.onForm)) := by
  have hdefine : ∀ (name : GlobalName) (e : Expr Unit),
      ρ.onExpr id (.define name ((c.env.var? name).bind (·.declared)) e (plainNote r)) =
        .define name (((ρ.onScope c).env.var? name).bind (·.declared)) (ρ.onExpr id e)
          (plainNote (ρ.onRange r)) := fun name e => by
    rw [show (ρ.onScope c).env = ρ.onEnv c.env from rfl, var?_onEnv]
    cases c.env.var? name with
    | none => rfl
    | some v => exact congrArg (Expr.define name · _ _) (ρ.declared_onVar v).symm
  match args with
  | [] | [_] | _ :: _ :: _ :: _ =>
    simp only [defForm, List.map_nil, List.map_cons]
    exact .malformed rfl
  | [.atom (.bool _) tr, body] | [.atom (.int _) tr, body] | [.atom (.str _) tr, body]
  | [.atom (.qualified _ _) tr, body] | [.seq .vector _ tr, body] | [.seq .set _ tr, body]
  | [.seq .map _ tr, body] | [.seq .list [] tr, body] =>
    simp only [defForm, List.map_nil, List.map_cons, onForm, Form.relocate, Form.relocateAll]
    exact .malformed_bind rfl
  | [.atom (.symbol name) tr, body] =>
    simp only [defForm, List.map_nil, List.map_cons, onForm, Form.relocate]
    exact (ρ.follows_exprForm c body).bind fun e => .pure (hdefine _ e)
  | [.seq .list (name :: params) tr, body] =>
    simp only [defForm, List.map_nil, List.map_cons, onForm, Form.relocate, Form.relocateAll,
      Form.relocateAll_eq_map]
    exact (ρ.follows_bindingName name).bind fun name =>
      (ρ.follows_fnParts c params body r).bind fun e => .pure (hdefine ⟨c.ns, name⟩ e)

/-- **Analysis does not depend on numbers and on where a form stands.** -/
theorem follows_analyse (env : Env) (ns : String) (f : Form) :
    Follows ρ.analysing (ρ.onExpr id) (analyse env ns f)
      (analyse (ρ.onEnv env) ns (ρ.onForm f)) := by
  match f with
  | .atom a r | .seq .vector _ r | .seq .set _ r | .seq .map _ r | .seq .list [] r =>
    exact ρ.follows_exprForm { env, ns } _
  | .seq .list (head :: args) r =>
    have hexpr := ρ.follows_exprForm { env, ns } (.seq .list (head :: args) r)
    simp only [onForm, Form.relocate, Form.relocateAll, Form.relocateAll_eq_map] at hexpr ⊢
    simp only [analyse, Form.symbol?_relocate]
    split
    · exact ρ.follows_defForm { env, ns } r args
    · exact (ρ.follows_ascribeForm { env, ns } r args).bind fun d => .pure rfl
    · exact (ρ.follows_dataForm { env, ns } r args).bind fun d => .pure rfl
    · exact (ρ.follows_hostForm { env, ns } r args).bind fun d => .pure rfl
    · exact (ρ.follows_nsForm env args r).bind fun d => .pure rfl
    · exact hexpr

end Recasting

namespace Renumbering

variable (ρ : Renumbering)

theorem var?_onEnv (e : Env) (g : GlobalName) : (ρ.onEnv e).var? g = (e.var? g).map ρ.onVar :=
  ρ.recasting.var?_onEnv e g

theorem resolveVar_onEnv (e : Env) (ns sym : String) :
    (ρ.onEnv e).resolveVar ns sym = (e.resolveVar ns sym).map ρ.onVar :=
  ρ.recasting.resolveVar_onEnv e ns sym

/-- The change that analysis of forms is followed under. -/
abbrev analysing : Change Supply AnalysisError := ρ.recasting.analysing

theorem follows_analyse (env : Env) (ns : String) (f : Form) :
    Follows ρ.analysing (ρ.onExpr id) (analyse env ns f) (analyse (ρ.onEnv env) ns f) := by
  have h := ρ.recasting.follows_analyse env ns f
  rwa [Recasting.onForm, Form.relocate_id] at h

end Renumbering

end TypedLisp
