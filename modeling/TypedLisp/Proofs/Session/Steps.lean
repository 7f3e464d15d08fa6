import TypedLisp.Proofs.Machine.Growth
import TypedLisp.Proofs.Monads
import TypedLisp.Session

/-!
# What the actions of a session do

Every action of a session is described once: the object it makes, the cell it takes, the var it
enters. Making objects is quiet: it leaves the environment, the supply and the cells alone
(`Session.Quiet`). A definition then takes a cell, which is that of the var it replaces or a new one
(`Session.CellFor`), and enters its var.
-/

namespace TypedLisp

/-- Whether the type of an expression is inferred, with the type variable that is next then. -/
abbrev Expr.Infers (e : Expr Unit) (supply : Supply) (t : Expr Ty) (k : TyVar) : Prop :=
  (infer e).run supply.tyVar = .ok (t, k)

namespace Session

open Machine

variable {ε α β : Type}
variable {s s₁ s' : Session} {params : List Local} {body e t : Expr Ty} {code : Code}
  {name : GlobalName} {closures : List UnitClosure} {sym : String} {v : Var} {a : Addr}

/-! ## Built-in functions -/

/-- The object of a built-in function. -/
def builtinObject (b : Builtin) : Object := .fn ⟨b.name, b.arity, .builtin b, []⟩

/-- The var of a built-in function in a session where it is not yet defined. -/
def builtinVar (s : Session) (b : Builtin) : Var where
  name := ⟨coreNs, b.name⟩
  cell := ⟨s.machine.cells.size, GlobalName.text ⟨coreNs, b.name⟩⟩
  kind := .builtin b.arity
  inferred := some (b.ty s.supply.tyVar)

theorem defineBuiltin_eq (s : Session) (b : Builtin) : s.defineBuiltin b =
    { s with
      env := s.env.withVar (s.builtinVar b)
      supply := { s.supply with tyVar := s.supply.tyVar + 1 }
      machine := ⟨(s.machine.heap.allocPinned (builtinObject b)).2,
        (s.machine.cells.push none).setIfInBounds s.machine.cells.size
          (some (s.machine.heap.allocPinned (builtinObject b)).1),
        s.machine.tracked, s.machine.fault⟩ } := rfl

/-- What holds where nothing is defined, and after every definition of a built-in function, holds in
a new session. -/
theorem start_induction {P : Session → Prop} {limit : Nat} (hempty : P { callLimit := limit })
    (hbuiltin : ∀ s b, P s → P (s.defineBuiltin b)) : P (.start limit) := by
  have hfold : ∀ (bs : List Builtin) (s : Session), P s → P (bs.foldl defineBuiltin s) := by
    intro bs
    induction bs with
    | nil => exact fun _ hs => hs
    | cons b bs ih => exact fun s hs => ih _ (hbuiltin s b hs)
  exact hfold _ _ hempty

/-! ## Making objects -/

/-- Whether a session came from another one by making objects and units of code, and nothing else
that stays. -/
structure Quiet (s s' : Session) : Prop where
  env_eq : s'.env = s.env
  ns_eq : s'.ns = s.ns
  supply_eq : s'.supply = s.supply
  callLimit_eq : s'.callLimit = s.callLimit
  heap_le : s.machine.heap ≤ s'.machine.heap
  cells_eq : s'.machine.cells = s.machine.cells
  tracked_subset : s.machine.tracked ⊆ s'.machine.tracked
  clear : s.machine.fault = none → s'.machine.fault = none

theorem Quiet.refl (s : Session) : s.Quiet s :=
  ⟨rfl, rfl, rfl, rfl, le_refl _, rfl, List.Subset.refl _, id⟩

theorem Quiet.trans (h : s.Quiet s₁) (h' : s₁.Quiet s') : s.Quiet s' :=
  ⟨h'.env_eq.trans h.env_eq, h'.ns_eq.trans h.ns_eq, h'.supply_eq.trans h.supply_eq,
    h'.callLimit_eq.trans h.callLimit_eq, le_trans h.heap_le h'.heap_le,
    h'.cells_eq.trans h.cells_eq, List.Subset.trans h.tracked_subset h'.tracked_subset,
    fun hs => h'.clear (h.clear hs)⟩

instance : IsPreorder Session Quiet where
  refl := .refl
  trans _ _ _ := .trans

theorem quiet_units (s : Session) (n : Nat) : s.Quiet { s with units := n } :=
  ⟨rfl, rfl, rfl, rfl, le_refl _, rfl, List.Subset.refl _, id⟩

/-- The session in which an object has been made. -/
def withObject (s : Session) (o : Object) : Session :=
  { s with machine := (alloc o s.machine).2 }

theorem quiet_alloc (s : Session) (o : Object) : s.Quiet (s.withObject o) :=
  ⟨rfl, rfl, rfl, rfl, s.machine.heap.le_alloc o, rfl, List.Subset.refl _, id⟩

theorem tracked_subset_track (m : Machine) (cs : List Cell) : m.tracked ⊆ (track cs m).2.tracked := by
  have hfold : ∀ tracked : List Nat,
      tracked ⊆ cs.foldl (fun tracked c => tracked.insert c.id) tracked := by
    induction cs with
    | nil => exact List.Subset.refl
    | cons c cs ih =>
      exact fun tracked => List.Subset.trans (fun _ => List.mem_insert_of_mem) (ih _)
  exact hfold m.tracked

/-- The session after it has made the next unit of some code. -/
def withUnit (s : Session) (code : Code) : Session :=
  { s with units := s.units + 1, machine := (track code.cells s.machine).2 }

theorem quiet_withUnit (s : Session) (code : Code) : s.Quiet (s.withUnit code) :=
  ⟨rfl, rfl, rfl, rfl, le_refl _, rfl, tracked_subset_track s.machine code.cells, id⟩

/-- The closures of the code that the next unit of a session is made of. -/
def unitClosures (s : Session) (code : Code) : List UnitClosure :=
  code.closures.zipIdx 2 |>.map fun (info, index) => ⟨s.units + 1, index, info⟩

theorem compileEntry_ok (h : body.lower params = .ok code) (s : Session) :
    compileEntry params body s =
      (.ok (code, s.unitClosures code), s.withUnit code) := by
  refine (bind_ok rfl).trans ((bind_ok rfl).trans ?_)
  rw [h]
  exact (bind_ok rfl).trans rfl

theorem compileEntry_error {e : LowerError} (h : body.lower params = .error e) (s : Session) :
    compileEntry params body s = (.error (.lower e), { s with units := s.units + 1 }) := by
  refine (bind_ok rfl).trans ((bind_ok rfl).trans ?_)
  rw [h]
  rfl

/-- What running code on its own gives: its object, and the machine after it with its fault. -/
def evalThunk (s : Session) (code : Code) : Addr × Machine :=
  code.eval (call s.callLimit) [] { (s.withUnit code).machine with fault := none }

/-- The session after code has run on its own. -/
def afterThunk (s : Session) (code : Code) : Session :=
  { s.withUnit code with machine := { (s.evalThunk code).2 with fault := none } }

theorem quiet_afterThunk (s : Session) (code : Code) : s.Quiet (s.afterThunk code) := by
  have hgrows := Code.leads_eval (grows_call s.callLimit) code []
    { (s.withUnit code).machine with fault := none }
  exact (quiet_withUnit s code).trans
    ⟨rfl, rfl, rfl, rfl, hgrows.1, hgrows.2.1.1, hgrows.2.1.2 ▸ List.Subset.refl _, fun _ => rfl⟩

theorem runThunk_lower_error {err : LowerError} (h : e.lower [] = .error err) (s : Session) :
    runThunk e s = (.error (.lower err), { s with units := s.units + 1 }) :=
  bind_error (compileEntry_error h s)

theorem runThunk_of_lower (h : e.lower [] = .ok code) (s : Session) :
    runThunk e s = (match (s.evalThunk code).2.fault with
      | some f => throw (.fault f)
      | none => pure ((s.evalThunk code).1, s.unitClosures code) : Action RunError _)
        (s.afterThunk code) :=
  (bind_ok (compileEntry_ok h s)).trans ((bind_ok rfl).trans (bind_ok rfl))

theorem runThunk_fault (h : e.lower [] = .ok code) {f : Fault}
    (hf : (s.evalThunk code).2.fault = some f) :
    runThunk e s = (.error (.fault f), s.afterThunk code) := by
  rw [runThunk_of_lower h, hf]
  rfl

theorem runThunk_ok (h : e.lower [] = .ok code) (hf : (s.evalThunk code).2.fault = none) :
    runThunk e s = (.ok ((s.evalThunk code).1, s.unitClosures code), s.afterThunk code) := by
  rw [runThunk_of_lower h, hf]
  rfl

theorem quiet_runThunk (e : Expr Ty) (s : Session) : s.Quiet (runThunk e s).2 := by
  cases h : e.lower [] with
  | error err =>
    rw [runThunk_lower_error h]
    exact quiet_units s _
  | ok code =>
    cases hf : (s.evalThunk code).2.fault with
    | some f => rw [runThunk_fault h hf]; exact quiet_afterThunk s code
    | none => rw [runThunk_ok h hf]; exact quiet_afterThunk s code

/-! ## Taking cells -/

/-- The session with other cells. -/
def withCells (s : Session) (cells : Array (Option Addr)) : Session :=
  { s with machine := { s.machine with cells } }

/-- The cell that a definition of a type takes, and the cells there are then: it is the cell of the
var of the same name if the type is the same, else a new and empty one. -/
inductive CellFor (s : Session) (name : GlobalName) (ty : Ty) :
    Cell → Array (Option Addr) → Prop where
  | kept {v : Var} {u : Ty} (hv : s.env.var? name = some v) (hu : v.visible = some u)
      (h : u.alphaEquivalent ty = true) : CellFor s name ty v.cell s.machine.cells
  | new (h : ∀ v u, s.env.var? name = some v → v.visible = some u → u.alphaEquivalent ty = false) :
      CellFor s name ty ⟨s.machine.cells.size, name.text⟩ (s.machine.cells.push none)

theorem kept_or_new (s : Session) (name : GlobalName) (ty : Ty) :
    (∃ v u, s.env.var? name = some v ∧ v.visible = some u ∧ u.alphaEquivalent ty = true) ∨
      ∀ v u, s.env.var? name = some v → v.visible = some u → u.alphaEquivalent ty = false := by
  by_cases h : ∃ v u, s.env.var? name = some v ∧ v.visible = some u ∧ u.alphaEquivalent ty = true
  · exact .inl h
  · exact .inr fun v u hv hu => Bool.eq_false_iff.2 fun halpha => h ⟨v, u, hv, hu, halpha⟩

theorem alphaEquivalent_eq_false_of_new {ty : Ty}
    (hnew : ∀ v u, s.env.var? name = some v → v.visible = some u → u.alphaEquivalent ty = false)
    (hv : s.env.var? name = some v) :
    ((v.visible.map (·.alphaEquivalent ty)).getD false) = false := by
  cases hu : v.visible with
  | none => rfl
  | some u => exact hnew v u hv hu

theorem linkCell_cases (name : GlobalName) (ty : Ty) (s : Session) : ∃ cell cells,
    s.CellFor name ty cell cells ∧ linkCell name ty s = (.ok cell, s.withCells cells) := by
  rcases kept_or_new s name ty with ⟨v, u, hv, hu, halpha⟩ | hnew
  · refine ⟨v.cell, _, .kept hv hu halpha, (bind_ok rfl).trans ?_⟩
    simp only [hv, hu, Option.map_some, halpha, Option.getD_some, if_true]
    rfl
  · refine ⟨_, _, .new hnew, (bind_ok rfl).trans ?_⟩
    cases hv : s.env.var? name with
    | none => rfl
    | some v =>
      simp only [alphaEquivalent_eq_false_of_new hnew hv, Bool.false_eq_true, if_false]
      rfl

/-- The session in which an object has been put into one of `cells`, which is tracked then. -/
def withStored (s : Session) (cell : Cell) (cells : Array (Option Addr)) (a : Addr) : Session :=
  { s with
    machine := { s.machine with
      cells := cells.setIfInBounds cell.id (some a)
      tracked := s.machine.tracked.insert cell.id } }

theorem bindObject_cases (name : GlobalName) (ty : Ty) (a : Addr) (s : Session) : ∃ cell cells,
    s.CellFor name ty cell cells ∧
      bindObject name ty a s = (.ok cell, s.withStored cell cells a) := by
  obtain ⟨cell, cells, hcell, hlink⟩ := linkCell_cases name ty s
  exact ⟨cell, cells, hcell, (bind_ok hlink).trans rfl⟩

/-! ## Definitions -/

/-- Makes the object of a definition. -/
def definedObject (name : GlobalName) (body : Expr Ty) :
    Action RunError (Addr × VarKind × List UnitClosure) :=
  match body with
  | .fn params fnBody _ => do
    let (code, closures) ← compileEntry params fnBody
    let a ← onMachine (alloc (.fn ⟨name.text, params.length, .code params [] code, []⟩))
    pure (a, VarKind.fn params.length, closures)
  | _ => do
    let (a, closures) ← runThunk body
    pure (a, VarKind.value, closures)

/-- The function that a definition of a function makes. -/
def definedFn (name : GlobalName) (params : List Local) (code : Code) : Object :=
  .fn ⟨name.text, params.length, .code params [] code, []⟩

theorem definedObject_fn {n : Note Ty} (h : body.lower params = .ok code) (s : Session) :
    definedObject name (.fn params body n) s =
      (.ok ((alloc (definedFn name params code) s.machine).1, .fn params.length,
        s.unitClosures code),
      (s.withUnit code).withObject (definedFn name params code)) :=
  (bind_ok (compileEntry_ok h s)).trans ((bind_ok rfl).trans rfl)

theorem definedObject_fn_error {n : Note Ty} {e : LowerError} (h : body.lower params = .error e)
    (s : Session) :
    definedObject name (.fn params body n) s = (.error (.lower e), { s with units := s.units + 1 }) :=
  bind_error (compileEntry_error h s)

/-- Whether a definition makes its object by running its body. -/
def IsThunk (body : Expr Ty) : Prop := ∀ params b n, body ≠ .fn params b n

theorem definedObject_thunk (hbody : IsThunk body)
    (h : runThunk body s = (.ok (a, closures), s₁)) (name : GlobalName) :
    definedObject name body s = (.ok (a, .value, closures), s₁) := by
  cases body with
  | fn params b n => exact absurd rfl (hbody params b n)
  | _ => exact (bind_ok h).trans rfl

theorem definedObject_thunk_error (hbody : IsThunk body) {e : RunError}
    (h : runThunk body s = (.error e, s₁)) (name : GlobalName) :
    definedObject name body s = (.error e, s₁) := by
  cases body with
  | fn params b n => exact absurd rfl (hbody params b n)
  | _ => exact bind_error h

theorem fn_or_isThunk (body : Expr Ty) : (∃ params b n, body = .fn params b n) ∨ IsThunk body := by
  by_cases hfn : ∃ params b n, body = .fn params b n
  · exact .inl hfn
  · exact .inr fun params b n h => hfn ⟨params, b, n, h⟩

theorem definedObject_snd (hbody : IsThunk body) (name : GlobalName) (s : Session) :
    (definedObject name body s).2 = (runThunk body s).2 := by
  cases h : runThunk body s with
  | mk r s₁ =>
    cases r with
    | error e => rw [definedObject_thunk_error hbody h]
    | ok r => rw [definedObject_thunk hbody h]

theorem quiet_definedObject (name : GlobalName) (body : Expr Ty) (s : Session) :
    s.Quiet (definedObject name body s).2 := by
  rcases fn_or_isThunk body with ⟨params, b, n, rfl⟩ | hbody
  · cases h : b.lower params with
    | error e =>
      rw [definedObject_fn_error h]
      exact quiet_units s _
    | ok code =>
      rw [definedObject_fn h]
      exact (quiet_withUnit s code).trans (quiet_alloc _ _)
  · rw [definedObject_snd hbody]
    exact quiet_runThunk body s

theorem quiet_of_definedObject {r : Except RunError (Addr × VarKind × List UnitClosure)}
    (h : definedObject name body s = (r, s₁)) : s.Quiet s₁ := by
  have hquiet := quiet_definedObject name body s
  rwa [h] at hquiet

theorem runDefine_eq (name : GlobalName) (declared : Option Ty) (body : Expr Ty) :
    runDefine name declared body = do
      let (a, kind, closures) ← definedObject name body
      let cell ← bindObject name (declared.getD body.ann) a
      modify fun s =>
        { s with env := s.env.withVar { name, kind, cell, declared, inferred := some body.ann } }
      return ⟨.defined name (declared.getD body.ann), closures⟩ := by
  cases body <;> simp only [runDefine, definedObject, bind_assoc, pure_bind]

theorem runDefine_error {declared : Option Ty} {e : RunError}
    (h : definedObject name body s = (.error e, s₁)) :
    runDefine name declared body s = (.error e, s₁) := by
  rw [runDefine_eq]
  exact bind_error h

theorem runDefine_ok {kind : VarKind}
    (h : definedObject name body s = (.ok (a, kind, closures), s₁)) (declared : Option Ty) :
    ∃ cell cells,
      s₁.CellFor name (declared.getD body.ann) cell cells ∧
      runDefine name declared body s = (.ok ⟨.defined name (declared.getD body.ann), closures⟩,
        { s₁.withStored cell cells a with
          env := s₁.env.withVar { name, kind, cell, declared, inferred := some body.ann } }) := by
  obtain ⟨cell, cells, hcell, hbind⟩ := bindObject_cases name (declared.getD body.ann) a s₁
  refine ⟨cell, cells, hcell, ?_⟩
  rw [runDefine_eq]
  exact (bind_ok h).trans ((bind_ok hbind).trans rfl)

/-! ## Declarations -/

/-- The var that an ascription enters, and the cells there are then: the var of the same name if the
type is the same, else a new one with an empty cell. -/
inductive AscribedVar (s : Session) (name : GlobalName) (ty : Ty) :
    Var → Array (Option Addr) → Prop where
  | kept {v : Var} {u : Ty} (hv : s.env.var? name = some v) (hu : v.visible = some u)
      (h : u.alphaEquivalent ty = true) :
      AscribedVar s name ty { v with declared := some ty } s.machine.cells
  | new (h : ∀ v u, s.env.var? name = some v → v.visible = some u → u.alphaEquivalent ty = false) :
      AscribedVar s name ty
        { name, cell := ⟨s.machine.cells.size, name.text⟩, kind := .declared, declared := some ty }
        (s.machine.cells.push none)

theorem declareVar_cases (name : GlobalName) (ty : Ty) (s : Session) : ∃ v cells,
    s.AscribedVar name ty v cells ∧ declareVar name ty s = (.ok v, s.withCells cells) := by
  rcases kept_or_new s name ty with ⟨v, u, hv, hu, halpha⟩ | hnew
  · refine ⟨_, _, .kept hv hu halpha, (bind_ok rfl).trans ?_⟩
    simp only [hv, hu, Option.map_some, halpha, Option.getD_some, if_true]
    rfl
  · refine ⟨_, _, .new hnew, (bind_ok rfl).trans ?_⟩
    cases hv : s.env.var? name with
    | none => exact (bind_ok rfl).trans rfl
    | some v =>
      simp only [alphaEquivalent_eq_false_of_new hnew hv, Bool.false_eq_true, if_false]
      exact (bind_ok rfl).trans rfl

/-- The session in which an object has been made and put into one of `cells`. -/
def withBound (s : Session) (o : Object) (cell : Cell) (cells : Array (Option Addr)) : Session :=
  (s.withObject o).withStored cell cells (alloc o s.machine).1

/-- The var of a constructor with a given cell. -/
def varOf (d : DataType) (c : Constructor) (cell : Cell) : Var :=
  { name := c.name, cell, kind := .constructor d.name c.arity, inferred := some (d.constructorTy c) }

theorem constructorVar_cases (d : DataType) (c : Constructor) (tag : Nat) (s : Session) :
    ∃ cell cells,
      (s.withObject (constructorObject d c tag)).CellFor c.name (d.constructorTy c) cell cells ∧
      constructorVar d c tag s =
        (.ok (varOf d c cell), s.withBound (constructorObject d c tag) cell cells) := by
  obtain ⟨cell, cells, hcell, hbind⟩ := bindObject_cases c.name (d.constructorTy c)
    (alloc (constructorObject d c tag) s.machine).1 (s.withObject (constructorObject d c tag))
  exact ⟨cell, cells, hcell, (bind_ok rfl).trans ((bind_ok hbind).trans rfl)⟩

/-- The vars of constructors made one after the other, and the session after that. -/
inductive ConstructorVars (d : DataType) :
    List (Constructor × Nat) → Session → List Var → Session → Prop where
  | nil (s : Session) : ConstructorVars d [] s [] s
  | cons {c : Constructor} {tag : Nat} {cs : List (Constructor × Nat)} {s s' : Session}
      {cell : Cell} {cells : Array (Option Addr)} {vs : List Var}
      (hcell : (s.withObject (constructorObject d c tag)).CellFor c.name (d.constructorTy c)
        cell cells)
      (h : ConstructorVars d cs (s.withBound (constructorObject d c tag) cell cells) vs s') :
      ConstructorVars d ((c, tag) :: cs) s (varOf d c cell :: vs) s'

theorem ConstructorVars.env_eq {d : DataType} {cs : List (Constructor × Nat)} {vs : List Var}
    (h : ConstructorVars d cs s vs s') : s'.env = s.env := by
  induction h with
  | nil => rfl
  | cons _ _ ih => exact ih

theorem mapM_constructorVar (d : DataType) (cs : List (Constructor × Nat)) (s : Session) :
    ∃ vs s', ConstructorVars d cs s vs s' ∧
      (cs.mapM fun (c, tag) => constructorVar d c tag : Action RunError (List Var)) s =
        (.ok vs, s') := by
  induction cs generalizing s with
  | nil => exact ⟨[], s, .nil s, rfl⟩
  | cons c cs ih =>
    obtain ⟨c, tag⟩ := c
    obtain ⟨cell, cells, hcell, hvar⟩ := constructorVar_cases d c tag s
    obtain ⟨vs, s', hvs, hmap⟩ := ih (s.withBound (constructorObject d c tag) cell cells)
    refine ⟨_, s', .cons hcell hvs, ?_⟩
    rw [List.mapM_cons]
    exact (bind_ok hvar).trans ((bind_ok hmap).trans rfl)

/-! ## Any form -/

/-- Whether a form changes the environment if it succeeds. -/
def IsEntry : Expr Ty → Prop
  | .define _ _ _ _ => True
  | .declare _ _ => True
  | _ => False

/-- What a form that changes the environment does if it succeeds. -/
inductive Enters (s : Session) : Expr Ty → Session → Prop where
  | define {name : GlobalName} {declared : Option Ty} {body : Expr Ty} {n : Note Ty} {a : Addr}
      {kind : VarKind} {closures : List UnitClosure} {s₁ : Session} {cell : Cell}
      {cells : Array (Option Addr)}
      (ho : definedObject name body s = (.ok (a, kind, closures), s₁))
      (hcell : s₁.CellFor name (declared.getD body.ann) cell cells) :
      Enters s (.define name declared body n)
        { s₁.withStored cell cells a with
          env := s₁.env.withVar { name, kind, cell, declared, inferred := some body.ann } }
  | ns (d : NsDecl) (n : Note Ty) :
      Enters s (.declare (.ns d) n) { s with env := s.env.withNs d, ns := d.ns }
  | ascribe {name : GlobalName} {ty : Ty} {n : Note Ty} {v : Var} {cells : Array (Option Addr)}
      (hv : s.AscribedVar name ty v cells) :
      Enters s (.declare (.ascribe name ty) n) { s.withCells cells with env := s.env.withVar v }
  | data {d : DataType} {n : Note Ty} {units : Nat} {vs : List Var} {s' : Session}
      (hvs : ConstructorVars d d.constructors.zipIdx { s with units } vs s') :
      Enters s (.declare (.data d) n) { s' with env := s'.env.withDataType d vs }
  | host {name : GlobalName} {ref : HostRef} {ty : Ty} {n : Note Ty} {fn : HostFn} {cell : Cell}
      {cells : Array (Option Addr)} (harity : fn.arity = ref.arity)
      (hcell : (s.withObject (.fn ⟨name.text, ref.arity, .host fn, []⟩)).CellFor name ty
        cell cells) :
      Enters s (.declare (.host name ref ty) n)
        { s.withBound (.fn ⟨name.text, ref.arity, .host fn, []⟩) cell cells with
          env := s.env.withVar { name, cell, kind := .host ref.arity, declared := some ty } }

theorem runDefine_cases (name : GlobalName) (declared : Option Ty) (body : Expr Ty) (n : Note Ty)
    (s : Session) :
    (∃ r s', runDefine name declared body s = (.ok r, s') ∧
      s.Enters (.define name declared body n) s') ∨
    ∃ e s', runDefine name declared body s = (.error e, s') ∧ s.Quiet s' := by
  cases h : definedObject name body s with
  | mk r s₁ =>
    cases r with
    | error e => exact .inr ⟨e, s₁, runDefine_error h, quiet_of_definedObject h⟩
    | ok r =>
      obtain ⟨a, kind, closures⟩ := r
      obtain ⟨cell, cells, hcell, hrun⟩ := runDefine_ok h declared
      exact .inl ⟨_, _, hrun, .define h hcell⟩

/-- A declaration enters what it declares unless it is of a function that the host does not have. -/
theorem runDeclare_enters {d : Declaration}
    (hhost : ∀ name ref ty, d = .host name ref ty → ∃ m fn, hostModule? ref.module = some m ∧
      m.function? ref.fn = some fn ∧ fn.arity = ref.arity) (n : Note Ty) (s : Session) :
    ∃ r s', runDeclare d s = (.ok r, s') ∧ s.Enters (.declare d n) s' := by
  cases d with
  | ns d => exact ⟨_, _, (bind_ok rfl).trans rfl, .ns d n⟩
  | ascribe name ty =>
    obtain ⟨v, cells, hv, hrun⟩ := declareVar_cases name ty s
    exact ⟨_, _, (bind_ok hrun).trans ((bind_ok rfl).trans rfl), .ascribe hv⟩
  | data d =>
    by_cases hany : d.constructors.any (0 < ·.arity) = true
    · obtain ⟨vs, s', hvs, hmap⟩ := mapM_constructorVar d d.constructors.zipIdx
        { s with units := s.units + 1 }
      refine ⟨⟨.dataType d.name (d.constructors.map (·.name)), []⟩, _, ?_, .data hvs⟩
      simp only [runDeclare, hany, if_true]
      exact (bind_ok rfl).trans ((bind_ok hmap).trans ((bind_ok rfl).trans rfl))
    · obtain ⟨vs, s', hvs, hmap⟩ := mapM_constructorVar d d.constructors.zipIdx s
      refine ⟨⟨.dataType d.name (d.constructors.map (·.name)), []⟩, _, ?_, .data hvs⟩
      simp only [runDeclare, hany]
      exact (bind_ok hmap).trans ((bind_ok rfl).trans rfl)
  | host name ref ty =>
    obtain ⟨m, fn, hm, hfn, harity⟩ := hhost name ref ty rfl
    have hfilter : (m.function? ref.fn).filter (·.arity = ref.arity) = some fn := by
      rw [hfn, Option.filter_some, decide_eq_true harity, if_pos rfl]
    obtain ⟨cell, cells, hcell, hbind⟩ := bindObject_cases name ty
      (alloc (.fn ⟨name.text, ref.arity, .host fn, []⟩) s.machine).1
      (s.withObject (.fn ⟨name.text, ref.arity, .host fn, []⟩))
    refine ⟨⟨.defined name ty, []⟩, _, ?_, .host harity hcell⟩
    simp only [runDeclare, hm, hfilter]
    exact (bind_ok rfl).trans ((bind_ok hbind).trans ((bind_ok rfl).trans rfl))

theorem runDeclare_cases (d : Declaration) (n : Note Ty) (s : Session) :
    (∃ r s', runDeclare d s = (.ok r, s') ∧ s.Enters (.declare d n) s') ∨
    ∃ e, runDeclare d s = (.error e, s) := by
  cases d with
  | host name ref ty =>
    cases hm : hostModule? ref.module with
    | none =>
      refine .inr ⟨.noHostModule ref.module, ?_⟩
      simp only [runDeclare, hm]
      rfl
    | some m =>
      cases hfn : (m.function? ref.fn).filter (·.arity = ref.arity) with
      | none =>
        refine .inr ⟨.noHostFn ref, ?_⟩
        simp only [runDeclare, hm, hfn]
        rfl
      | some fn =>
        obtain ⟨hfn, harity⟩ := Option.filter_eq_some_iff.1 hfn
        refine .inl (runDeclare_enters ?_ n s)
        rintro _ _ _ ⟨⟩
        exact ⟨m, fn, hm, hfn, by simpa using harity⟩
  | _ =>
    refine .inl (runDeclare_enters ?_ n s)
    rintro _ _ _ ⟨⟩

theorem runForm_of_runThunk (ht : ¬ IsEntry t)
    (h : runThunk t s = (.ok (a, closures), s₁)) :
    runForm t s = (match s₁.machine.heap.decode a with
      | .ok v => .ok ⟨.value v t.ann, closures⟩
      | .error f => .error (.fault f), s₁) := by
  cases t with
  | define | declare => exact absurd trivial ht
  | _ =>
    refine (bind_ok h).trans ((bind_ok rfl).trans ?_)
    cases s₁.machine.heap.decode a <;> rfl

theorem runForm_of_runThunk_error (ht : ¬ IsEntry t) {e : RunError}
    (h : runThunk t s = (.error e, s₁)) : runForm t s = (.error e, s₁) := by
  cases t with
  | define | declare => exact absurd trivial ht
  | _ => exact bind_error h

theorem runForm_snd (ht : ¬ IsEntry t) (s : Session) : (runForm t s).2 = (runThunk t s).2 := by
  cases h : runThunk t s with
  | mk r s₁ =>
    cases r with
    | error e => rw [runForm_of_runThunk_error ht h]
    | ok r => rw [runForm_of_runThunk ht h]

/-- **What a form can do**: enter something into the environment, or nothing that stays. -/
theorem runForm_cases (t : Expr Ty) (s : Session) :
    (∃ r s', runForm t s = (.ok r, s') ∧ s.Enters t s') ∨
    s.Quiet (runForm t s).2 ∧ (IsEntry t → ∃ e, (runForm t s).1 = .error e) := by
  by_cases ht : IsEntry t
  · have hcases : (∃ r s', runForm t s = (.ok r, s') ∧ s.Enters t s') ∨
        ∃ e s', runForm t s = (.error e, s') ∧ s.Quiet s' := by
      cases t with
      | define name declared body n => exact runDefine_cases name declared body n s
      | declare d n =>
        exact (runDeclare_cases d n s).imp_right fun ⟨e, hrun⟩ => ⟨e, s, hrun, .refl s⟩
      | _ => exact ht.elim
    rcases hcases with henters | ⟨e, s', hrun, hquiet⟩
    · exact .inl henters
    · rw [hrun]
      exact .inr ⟨hquiet, fun _ => ⟨e, rfl⟩⟩
  · rw [runForm_snd ht]
    exact .inr ⟨quiet_runThunk t s, fun h => absurd h ht⟩

/-- The session after garbage has been collected, if that was due. -/
def collected (s : Session) : Session := { s with machine := (collectIfDue s.machine).2 }

theorem run_eq (t : Expr Ty) (s : Session) :
    run t s = ((runForm t s).1, (runForm t s).2.collected) := rfl

/-- The session in which a form has been analysed and its type inferred. -/
def withSupply (s : Session) (supply : Supply) : Session := { s with supply }

/-- The session after analysis has left a supply and inference the next type variable. -/
abbrev inferred (s : Session) (supply : Supply) (k : TyVar) : Session :=
  s.withSupply { supply with tyVar := k }

/-- Whether a form is analysed to an expression, with what is left of the supply. -/
abbrev Analyses (s : Session) (f : Form) (e : Expr Unit) (supply : Supply) : Prop :=
  (TypedLisp.analyse s.env s.ns f).run s.supply = .ok (e, supply)

/-! ## Evaluation -/

/-- Evaluates a form, where `exec` runs it once it has a type. -/
def evalBy (exec : Expr Ty → Action RunError Ran) (f : Form) : Action EvalError Outcome := do
  let e ← lift .analysis (analyse f)
  let typed ← lift .type (infer e)
  return (← lift .run (exec typed)).outcome

section EvalBy

variable {f : Form} {s : Session} {e : Expr Unit} {supply : Supply}
variable {err : AnalysisError}

theorem evalBy_of_analyse_error (exec : Expr Ty → Action RunError Ran)
    (ha : (TypedLisp.analyse s.env s.ns f).run s.supply = .error err) :
    evalBy exec f s = (.error (.analysis err), s) := by
  have hanalyse : lift .analysis (analyse f) s = (.error (.analysis err), s) := by
    simp only [lift, analyse, ha]
    rfl
  exact bind_error hanalyse

theorem lift_analyse_ok (ha : s.Analyses f e supply) :
    lift .analysis (analyse f) s = (.ok e, s.withSupply supply) := by
  simp only [lift, analyse, ha]
  rfl

theorem evalBy_of_infer_error (exec : Expr Ty → Action RunError Ran) {err : TypeError}
    (ha : s.Analyses f e supply) (ht : (TypedLisp.infer e).run supply.tyVar = .error err) :
    evalBy exec f s = (.error (.type err), s.withSupply supply) := by
  have hinfer : lift .type (infer e) (s.withSupply supply) =
      (.error (.type err), s.withSupply supply) := by
    simp only [lift, infer, withSupply, ht]
    rfl
  exact (bind_ok (lift_analyse_ok ha)).trans (bind_error hinfer)

theorem evalBy_of_infer (exec : Expr Ty → Action RunError Ran) {k : TyVar}
    (ha : s.Analyses f e supply) (ht : e.Infers supply t k) :
    evalBy exec f s = (match (exec t (s.inferred supply k)).1 with
      | .ok r => .ok r.outcome
      | .error err => .error (.run err), (exec t (s.inferred supply k)).2) := by
  have hinfer : lift .type (infer e) (s.withSupply supply) = (.ok t, s.inferred supply k) := by
    simp only [lift, infer, withSupply, ht]
    rfl
  refine (bind_ok (lift_analyse_ok ha)).trans ((bind_ok hinfer).trans ?_)
  cases hrun : exec t (s.inferred supply k) with
  | mk r s' =>
    cases r with
    | ok r =>
      have hlift : lift .run (exec t) (s.inferred supply k) = (.ok r, s') := by
        simp only [lift, hrun]
        rfl
      exact (bind_ok hlift).trans rfl
    | error err =>
      have hlift : lift .run (exec t) (s.inferred supply k) = (.error (.run err), s') := by
        simp only [lift, hrun]
        rfl
      exact bind_error hlift

theorem eval_of_analyse_error (ha : (TypedLisp.analyse s.env s.ns f).run s.supply = .error err) :
    eval f s = (.error (.analysis err), s) := evalBy_of_analyse_error run ha

theorem eval_of_infer_error {err : TypeError} (ha : s.Analyses f e supply)
    (ht : (TypedLisp.infer e).run supply.tyVar = .error err) :
    eval f s = (.error (.type err), s.withSupply supply) := evalBy_of_infer_error run ha ht

theorem eval_of_infer {k : TyVar} (ha : s.Analyses f e supply)
    (ht : e.Infers supply t k) :
    eval f s = (match (run t (s.inferred supply k)).1 with
      | .ok r => .ok r.outcome
      | .error err => .error (.run err), (run t (s.inferred supply k)).2) := evalBy_of_infer run ha ht

end EvalBy

/-- **What evaluation of a form is made of.** -/
theorem eval_cases (f : Form) (s : Session) :
    (∃ e, (TypedLisp.analyse s.env s.ns f).run s.supply = .error e ∧
      eval f s = (.error (.analysis e), s)) ∨
    (∃ e supply err, s.Analyses f e supply ∧ (TypedLisp.infer e).run supply.tyVar = .error err ∧
      eval f s = (.error (.type err), s.withSupply supply)) ∨
    ∃ e supply t k, s.Analyses f e supply ∧ e.Infers supply t k ∧
      eval f s = (match (run t (s.inferred supply k)).1 with
        | .ok r => .ok r.outcome
        | .error err => .error (.run err), (run t (s.inferred supply k)).2) := by
  cases ha : (TypedLisp.analyse s.env s.ns f).run s.supply with
  | error e => exact .inl ⟨e, rfl, eval_of_analyse_error ha⟩
  | ok r =>
    obtain ⟨e, supply⟩ := r
    cases ht : (TypedLisp.infer e).run supply.tyVar with
    | error err => exact .inr (.inl ⟨e, supply, err, ha, ht, eval_of_infer_error ha ht⟩)
    | ok r =>
      obtain ⟨t, k⟩ := r
      exact .inr (.inr ⟨e, supply, t, k, ha, ht, eval_of_infer ha ht⟩)

/-- Evaluates a form, and collects no garbage afterwards. -/
def evalOnly (f : Form) : Action EvalError Outcome := evalBy runForm f

/-! ## Calls from outside -/

/-- An action that is quiet from whatever session it starts. -/
abbrev IsQuiet (act : Action ε α) : Prop := Advances Quiet act

theorem quiet_withMachine (s : Session) {m : Machine} (hheap : s.machine.heap ≤ m.heap)
    (hcells : m.cells = s.machine.cells ∧ m.tracked = s.machine.tracked)
    (hfault : s.machine.fault = none → m.fault = none) : s.Quiet { s with machine := m } :=
  ⟨rfl, rfl, rfl, rfl, hheap, hcells.1, hcells.2 ▸ List.Subset.refl _, hfault⟩

/-- **A call from outside** puts its arguments on the heap and clears the fault slot. Then either no
function is entered, or one is that is on the heap, and runs. No fault is left. -/
theorem leads_callVar {R : Session → Session → Prop} [IsPreorder Session R] {args : List Value}
    (v : Var) (hencode : Advances R (onMachine (encodeArgs args) : Action RunError _))
    (hclear : ∀ s : Session, R s { s with machine := { s.machine with fault := none } })
    (hrefuse : ∀ {limit f argc m} {s : Session},
      enter limit f argc { s.machine with fault := none } = (none, m) →
        R s { s with machine := { m with fault := none } })
    (hrun : ∀ {depth f fn} {s : Session} (as : List Addr), s.machine.heap.get? f = some (.fn fn) →
      R s { s with machine := { (fn.run (call depth) as s.machine).2 with fault := none } }) :
    Advances R (callVar v args) := by
  refine .bind .get fun s => ?_
  split
  · rename_i f hf
    refine .bind hencode fun r => ?_
    split
    · refine .bind (.pure _) fun as => .bind .get fun s => fun s₁ => ?_
      cases hentered : enter s.callLimit f as.length { s₁.machine with fault := none } with
      | mk entered m =>
        have henter : (onMachine (do let _ ← takeFault; enter s.callLimit f as.length) :
            Action RunError _) s₁ = (.ok entered, { s₁ with machine := m }) := by
          show (Except.ok (enter _ _ _ { s₁.machine with fault := none }).1,
            { s₁ with machine := (enter _ _ _ { s₁.machine with fault := none }).2 }) = _
          rw [hentered]
        rw [bind_ok henter]
        cases entered with
        | none => exact hrefuse hentered
        | some fn =>
          obtain ⟨rfl, hfn⟩ := get?_of_enter_eq_some hentered
          refine IsTrans.trans _ _ _ (hclear s₁) ?_
          dsimp only
          split
          · exact refl _
          · refine Advances.bind_of (hrun as hfn) fun (a, fault) => ?_
            cases fault with
            | some e => exact .throw _
            | none =>
              refine .bind .get fun s => ?_
              split
              · exact .pure _
              · exact .throw _
    · exact .throw_bind _ _
  · exact .throw _

theorem isQuiet_callVar (v : Var) (args : List Value) : IsQuiet (callVar v args) := by
  refine leads_callVar v
    (fun s => quiet_withMachine s (Heap.leads_encodeAll args s.machine.heap) ⟨rfl, rfl⟩ id)
    (fun s => quiet_withMachine s (le_refl _) ⟨rfl, rfl⟩ fun _ => rfl)
    (fun {limit f argc m s} hentered => ?_) fun {depth f fn s} as _ => ?_
  · have hgrows := leads_enter (R := LE.le) limit f argc { s.machine with fault := none }
    rw [hentered] at hgrows
    exact quiet_withMachine s hgrows.1 hgrows.2.1 fun _ => rfl
  · have hgrows := FnObject.grows_run (grows_call depth) fn as s.machine
    exact quiet_withMachine s hgrows.1 hgrows.2.1 fun _ => rfl

theorem invoke_of_resolve_error {e : EvalError} (h : s.resolve sym = .error e) (args : List Value) :
    invoke sym args s = (.error e, s) := by
  refine (bind_ok rfl).trans ?_
  simp only [h]
  rfl

theorem invoke_of_resolve (h : s.resolve sym = .ok v) (args : List Value) :
    invoke sym args s =
      ((callVar v args s).1.mapError .run, (callVar v args s).2.collected) := by
  refine (bind_ok rfl).trans ?_
  simp only [h]
  rfl

/-- Calls the function that a symbol names, and collects no garbage afterwards. -/
def invokeOnly (sym : String) (args : List Value) : Action EvalError Value := do
  match (← get).resolve sym with
  | .ok v => lift .run (callVar v args)
  | .error e => throw e

theorem invokeOnly_of_resolve_error {e : EvalError} (h : s.resolve sym = .error e)
    (args : List Value) : invokeOnly sym args s = (.error e, s) := by
  refine (bind_ok rfl).trans ?_
  simp only [h]
  rfl

theorem invokeOnly_of_resolve (h : s.resolve sym = .ok v) (args : List Value) :
    invokeOnly sym args s =
      ((callVar v args s).1.mapError .run, (callVar v args s).2) := by
  refine (bind_ok rfl).trans ?_
  simp only [h]
  rfl

theorem invoke_cases (sym : String) (args : List Value) (s : Session) :
    (invoke sym args s).2 = s ∨ ∃ s₁, s.Quiet s₁ ∧ (invoke sym args s).2 = s₁.collected := by
  cases h : s.resolve sym with
  | error e => exact .inl (by rw [invoke_of_resolve_error h])
  | ok v =>
    refine .inr ⟨(callVar v args s).2, isQuiet_callVar v args s, ?_⟩
    rw [invoke_of_resolve h]

end Session

end TypedLisp
