import TypedLisp.Proofs.Renumbering.Analysis
import TypedLisp.Proofs.Renumbering.Execution
import TypedLisp.Proofs.Renumbering.Inference
import TypedLisp.Proofs.Session.TypeSoundness

/-!
# Sessions that differ in numbers only

Two sessions are alike if they have the same definitions up to a renumbering, and cells that hold
the same objects at addresses that may differ (`Session.Alike`). What else is on their heaps, and
when they collect it, does not matter. Forms and calls from outside give the same answers in both up
to the numbers of type variables, and lead to sessions that are alike.
-/

namespace TypedLisp

/-! ## Environments -/

namespace Renumbering

variable (ρ : Renumbering)

theorem onEnv_withVar (e : Env) (v : Var) :
    (ρ.onEnv e).withVar (ρ.onVar v) = ρ.onEnv (e.withVar v) := ρ.recasting.onEnv_withVar e v

theorem onEnv_withDataType (e : Env) (d : DataType) (vs : List Var) :
    (ρ.onEnv e).withDataType (ρ.onDataType d) (vs.map ρ.onVar) = ρ.onEnv (e.withDataType d vs) :=
  ρ.recasting.onEnv_withDataType e d vs

theorem onTy_dataType (d : DataType) : (ρ.onDataType d).ty = ρ.onTy d.ty := by
  unfold DataType.ty
  rw [show (ρ.onDataType d).params = d.params.map ρ.tyVar from rfl, List.isEmpty_map]
  split
  · rfl
  · rw [onTy, Ty.rename_applied, Ty.rename_data, List.map_map, List.map_map]
    rfl

theorem constructorTy_onDataType (d : DataType) (c : Constructor) :
    (ρ.onDataType d).constructorTy (ρ.onConstructor c) = ρ.onTy (d.constructorTy c) := by
  obtain ⟨name, fields⟩ := c
  cases fields with
  | none => exact ρ.onTy_dataType d
  | some ts =>
    show Ty.fn (ts.map ρ.onTy) (ρ.onDataType d).ty = (Ty.fn ts d.ty).rename ρ.tyVar
    rw [onTy_dataType, Ty.rename_fn]
    rfl

theorem arity_onConstructor (c : Constructor) : (ρ.onConstructor c).arity = c.arity := by
  obtain ⟨name, fields⟩ := c
  cases fields with
  | none => rfl
  | some ts => exact List.length_map _

/-! ## Answers -/

/-- The outcome with other numbers for the variables of its type. -/
def onOutcome : Outcome → Outcome
  | .value v t => .value v (ρ.onTy t)
  | .defined name t => .defined name (ρ.onTy t)
  | .declared name t => .declared name (ρ.onTy t)
  | .dataType name constructors => .dataType name constructors
  | .ns name => .ns name

theorem onOutcome_id (o : Outcome) : Renumbering.id.onOutcome o = o := by
  cases o <;> simp only [onOutcome, onTy_id]

end Renumbering

/-- The error with other numbers for the variables of its types. -/
def EvalError.rename (f : TyVar → TyVar) : EvalError → EvalError
  | .type e => .type (e.rename f)
  | e => e

theorem EvalError.rename_id (e : EvalError) : e.rename Renumbering.id.tyVar = e := by
  cases e with
  | type e => exact congrArg EvalError.type e.rename_id
  | _ => rfl

namespace Session

open Machine

variable {f f' : Session → Session} {body : Expr Ty} {m m' : Machine}

/-! ## Sessions -/

/-- Whether two sessions are the same up to a renumbering, and up to where objects are. -/
structure Alike (ρ : Renumbering) (μ : Matching) (s s' : Session) : Prop where
  env_eq : s'.env = ρ.onEnv s.env
  ns_eq : s'.ns = s.ns
  supply_eq : s'.supply = ρ.onSupply s.supply
  good : ρ.analysing.Good s.supply
  machines : μ.Machines s.machine s'.machine
  limit_eq : s'.callLimit = s.callLimit

/-- Whether two actions lead from two sessions to sessions that are alike, and end in the same
way. -/
abbrev Follow (ρ : Renumbering) (μ : Matching) {ε α β : Type} (act : Action ε α)
    (act' : Action ε β) (s s' : Session) (Q : Heap → Heap → α → β → Prop) : Prop :=
  Lockstep (Alike ρ μ) (·.machine.heap) (·.machine.heap) id act act' s s' Q

variable {ρ : Renumbering} {μ : Matching} {s s' : Session} {ε α β : Type}
  {Q : Heap → Heap → α → β → Prop}

theorem follow_onMachine {act : Run α} {act' : Run β} (hs : Alike ρ μ s s')
    (h : μ.Tracks act act' s.machine s'.machine Q) :
    Follow ρ μ (onMachine act : Action ε α) (onMachine act') s s' Q :=
  ⟨{ hs with machines := h.machines }, h.le, h.le_right, .ok h.result⟩

theorem follow_modify (h : Alike ρ μ (f s) (f' s')) (hf : (f s).machine = s.machine)
    (hf' : (f' s').machine = s'.machine) :
    Follow ρ μ (MonadStateOf.modifyGet fun s => ((), f s) : Action ε Unit)
      (MonadStateOf.modifyGet fun s => ((), f' s)) s s' fun _ _ _ _ => True :=
  ⟨h, le_of_eq (by rw [← hf]; rfl), le_of_eq (by rw [← hf']; rfl), .ok trivial⟩

theorem follow_modify_pure {r r' : Ran} (h : Alike ρ μ (f s) (f' s'))
    (hf : (f s).machine = s.machine) (hf' : (f' s').machine = s'.machine)
    (hr : r'.outcome = ρ.onOutcome r.outcome) :
    Follow ρ μ (modify f >>= fun _ => pure r : Action RunError Ran)
      (modify f' >>= fun _ => pure r' : Action RunError Ran) s s'
      fun _ _ r r' => r'.outcome = ρ.onOutcome r.outcome :=
  (follow_modify h hf hf').bind fun _ _ _ _ ht _ _ _ => .pure ht hr

/-! ## New sessions -/

theorem machines_defineBuiltin (hμ : μ.KeepsNative) (hm : μ.Machines s.machine s'.machine)
    (b : Builtin) : μ.Machines (s.defineBuiltin b).machine (s'.defineBuiltin b).machine := by
  have hbind : μ.Tracks
      (do
        let cell ← newCell (GlobalName.text ⟨coreNs, b.name⟩)
        store cell (← allocPinned (builtinObject b))
        return cell)
      (do
        let cell ← newCell (GlobalName.text ⟨coreNs, b.name⟩)
        store cell (← allocPinned (builtinObject b))
        return cell) s.machine s'.machine fun _ _ _ _ => True := by
    refine (Matching.tracks_newCell hm _).bind fun n n' c _ hn _ _ hc => ?_
    subst hc
    refine (Matching.Tracks.allocPinned hn (.fn (hμ (.builtin b))) rfl rfl).bind
      fun n n' a _ hn _ _ ⟨ha, hfound⟩ => ?_
    subst ha
    exact (Matching.tracks_store hn _ hfound).bind fun _ _ _ _ hn _ _ _ => .pure hn trivial
  exact hbind.machines

/-- New sessions have the same machine, whatever stands for functions made of code. -/
theorem machines_start (hμ : μ.KeepsNative) (haddr : ∀ a, μ.addr a = a) (limit : Nat) :
    μ.Machines (Session.start limit).machine (Session.start limit).machine :=
  Session.start_induction (P := fun s => μ.Machines s.machine s.machine)
    ⟨⟨fun _ => haddr _, le_refl _, le_refl _⟩, Array.map_empty.symm, nofun, rfl⟩
    fun _ b hs => machines_defineBuiltin hμ hs b

/-! ## Objects of definitions -/

theorem Alike.units (hs : Alike ρ μ s s') (n n' : Nat) :
    Alike ρ μ { s with units := n } { s' with units := n' } := { hs with }

theorem follow_compileEntry (hs : Alike ρ μ s s') {params : List Local} {code : Code}
    (hcode : body.lower params = .ok code) :
    Follow ρ μ (compileEntry params body)
      (compileEntry (params.map ρ.onLocal) (ρ.onExpr ρ.onTy body)) s s'
      fun _ _ r r' => r.1 = code ∧ r'.1 = ρ.onCode code := by
  have hcode' : (ρ.onExpr ρ.onTy body).lower (params.map ρ.onLocal) = .ok (ρ.onCode code) := by
    rw [ρ.lower, hcode]
    rfl
  have halike : Alike ρ μ (s.withUnit code) (s'.withUnit (ρ.onCode code)) :=
    { hs with machines := (Matching.tracks_track hs.machines _ _).machines }
  exact .of_eq (compileEntry_ok hcode s) (compileEntry_ok hcode' s') halike (le_refl _)
    (le_refl _) (.ok ⟨rfl, rfl⟩)

theorem tracks_andFault {act act' : Run Addr} (h : μ.Tracks act act' m m' μ.Address) :
    μ.Tracks (do let a ← act; return (a, ← takeFault)) (do let a ← act'; return (a, ← takeFault))
      m m' fun h h' r r' => μ.Address h h' r.1 r'.1 ∧ r'.2 = r.2 :=
  h.bind fun _ _ _ _ hn _ _ ⟨ha, hfound⟩ => (Matching.tracks_takeFault hn).bind
    fun _ _ _ _ hn hle hle' hf => .pure hn ⟨⟨ha, hfound.of_le hle hle'⟩, hf⟩

theorem follow_runThunk (hμ : μ.Renumbers) (hs : Alike ρ μ s s') {e : Expr Ty} {code : Code}
    (hcode : e.lower [] = .ok code) :
    Follow ρ μ (runThunk e) (runThunk (ρ.onExpr ρ.onTy e)) s s'
      fun h h' r r' => μ.Address h h' r.1 r'.1 := by
  refine (follow_compileEntry hs hcode).bind fun t t' (c, _) (c', _) ht _ _ ⟨hc, hc'⟩ =>
    .get_bind ?_
  obtain rfl : c = code := hc
  obtain rfl : c' = ρ.onCode c := hc'
  dsimp only
  rw [ht.limit_eq]
  have heval : μ.Tracks
      (do
        let _ ← takeFault
        let a ← c.eval (call t.callLimit) []
        return (a, ← takeFault))
      (do
        let _ ← takeFault
        let a ← (ρ.onCode c).eval (call t.callLimit) []
        return (a, ← takeFault)) t.machine t'.machine
      fun h h' r r' => μ.Address h h' r.1 r'.1 ∧ r'.2 = r.2 := by
    refine (Matching.tracks_takeFault ht.machines).bind fun n n' _ _ hn _ _ _ => ?_
    exact tracks_andFault
      (Matching.tracks_eval hμ (Matching.tracks_call hμ _) c hn ⟨rfl, List.forall_mem_nil _⟩)
  refine (follow_onMachine ht heval).bind fun u u' (a, f) (a', f') hu _ _ ⟨ha, hf⟩ => ?_
  obtain rfl : f' = f := hf
  cases f' with
  | some f => exact .throw hu _
  | none => exact .pure hu ha

/-! ## Cells of definitions -/

theorem var?_eq (hs : Alike ρ μ s s') (name : GlobalName) :
    s'.env.var? name = (s.env.var? name).map ρ.onVar := by
  rw [hs.env_eq, Renumbering.var?_onEnv]

theorem keeps_onVar (v : Var) (ty : Ty) :
    ((ρ.onVar v).visible.map (·.alphaEquivalent (ρ.onTy ty))).getD false =
      (v.visible.map (·.alphaEquivalent ty)).getD false := by
  rw [ρ.recasting.visible_onVar]
  cases v.visible with
  | none => rfl
  | some t => exact Ty.alphaEquivalent_rename ρ.tyVar_injective t ty

theorem follow_newCell (hs : Alike ρ μ s s') (name : String) :
    Follow ρ μ (onMachine (newCell name) : Action ε Cell) (onMachine (newCell name)) s s'
      fun _ _ c c' => c' = c := follow_onMachine hs (Matching.tracks_newCell hs.machines name)

theorem follow_linkCell (hs : Alike ρ μ s s') (name : GlobalName) (ty : Ty) :
    Follow ρ μ (linkCell name ty) (linkCell name (ρ.onTy ty)) s s' fun _ _ c c' => c' = c := by
  refine .get_bind ?_
  rw [var?_eq hs]
  cases s.env.var? name with
  | none => exact follow_newCell hs _
  | some v =>
    dsimp only [Option.map_some]
    rw [keeps_onVar]
    split
    · exact .pure hs rfl
    · exact follow_newCell hs _

theorem follow_bindObject (hs : Alike ρ μ s s') (name : GlobalName) (ty : Ty) {a : Addr}
    (ha : μ.Found s.machine.heap s'.machine.heap a) :
    Follow ρ μ (bindObject name ty a) (bindObject name (ρ.onTy ty) (μ.addr a)) s s'
      fun _ _ c c' => c' = c := by
  refine (follow_linkCell hs name ty).bind fun t t' c _ ht hle hle' hc => ?_
  subst hc
  refine (follow_onMachine ht
    (Matching.tracks_storeTracked ht.machines _ (ha.of_le hle hle'))).bind
    fun u u' _ _ hu _ _ _ => .pure hu rfl

theorem Alike.withVar (hs : Alike ρ μ s s') (v : Var) :
    Alike ρ μ { s with env := s.env.withVar v } { s' with env := s'.env.withVar (ρ.onVar v) } :=
  { hs with env_eq := by rw [hs.env_eq, Renumbering.onEnv_withVar] }

/-! ## Definitions -/

theorem follow_definedObject (hμ : μ.Renumbers) (hs : Alike ρ μ s s') (name : GlobalName)
    (hbody : DefinesCode body) :
    Follow ρ μ (definedObject name body) (definedObject name (ρ.onExpr ρ.onTy body)) s s'
      fun h h' r r' => μ.Address h h' r.1 r'.1 ∧ r'.2.1 = r.2.1 := by
  cases body with
  | fn params b n =>
    obtain ⟨code, hcode⟩ := hbody
    refine (follow_compileEntry hs hcode).bind fun t t' (c, _) (c', _) ht _ _ ⟨hc, hc'⟩ => ?_
    obtain rfl : c = code := hc
    obtain rfl : c' = ρ.onCode c := hc'
    have hfn : ∀ a, μ.fn a ⟨name.text, params.length, .code params [] c, []⟩
        ⟨name.text, (params.map ρ.onLocal).length,
          .code (params.map ρ.onLocal) [] (ρ.onCode c), []⟩ :=
      fun _ => hμ.2 ⟨rfl, List.length_map _, rfl, .code ρ params [] c⟩
    refine (follow_onMachine ht (.alloc ht.machines (.fn (hfn _)) nofun)).bind
      fun u u' a a' hu _ _ ha => .pure hu ⟨ha, ?_⟩
    exact congrArg VarKind.fn (List.length_map _)
  | _ =>
    obtain ⟨code, hcode⟩ := hbody
    exact (follow_runThunk hμ hs hcode).bind fun t t' (a, _) (a', _) ht _ _ ha => .pure ht ⟨ha, rfl⟩

theorem follow_runDefine (hμ : μ.Renumbers) (hs : Alike ρ μ s s') (name : GlobalName)
    (declared : Option Ty) (hbody : DefinesCode body) :
    Follow ρ μ (runDefine name declared body)
      (runDefine name (declared.map ρ.onTy) (ρ.onExpr ρ.onTy body)) s s'
      fun _ _ r r' => r'.outcome = ρ.onOutcome r.outcome := by
  have hty : (declared.map ρ.onTy).getD (ρ.onExpr ρ.onTy body).ann =
      ρ.onTy (declared.getD body.ann) := by
    rw [Recasting.ann_onExpr]
    cases declared <;> rfl
  rw [runDefine_eq, runDefine_eq, hty, Recasting.ann_onExpr]
  refine (follow_definedObject hμ hs name hbody).bind
    fun t t' (a, kind, _) (a', kind', _) ht _ _ ⟨⟨ha, hfound⟩, hkind⟩ => ?_
  obtain rfl : a' = μ.addr a := ha
  obtain rfl : kind' = kind := hkind
  refine (follow_bindObject ht name _ hfound).bind fun u u' c _ hu _ _ hc => ?_
  subst hc
  exact follow_modify_pure
    (hu.withVar { name, kind := kind', cell := _, declared, inferred := some body.ann }) rfl rfl rfl

/-! ## Declarations -/

theorem follow_declareVar (hs : Alike ρ μ s s') (name : GlobalName) (ty : Ty) :
    Follow ρ μ (declareVar name ty) (declareVar name (ρ.onTy ty)) s s'
      fun _ _ v v' => v' = ρ.onVar v := by
  have hnew : Follow ρ μ
      (do
        let cell ← onMachine (newCell name.text)
        return { name, cell, kind := .declared, declared := some ty } : Action RunError Var)
      (do
        let cell ← onMachine (newCell name.text)
        return { name, cell, kind := .declared, declared := some (ρ.onTy ty) }) s s'
      fun _ _ v v' => v' = ρ.onVar v :=
    (follow_newCell hs name.text).bind fun t t' c c' ht _ _ hc => .pure ht (by rw [hc]; rfl)
  refine .get_bind ?_
  rw [var?_eq hs]
  cases s.env.var? name with
  | none => exact hnew
  | some v =>
    dsimp only [Option.map_some]
    rw [keeps_onVar]
    split
    · exact .pure hs rfl
    · exact hnew

theorem constructorObject_onDataType (d : DataType) (c : Constructor) (tag : Nat) :
    constructorObject (ρ.onDataType d) (ρ.onConstructor c) tag = constructorObject d c tag := by
  simp only [constructorObject, Renumbering.arity_onConstructor]
  rfl

theorem objects_constructorObject (hμ : μ.KeepsNative) (d : DataType) (c : Constructor) (tag : Nat)
    (a : Addr) : μ.Objects a (constructorObject d c tag) (constructorObject d c tag) ∧
      (constructorObject d c tag).children = [] := by
  unfold constructorObject
  split
  · exact ⟨.fn (hμ (.construct _)), rfl⟩
  · exact ⟨.variant _ [], rfl⟩

theorem follow_constructorVar (hμ : μ.KeepsNative) (hs : Alike ρ μ s s') (d : DataType)
    (c : Constructor) (tag : Nat) :
    Follow ρ μ (constructorVar d c tag)
      (constructorVar (ρ.onDataType d) (ρ.onConstructor c) tag) s s'
      fun _ _ v v' => v' = ρ.onVar v := by
  obtain ⟨hobject, hchildren⟩ := objects_constructorObject hμ d c tag s.machine.heap.slots.size
  unfold constructorVar
  rw [constructorObject_onDataType, Renumbering.constructorTy_onDataType]
  refine (follow_onMachine hs (.alloc hs.machines hobject (by simp [hchildren]))).bind
    fun t t' a _ ht _ _ ⟨ha, hfound⟩ => ?_
  subst ha
  refine (follow_bindObject ht c.name _ hfound).bind fun u u' cell _ hu _ _ hc => .pure hu ?_
  subst hc
  rw [Renumbering.arity_onConstructor]
  rfl

theorem follow_constructorVars (hμ : μ.KeepsNative) (hs : Alike ρ μ s s') (d : DataType) :
    Follow ρ μ (d.constructors.zipIdx.mapM fun (c, tag) => constructorVar d c tag)
      ((ρ.onDataType d).constructors.zipIdx.mapM fun (c, tag) =>
        constructorVar (ρ.onDataType d) c tag) s s' fun _ _ vs vs' => vs' = vs.map ρ.onVar := by
  have hzip : (ρ.onDataType d).constructors.zipIdx =
      d.constructors.zipIdx.map fun c => (ρ.onConstructor c.1, c.2) := List.zipIdx_map ..
  rw [hzip]
  exact .mapM (fun c _ _ _ hs => follow_constructorVar hμ hs d c.1 c.2) hs

theorem Alike.withDataType (hs : Alike ρ μ s s') (d : DataType) (vs : List Var) :
    Alike ρ μ { s with env := s.env.withDataType d vs }
      { s' with env := s'.env.withDataType (ρ.onDataType d) (vs.map ρ.onVar) } :=
  { hs with env_eq := by rw [hs.env_eq, Renumbering.onEnv_withDataType] }

theorem follow_runDeclare (hμ : μ.KeepsNative) (hs : Alike ρ μ s s') (d : Declaration) :
    Follow ρ μ (runDeclare d) (runDeclare (ρ.onDeclaration d)) s s'
      fun _ _ r r' => r'.outcome = ρ.onOutcome r.outcome := by
  cases d with
  | ns d =>
    refine follow_modify_pure ?_ rfl rfl rfl
    exact { hs with env_eq := by rw [hs.env_eq]; rfl, ns_eq := rfl }
  | ascribe name ty =>
    refine (follow_declareVar hs name ty).bind fun t t' v _ ht _ _ hv => ?_
    subst hv
    exact follow_modify_pure (ht.withVar v) rfl rfl rfl
  | data d =>
    have hany : (ρ.onDataType d).constructors.any (0 < ·.arity) =
        d.constructors.any (0 < ·.arity) := by
      show (d.constructors.map ρ.onConstructor).any _ = _
      rw [List.any_map]
      exact congrArg d.constructors.any (funext fun c => by simp [ρ.arity_onConstructor])
    have hnames : Outcome.dataType d.name ((ρ.onDataType d).constructors.map (·.name)) =
        ρ.onOutcome (.dataType d.name (d.constructors.map (·.name))) :=
      congrArg (Outcome.dataType d.name) List.map_map
    simp only [Renumbering.onDeclaration, runDeclare, hany]
    split
    · refine (follow_modify (hs.units _ _) rfl rfl).bind fun t t' _ _ ht _ _ _ => ?_
      refine (follow_constructorVars hμ ht d).bind fun u u' vs _ hu _ _ hvs => ?_
      subst hvs
      exact follow_modify_pure (hu.withDataType d vs) rfl rfl hnames
    · refine (follow_constructorVars hμ hs d).bind fun u u' vs _ hu _ _ hvs => ?_
      subst hvs
      exact follow_modify_pure (hu.withDataType d vs) rfl rfl hnames
  | host name ref ty =>
    simp only [Renumbering.onDeclaration, runDeclare]
    cases hostModule? ref.module with
    | none => exact .throw hs _
    | some module =>
      dsimp only
      cases (module.function? ref.fn).filter (·.arity = ref.arity) with
      | none => exact .throw hs _
      | some fn =>
        refine (follow_onMachine hs (.alloc hs.machines (.fn (hμ (.host fn)))
          (List.forall_mem_nil _))).bind ?_
        rintro t t' a _ ht - - ⟨rfl, hfound⟩
        refine (follow_bindObject ht name ty hfound).bind fun u u' cell _ hu _ _ hc => ?_
        subst hc
        exact follow_modify_pure
          (hu.withVar { name, cell := _, kind := .host ref.arity, declared := some ty }) rfl rfl rfl

/-! ## Any form -/

/-- **A typed form runs in the same way in both sessions.** -/
theorem follow_runForm (hμ : μ.Renumbers) (hs : Alike ρ μ s s') {t : Expr Ty} (ht : HasCode t) :
    Follow ρ μ (runForm t) (runForm (ρ.onExpr ρ.onTy t)) s s'
      fun _ _ r r' => r'.outcome = ρ.onOutcome r.outcome := by
  cases t with
  | define name declared body n => exact follow_runDefine hμ hs name declared ht
  | declare d n => exact follow_runDeclare hμ.keepsNative hs d
  | _ =>
    obtain ⟨code, hcode⟩ := ht
    refine (follow_runThunk hμ hs hcode).bind fun t t' (a, _) (a', _) ht _ _ ⟨ha, hfound⟩ =>
      .get_bind ?_
    obtain rfl : a' = μ.addr a := ha
    rw [hfound.decode_eq]
    cases t.machine.heap.decode a with
    | ok v => exact .pure ht (by rw [Recasting.ann_onExpr]; rfl)
    | error f => exact .throw ht _

theorem Alike.collects (hμ : μ.Renumbers) (hs : Alike ρ μ s s') {t t' : Session}
    (h : s.Collects t) (hc : s.Covered) (h' : s'.Collects t') (hc' : s'.Covered) :
    Alike ρ μ t t' := by
  have ht : Alike ρ μ t s' := by
    cases h with
    | skipped => exact hs
    | swept => exact { hs with machines := hs.machines.collectGarbage hc }
  cases h' with
  | skipped => exact ht
  | swept => exact { ht with machines := ht.machines.collectGarbage_right hμ.sameCaptures hc' }

/-- An outcome or an error with other numbers for type variables. -/
def renameAnswer (ρ : Renumbering) : Except EvalError Outcome → Except EvalError Outcome
  | .ok o => .ok (ρ.onOutcome o)
  | .error e => .error (e.rename ρ.tyVar)

theorem renameAnswer_id (r : Except EvalError Outcome) : renameAnswer .id r = r := by
  cases r with
  | ok o => exact congrArg Except.ok (Renumbering.onOutcome_id o)
  | error e => exact congrArg Except.error (EvalError.rename_id e)

/-- **A form is evaluated in the same way in both sessions.** -/
theorem Alike.evalOnly (hμ : μ.Renumbers) (hs : Alike ρ μ s s') (hcoherent : s.Coherent) {f : Form}
    (hf : f.EvenMaps) :
    Alike ρ μ (Session.evalOnly f s).2 (Session.evalOnly f s').2 ∧
      (Session.evalOnly f s').1 = renameAnswer ρ (Session.evalOnly f s).1 := by
  unfold Session.evalOnly
  have hanalyse := ρ.follows_analyse s.env s.ns f
  have hrun' : (TypedLisp.analyse s'.env s'.ns f).run s'.supply =
      (TypedLisp.analyse (ρ.onEnv s.env) s.ns f).run (ρ.onSupply s.supply) := by
    rw [hs.env_eq, hs.ns_eq, hs.supply_eq]
  obtain ⟨e, ha, -⟩ | ⟨e, supply, err, ha, ht, -⟩ | ⟨e, supply, t, k, ha, ht, -⟩ :=
    eval_cases f s
  · have ha' := hrun'.trans (hanalyse.run_error hs.good ha)
    rw [evalBy_of_analyse_error _ ha, evalBy_of_analyse_error _ ha']
    exact ⟨hs, rfl⟩
  · obtain ⟨ha', hgood⟩ := hanalyse.run_ok hs.good ha
    have ht' := (ρ.follows_infer e).run_error hgood.1 ht
    rw [evalBy_of_infer_error _ ha ht, evalBy_of_infer_error _ (hrun'.trans ha') ht']
    exact ⟨{ hs with supply_eq := rfl, good := hgood }, rfl⟩
  · obtain ⟨ha', hgood⟩ := hanalyse.run_ok hs.good ha
    obtain ⟨ht', hgood'⟩ := (ρ.follows_infer e).run_ok hgood.1 ht
    have hs₁ : Alike ρ μ (s.inferred supply k)
        (s'.withSupply ⟨ρ.inferring.state k, (ρ.analysing.state supply).localId⟩) :=
      { hs with supply_eq := rfl, good := ⟨hgood', hgood.2⟩ }
    obtain ⟨halike, -, -, hresult⟩ := follow_runForm hμ hs₁ (hcoherent.hasCode hf ha ht)
    rw [evalBy_of_infer _ ha ht, evalBy_of_infer _ (hrun'.trans ha') ht']
    refine ⟨halike, ?_⟩
    dsimp only
    generalize (runForm t _).1 = r at hresult ⊢
    generalize (runForm (ρ.onExpr ρ.onTy t) _).1 = r' at hresult ⊢
    cases hresult with
    | ok hr => exact congrArg Except.ok hr
    | error err => rfl

theorem Alike.eval (hμ : μ.Renumbers) (hs : Alike ρ μ s s') (hcoherent : s.Coherent)
    (hc : s.Covered) (hc' : s'.Covered) {f : Form} (hf : f.EvenMaps) :
    Alike ρ μ (Session.eval f s).2 (Session.eval f s').2 ∧
      (Session.eval f s').1 = renameAnswer ρ (Session.eval f s).1 := by
  obtain ⟨halike, hsame⟩ := hs.evalOnly hμ hcoherent hf
  obtain ⟨hanswer, hcollects⟩ := eval_collects f s
  obtain ⟨hanswer', hcollects'⟩ := eval_collects f s'
  rw [hanswer, hanswer']
  exact ⟨halike.collects hμ hcollects (hc.evalOnly f) hcollects' (hc'.evalOnly f), hsame⟩

/-! ## Calls from outside -/

theorem tracks_encodeArgs (hm : μ.Machines m m') (args : List Value) :
    μ.Tracks (encodeArgs args) (encodeArgs args) m m'
      fun h h' => SameEnd id (μ.Addresses h h') := by
  obtain ⟨hheaps, hle, hle', hresult⟩ := Matching.puts_encodeAll hm.heaps args
  exact ⟨hm.of_heaps hheaps hle hle' hm.fault_eq, hle, hle', hresult⟩

theorem follow_callVar (hμ : μ.Renumbers) (hs : Alike ρ μ s s') (v : Var) (args : List Value) :
    Follow ρ μ (callVar v args) (callVar (ρ.onVar v) args) s s' fun _ _ r r' => r' = r := by
  refine .get_bind ?_
  rw [show (ρ.onVar v).cell = v.cell from rfl, hs.machines.cell?_eq]
  cases hcell : s.machine.cell? v.cell with
  | none => exact .throw hs _
  | some f =>
    have hf := hs.machines.found v.cell.id f hcell
    refine (follow_onMachine hs (tracks_encodeArgs hs.machines args)).bind
      fun t t' r r' ht hle hle' hr => ?_
    cases hr with
    | error e => exact .of_eq rfl rfl ht (le_refl _) (le_refl _) (.error _)
    | @ok as _ has =>
      obtain ⟨rfl, has⟩ := has
      refine .bind (Q := μ.Addresses) (.pure ht ⟨rfl, has⟩)
        fun t t' as _ ht hle₁ hle₁' ⟨has, hfound⟩ => .get_bind ?_
      subst has
      have hf := (hf.of_le hle hle').of_le hle₁ hle₁'
      rw [List.length_map, ht.limit_eq]
      have henter : μ.Tracks (do let _ ← takeFault; enter t.callLimit f as.length)
          (do let _ ← takeFault; enter t.callLimit (μ.addr f) as.length) t.machine t'.machine
          fun h h' => μ.Entered h h' f as.length :=
        (Matching.tracks_takeFault ht.machines).bind fun n n' _ _ hn hle hle' _ =>
          Matching.tracks_enter hn (hf.of_le hle hle') _ _
      refine (follow_onMachine ht henter).bind fun u u' _ _ hu hle₂ hle₂' hentered => ?_
      cases hentered with
      | none =>
        refine (follow_onMachine hu (Matching.tracks_takeFault hu.machines)).bind
          fun w w' e _ hw _ _ he => ?_
        subst he
        exact .throw hw _
      | some _ _ hfn _ hc =>
        dsimp only
        split
        · exact .of_eq rfl rfl hu (le_refl _) (le_refl _) (.error _)
        have hrun := Matching.tracks_run hμ (Matching.tracks_call hμ (t.callLimit - 1)) hu.machines
          hfn hc fun a ha => (hfound a ha).of_le hle₂ hle₂'
        refine (follow_onMachine hu (tracks_andFault hrun)).bind
          fun w w' (a, e) (a', e') hw _ _ ⟨⟨ha, hfound⟩, he⟩ => ?_
        obtain rfl : e' = e := he
        obtain rfl : a' = μ.addr a := ha
        cases e' with
        | some e => exact .throw hw _
        | none =>
          refine .get_bind ?_
          rw [hfound.decode_eq]
          cases w.machine.heap.decode a with
          | ok v => exact .pure hw rfl
          | error e => exact .throw hw _

theorem resolve_eq (hs : Alike ρ μ s s') (sym : String) :
    s'.resolve sym = (s.resolve sym).map ρ.onVar := by
  unfold resolve
  rw [hs.env_eq, hs.ns_eq]
  split
  · rename_i qualifier name _
    dsimp only
    rw [show (ρ.onEnv s.env).resolveQualifier s.ns qualifier =
      s.env.resolveQualifier s.ns qualifier from rfl, Renumbering.var?_onEnv]
    cases s.env.var? _ <;> rfl
  · rw [Renumbering.resolveVar_onEnv]
    cases s.env.resolveVar s.ns sym <;> rfl

/-- **A call from outside gives the same answer in both sessions.** -/
theorem Alike.invokeOnly (hμ : μ.Renumbers) (hs : Alike ρ μ s s') (sym : String)
    (args : List Value) :
    Alike ρ μ (Session.invokeOnly sym args s).2 (Session.invokeOnly sym args s').2 ∧
      (Session.invokeOnly sym args s').1 = (Session.invokeOnly sym args s).1 := by
  have hresolve := resolve_eq hs sym
  cases h : s.resolve sym with
  | error e =>
    rw [h] at hresolve
    rw [invokeOnly_of_resolve_error h, invokeOnly_of_resolve_error hresolve]
    exact ⟨hs, rfl⟩
  | ok v =>
    rw [h] at hresolve
    rw [invokeOnly_of_resolve h, invokeOnly_of_resolve hresolve]
    obtain ⟨halike, -, -, hresult⟩ := follow_callVar hμ hs v args
    refine ⟨halike, ?_⟩
    dsimp only
    generalize (callVar v args s).1 = r at hresult ⊢
    generalize (callVar (ρ.onVar v) args s').1 = r' at hresult ⊢
    cases hresult with
    | ok hr => rw [hr]
    | error err => rfl

theorem Alike.invoke (hμ : μ.Renumbers) (hs : Alike ρ μ s s') (hc : s.Covered) (hc' : s'.Covered)
    (sym : String) (args : List Value) :
    Alike ρ μ (Session.invoke sym args s).2 (Session.invoke sym args s').2 ∧
      (Session.invoke sym args s').1 = (Session.invoke sym args s).1 := by
  obtain ⟨halike, hsame⟩ := hs.invokeOnly hμ sym args
  obtain ⟨hanswer, hcollects⟩ := invoke_collects sym args s
  obtain ⟨hanswer', hcollects'⟩ := invoke_collects sym args s'
  rw [hanswer, hanswer']
  exact ⟨halike.collects hμ hcollects (hc.invokeOnly sym args) hcollects'
    (hc'.invokeOnly sym args), hsame⟩

end Session

end TypedLisp
