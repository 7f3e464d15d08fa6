import TypedLisp.Proofs.Inference.Soundness
import TypedLisp.Proofs.Session.Steps
import TypedLisp.Proofs.TypeForms

/-!
# The sessions that can be reached

A session is reached from a new one by evaluating forms, whether they succeed or fail, and by calls
from outside. In every such session the vars are coherent: each has a visible type and a cell that
no other var has, the variables of its declared type are used up, and a constructor is a function of
as many parameters as it has fields. What can be seen of a session from outside are its answers to
such requests.
-/

namespace TypedLisp

/-- A session that can be reached: the forms have the maps that reading gives them. -/
inductive Session.Reachable : Session → Prop where
  | start (limit : Nat) : Reachable (.start limit)
  | eval {s : Session} (h : Reachable s) {f : Form} (hf : f.EvenMaps) :
      Reachable (Session.eval f s).2
  | invoke {s : Session} (h : Reachable s) (sym : String) (args : List Value) :
      Reachable (Session.invoke sym args s).2

/-! ## Coherent vars -/

/-- What is known of a var where `k` is the next type variable and there are `n` cells. -/
structure Var.Coherent (v : Var) (k : TyVar) (n : Nat) : Prop where
  visible : ∃ t, v.visible = some t
  declared_lt : ∀ t, v.declared = some t → ∀ x ∈ t.vars, x < k
  cell_lt : v.cell.id < n
  arity_eq : ∀ m, v.constructorArity? = some m → ∀ ts r, v.Admits (.fn ts r) → ts.length = m

theorem Var.Coherent.mono {v : Var} {k k' : TyVar} {n n' : Nat} (h : v.Coherent k n) (hk : k ≤ k')
    (hn : n ≤ n') : v.Coherent k' n' :=
  { h with
    declared_lt := fun t ht x hx => Nat.lt_of_lt_of_le (h.declared_lt t ht x hx) hk
    cell_lt := Nat.lt_of_lt_of_le h.cell_lt hn }

/-- What is known of the vars of an environment. -/
structure VarsCoherent (vars : Table GlobalName Var) (k : TyVar) (n : Nat) : Prop where
  name_eq : ∀ g v, vars.get? g = some v → v.name = g
  coherent : ∀ g v, vars.get? g = some v → v.Coherent k n
  cell_inj : ∀ g g' v v', vars.get? g = some v → vars.get? g' = some v' →
    v.cell.id = v'.cell.id → g = g'

namespace VarsCoherent

variable {vars : Table GlobalName Var} {k k' : TyVar} {n n' : Nat}

theorem nil (k : TyVar) (n : Nat) : VarsCoherent [] k n where
  name_eq _ v h := absurd h.symm (Option.some_ne_none v)
  coherent _ v h := absurd h.symm (Option.some_ne_none v)
  cell_inj _ _ v _ h := absurd h.symm (Option.some_ne_none v)

theorem mono (h : VarsCoherent vars k n) (hk : k ≤ k') (hn : n ≤ n') : VarsCoherent vars k' n' :=
  { h with coherent := fun g v hv => (h.coherent g v hv).mono hk hn }

/-- A var takes the place of the one of the same name, and either its cell or a new one. -/
theorem insert (h : VarsCoherent vars k n) {v : Var} (hn : n ≤ n') (hv : v.Coherent k n')
    (hcell : (∃ w, vars.get? v.name = some w ∧ v.cell.id = w.cell.id) ∨ n ≤ v.cell.id) :
    VarsCoherent (vars.insert v.name v) k n' := by
  -- the cell of `v` is that of no var of another name
  have hother : ∀ g w, g ≠ v.name → vars.get? g = some w → w.cell.id ≠ v.cell.id := by
    rintro g w hg hw heq
    rcases hcell with ⟨u, hu, hvu⟩ | hnew
    · exact hg (h.cell_inj g v.name w u hw hu (heq.trans hvu))
    · exact Nat.not_lt.2 hnew (heq ▸ (h.coherent g w hw).cell_lt)
  refine ⟨fun g w hw => ?_, fun g w hw => ?_, fun g g' w w' hw hw' heq => ?_⟩
  · rcases Table.get?_insert_eq_some hw with ⟨rfl, rfl⟩ | ⟨-, hw⟩
    · rfl
    · exact h.name_eq g w hw
  · rcases Table.get?_insert_eq_some hw with ⟨rfl, rfl⟩ | ⟨-, hw⟩
    · exact hv
    · exact (h.coherent g w hw).mono (Nat.le_refl _) hn
  · rcases Table.get?_insert_eq_some hw with ⟨rfl, rfl⟩ | ⟨hg, hgw⟩ <;>
      rcases Table.get?_insert_eq_some hw' with ⟨rfl, rfl⟩ | ⟨hg', hgw'⟩
    · rfl
    · exact absurd heq.symm (hother g' w' hg' hgw')
    · exact absurd heq (hother g w hg hgw)
    · exact h.cell_inj g g' w w' hgw hgw' heq

end VarsCoherent

/-! ## Constructors -/

/-- A type of functions is an instance only of a variable or of a type of functions. -/
theorem Ty.InstanceOf.of_fn {ts : List Ty} {r u : Ty} (h : (Ty.fn ts r).InstanceOf u) :
    (∃ v, u = .var v) ∨ ∃ ps q, u = .fn ps q ∧ ps.length = ts.length := by
  obtain ⟨s, hs⟩ := h
  rw [Ty.apply_eq_bind] at hs
  cases u with
  | var v => exact .inl ⟨v, rfl⟩
  | fn ps q =>
    rw [Ty.bind, Ty.fn.injEq, Ty.bindAll_eq_map] at hs
    exact .inr ⟨ps, q, rfl, by rw [← hs.1, List.length_map]⟩
  | _ => simp [Ty.bind] at hs

/-- A constructor is used only as a function of as many parameters as it has fields. -/
theorem DataType.length_of_instanceOf {d : DataType} {c : Constructor} {ts : List Ty} {r : Ty}
    (h : (Ty.fn ts r).InstanceOf (d.constructorTy c)) : ts.length = c.arity := by
  unfold constructorTy at h
  split at h
  · unfold DataType.ty at h
    split at h <;> obtain ⟨_, h⟩ | ⟨_, _, h, -⟩ := h.of_fn <;> cases h
  · rename_i fields hfields
    obtain ⟨_, h⟩ | ⟨_, _, h, hlen⟩ := h.of_fn <;> cases h
    simp [Constructor.arity, hfields, hlen]

namespace Session

variable {s s' : Session} {name : GlobalName} {t : Expr Ty} {f : Form} {e : Expr Unit}
  {supply : Supply}

/-- Whether the vars of a session are coherent. -/
def Coherent (s : Session) : Prop :=
  VarsCoherent s.env.vars s.supply.tyVar s.machine.cells.size

theorem Coherent.of_eq (h : s.Coherent) (henv : s'.env = s.env)
    (hsupply : s.supply.tyVar ≤ s'.supply.tyVar)
    (hcells : s.machine.cells.size ≤ s'.machine.cells.size) : s'.Coherent := by
  unfold Coherent
  rw [henv]
  exact h.mono hsupply hcells

theorem Coherent.quiet (h : s.Coherent) (hq : s.Quiet s') : s'.Coherent :=
  h.of_eq hq.env_eq (Nat.le_of_eq (by rw [hq.supply_eq])) (Nat.le_of_eq (by rw [hq.cells_eq]))

theorem collected_cells (s : Session) : s.collected.machine.cells = s.machine.cells := by
  show (Machine.collectIfDue s.machine).2.cells = _
  unfold Machine.collectIfDue
  show ((if s.machine.heap.collectionDue then _ else _ : Run PUnit) s.machine).2.cells = _
  split <;> rfl

/-! ## Forms keep vars coherent -/

section CellFor

variable {s : Session} {name : GlobalName} {ty : Ty} {cell : Cell} {cells : Array (Option Addr)}

theorem CellFor.size_le (h : s.CellFor name ty cell cells) :
    s.machine.cells.size ≤ cells.size := by
  cases h with
  | kept => exact Nat.le_refl _
  | new => simp

theorem CellFor.cell_lt (h : s.CellFor name ty cell cells) (hs : s.Coherent) :
    cell.id < cells.size := by
  cases h with
  | kept hv => exact (hs.coherent _ _ hv).cell_lt
  | new => simp

theorem CellFor.taken (h : s.CellFor name ty cell cells) :
    (∃ w, s.env.vars.get? name = some w ∧ cell.id = w.cell.id) ∨
      s.machine.cells.size ≤ cell.id := by
  cases h with
  | kept hv => exact .inl ⟨_, hv, rfl⟩
  | new => exact .inr (Nat.le_refl _)

end CellFor

theorem definedObject_kind {body : Expr Ty} {s₁ : Session} {a : Addr} {kind : VarKind}
    {closures : List UnitClosure} (h : definedObject name body s = (.ok (a, kind, closures), s₁)) :
    (∃ n, kind = .fn n) ∨ kind = .value := by
  rcases fn_or_isThunk body with ⟨params, b, n, rfl⟩ | hbody
  · cases hb : b.lower params with
    | error e => rw [definedObject_fn_error hb] at h; cases h
    | ok code => rw [definedObject_fn hb] at h; cases h; exact .inl ⟨_, rfl⟩
  · cases ht : runThunk body s with
    | mk r s₁ =>
      cases r with
      | error e => rw [definedObject_thunk_error hbody ht] at h; cases h
      | ok r => rw [definedObject_thunk hbody ht] at h; cases h; exact .inr rfl

/-- What is known of a form whose type has been inferred, with `k` the next type variable. -/
def Formed (k : TyVar) : Expr Ty → Prop
  | .define _ declared body _ =>
    (∀ t, declared = some t → ∀ v ∈ t.vars, v < k) ∧ ∀ v ∈ body.ann.vars, v < k
  | .declare d _ => d.Formed k
  | _ => True

theorem formed_of_not_isEntry (h : ¬ IsEntry t) (k : TyVar) : Formed k t := by
  cases t with
  | define => exact absurd trivial h
  | declare => exact absurd trivial h
  | _ => trivial

theorem AscribedVar.coherent {ty : Ty} {v : Var} {cells : Array (Option Addr)}
    (h : s.AscribedVar name ty v cells) (hs : s.Coherent)
    (hty : ∀ x ∈ ty.vars, x < s.supply.tyVar) :
    s.machine.cells.size ≤ cells.size ∧ v.Coherent s.supply.tyVar cells.size ∧
      ((∃ w, s.env.vars.get? v.name = some w ∧ v.cell.id = w.cell.id) ∨
        s.machine.cells.size ≤ v.cell.id) := by
  have hdeclared : ∀ t, some ty = some t → ∀ x ∈ t.vars, x < s.supply.tyVar :=
    fun t ht => Option.some.inj ht ▸ hty
  cases h with
  | @kept w u hw hu halpha =>
    have hcoherent := hs.coherent _ _ hw
    refine ⟨Nat.le_refl _, ⟨⟨ty, rfl⟩, hdeclared, hcoherent.cell_lt, fun m hm ts r hadmits => ?_⟩,
      .inl ⟨w, ?_, rfl⟩⟩
    · -- what is an instance of the new type is one of the old type
      refine hcoherent.arity_eq m hm ts r fun u' hu' => ?_
      obtain rfl := Option.some.inj (hu.symm.trans hu')
      exact (hadmits ty rfl).trans (Ty.instanceOf_of_alphaEquivalent halpha).2
    · show s.env.vars.get? w.name = some w
      rw [hs.name_eq _ _ hw]
      exact hw
  | new =>
    exact ⟨by simp, ⟨⟨ty, rfl⟩, hdeclared, by simp, nofun⟩, .inr (Nat.le_refl _)⟩

theorem withObject_coherent (hs : s.Coherent) (o : Object) :
    (s.withObject o).Coherent := hs.quiet (quiet_alloc s o)

/-- The vars of the constructors of a data type are entered one after the other into `vars`, which
has at the start the vars of the session. -/
theorem ConstructorVars.coherent {d : DataType} {cs : List (Constructor × Nat)} {vs : List Var}
    (h : ConstructorVars d cs s vs s') (hs : s.Coherent) (hnodup : (cs.map (·.1.name)).Nodup)
    {vars : Table GlobalName Var} (hvars : VarsCoherent vars s.supply.tyVar s.machine.cells.size)
    (hsame : ∀ c ∈ cs, vars.get? c.1.name = s.env.vars.get? c.1.name) :
    VarsCoherent (vs.foldl (fun vars v => vars.insert v.name v) vars) s'.supply.tyVar
      s'.machine.cells.size := by
  induction h generalizing vars with
  | nil => exact hvars
  | @cons c tag cs s s' cell cells vs hcell h ih =>
    obtain ⟨hc, hcs⟩ := List.nodup_cons.1 hnodup
    have hsize : cells.size =
        (s.withBound (constructorObject d c tag) cell cells).machine.cells.size :=
      (Array.size_setIfInBounds ..).symm
    have hinserted : VarsCoherent (vars.insert c.name (varOf d c cell)) s.supply.tyVar
        cells.size := by
      refine hvars.insert (v := varOf d c cell) hcell.size_le
        ⟨⟨_, rfl⟩, nofun, hcell.cell_lt (withObject_coherent hs _), fun m hm ts r hadmits => ?_⟩ ?_
      · obtain rfl : c.arity = m := Option.some.inj hm
        exact DataType.length_of_instanceOf (hadmits _ rfl)
      · rw [show (varOf d c cell).name = c.name from rfl, hsame _ (List.mem_cons_self ..)]
        exact hcell.taken
    refine ih (hs.of_eq rfl (Nat.le_refl _) ?_) hcs (hinserted.mono (Nat.le_refl _) ?_)
      fun c' hc' => ?_
    · exact Nat.le_trans hcell.size_le (Nat.le_of_eq hsize)
    · exact Nat.le_of_eq hsize
    · have hne : c'.1.name ≠ c.name := fun heq => hc (List.mem_map.2 ⟨c', hc', heq⟩)
      exact (Table.get?_insert_of_ne hne).trans (hsame c' (List.mem_cons_of_mem _ hc'))

theorem map_name_zipIdx (cs : List Constructor) : cs.zipIdx.map (·.1.name) = cs.map (·.name) :=
  calc cs.zipIdx.map (·.1.name)
      = (cs.zipIdx.map Prod.fst).map (·.name) := by rw [List.map_map]; rfl
    _ = cs.map (·.name) := by rw [List.zipIdx_map_fst]

/-- **A form that changes the environment keeps its vars coherent.** -/
theorem Enters.coherent (h : s.Enters t s') (hs : s.Coherent) (ht : Formed s.supply.tyVar t) :
    s'.Coherent := by
  cases h with
  | @define name declared body n a kind closures s₁ cell cells ho hcell =>
    have hquiet := quiet_of_definedObject ho
    have hs₁ : s₁.Coherent := hs.quiet hquiet
    have hsize : cells.size = (cells.setIfInBounds cell.id (some a)).size :=
      (Array.size_setIfInBounds ..).symm
    have harity : ∀ m, Var.constructorArity?
        { name, kind, cell, declared, inferred := some body.ann } ≠ some m := by
      obtain ⟨_, rfl⟩ | rfl := definedObject_kind ho <;> exact nofun
    refine hs₁.insert (v := { name, kind, cell, declared, inferred := some body.ann })
      (Nat.le_trans hcell.size_le (Nat.le_of_eq hsize)) ⟨?_, fun t ht' => ?_, ?_, ?_⟩ hcell.taken
    · cases declared with
      | none => exact ⟨_, rfl⟩
      | some t => exact ⟨t, rfl⟩
    · exact hquiet.supply_eq ▸ ht.1 t ht'
    · exact hsize ▸ hcell.cell_lt hs₁
    · exact fun m hm => absurd hm (harity m)
  | ns d n => exact hs
  | ascribe hv =>
    cases ht with
    | ascribe _ hty =>
      obtain ⟨hsize, hcoherent, htaken⟩ := hv.coherent hs hty
      exact hs.insert hsize hcoherent htaken
  | @data d n units vs s' hvs =>
    cases ht with
    | data hnodup _ =>
      have hs₀ : Coherent { s with units } := hs
      have henv : s'.env = s.env := hvs.env_eq
      have hcoherent := hvs.coherent hs₀ (by rwa [map_name_zipIdx]) hs₀ fun _ _ => rfl
      rwa [← henv] at hcoherent
  | @host name ref ty n fn cell cells harity hcell =>
    cases ht with
    | host _ _ hty =>
      have hs₁ := withObject_coherent hs (.fn ⟨name.text, ref.arity, .host fn, []⟩)
      have hsize : cells.size = (s.withBound (.fn ⟨name.text, ref.arity, .host fn, []⟩) cell
          cells).machine.cells.size := (Array.size_setIfInBounds ..).symm
      refine hs.insert (v := { name, cell, kind := .host ref.arity, declared := some ty })
        (Nat.le_trans hcell.size_le (Nat.le_of_eq hsize))
        ⟨⟨ty, rfl⟩, fun t ht' => Option.some.inj ht' ▸ hty, hsize ▸ hcell.cell_lt hs₁, nofun⟩
        hcell.taken

theorem not_isEntry (h : t.erase.Scoped []) : ¬ IsEntry t := by
  cases t with
  | define => exact h.elim
  | declare => exact h.elim
  | _ => exact id

/-- Analysis and inference take type variables from the supply, and the types that a form enters have
variables from before, as the declared types of the environment have. -/
theorem formed_of_infer_of_lt {env : Env} {ns : String} {s : Supply}
    (henv : ∀ g v t, env.var? g = some v → v.declared = some t → ∀ x ∈ t.vars, x < s.tyVar)
    (hf : f.EvenMaps) {k : TyVar} (ha : (TypedLisp.analyse env ns f).run s = .ok (e, supply))
    (ht : e.Infers supply t k) : s.tyVar ≤ k ∧ Formed k t := by
  obtain ⟨u, hu, rfl⟩ := run_infer.1 ht
  have hle := (inferInBy_ranges e hu).le
  obtain ⟨name, body, n, rfl, hbody⟩ | ⟨d, n, rfl, hd⟩ | he := analyse_cases hf ha
  · rw [hbody.takes.tyVar_eq] at hle
    obtain ⟨w, hw, -, rfl⟩ := run_define.1 hu
    refine ⟨hle, fun t ht v hv => Nat.lt_of_lt_of_le ?_ hle, fun v hv => ?_⟩
    · obtain ⟨w, hw, hdeclared⟩ := Option.bind_eq_some_iff.1 ht
      exact henv name w t hw hdeclared v hv
    · exact ((inferInBy_ranges body hw).tys _ w.expr.ann_mem_anns v hv).2
  · obtain ⟨hle', hformed⟩ := hd.formed
    obtain ⟨rfl, rfl⟩ := run_pure_eq_ok.1 hu
    exact ⟨hle', hformed⟩
  · rw [he.takes.tyVar_eq] at hle
    refine ⟨hle, ?_⟩
    have hentry : ¬ IsEntry u.expr := not_isEntry (by rw [erase_of_infer ht]; exact he.isScoped)
    exact formed_of_not_isEntry hentry _

theorem formed_of_infer (hs : s.Coherent) (hf : f.EvenMaps) {k : TyVar} (ha : s.Analyses f e supply)
    (ht : e.Infers supply t k) : s.supply.tyVar ≤ k ∧ Formed k t :=
  formed_of_infer_of_lt (fun g v t hv ht => (hs.coherent g v hv).declared_lt t ht) hf ha ht

theorem tyVar_le_of_analyse {env : Env} {ns : String} {s : Supply} (hf : f.EvenMaps)
    (ha : (TypedLisp.analyse env ns f).run s = .ok (e, supply)) : s.tyVar ≤ supply.tyVar := by
  obtain ⟨name, body, n, rfl, hbody⟩ | ⟨d, n, rfl, hd⟩ | he := analyse_cases hf ha
  · exact Nat.le_of_eq hbody.takes.tyVar_eq.symm
  · exact hd.formed.1
  · exact Nat.le_of_eq he.takes.tyVar_eq.symm

theorem Coherent.collected (hs : s.Coherent) : s.collected.Coherent :=
  hs.of_eq rfl (Nat.le_refl _) (Nat.le_of_eq (by rw [collected_cells]))

theorem Coherent.defineBuiltin (hs : s.Coherent) (b : Builtin) : (s.defineBuiltin b).Coherent := by
  rw [defineBuiltin_eq]
  refine (hs.mono (Nat.le_succ _) (Nat.le_refl _)).insert (v := s.builtinVar b) ?_
    ⟨⟨_, rfl⟩, nofun, ?_, nofun⟩ (.inr (Nat.le_refl _))
  · simp
  · simp [builtinVar]

theorem Coherent.start (limit : Nat) : (Session.start limit).Coherent :=
  start_induction (P := Coherent) (VarsCoherent.nil _ _) fun _ b hs => hs.defineBuiltin b

/-! ## Invariants -/

section Invariant

variable {P : Session → Prop}
  (hsupply : ∀ {s : Session} {supply : Supply}, P s → s.supply.tyVar ≤ supply.tyVar →
    P (s.withSupply supply))
  (hquiet : ∀ {s s' : Session}, P s → s.Quiet s' → P s')
  (hcollected : ∀ {s : Session}, P s → P s.collected)

include hsupply hquiet hcollected

/-- Evaluation keeps what is kept when type variables are taken, by actions that are quiet, by what
the form enters, and by collections. -/
theorem eval_keeps (hs : P s) (hf : f.EvenMaps)
    (henters : ∀ {e : Expr Unit} {supply : Supply} {t : Expr Ty} {k : TyVar} {s' : Session},
      s.Analyses f e supply → e.Infers supply t k →
      (s.inferred supply k).Enters t s' → P s') :
    P (Session.eval f s).2 := by
  obtain ⟨e, -, heval⟩ | ⟨e, supply, err, ha, -, heval⟩ | ⟨e, supply, t, k, ha, ht, heval⟩ :=
    eval_cases f s
  · rwa [heval]
  · rw [heval]
    exact hsupply hs (tyVar_le_of_analyse hf ha)
  · rw [heval, run_eq]
    refine hcollected ?_
    obtain ⟨r, s', hrun, henters'⟩ | ⟨hq, -⟩ := runForm_cases t (s.inferred supply k)
    · rw [hrun]
      exact henters ha ht henters'
    · obtain ⟨u, hu, rfl⟩ := run_infer.1 ht
      exact hquiet (hsupply hs ((tyVar_le_of_analyse hf ha).trans (inferInBy_ranges e hu).le)) hq

/-- **What every session that can be reached is like**: it holds of new sessions and is kept by
evaluation and by calls. -/
theorem Reachable.invariant (hs : s.Reachable) (hstart : ∀ limit, P (.start limit))
    (henters : ∀ {s s' : Session} {f : Form} {e : Expr Unit} {supply : Supply} {t : Expr Ty}
      {k : TyVar}, s.Reachable → P s → f.EvenMaps → s.Analyses f e supply → e.Infers supply t k →
      (s.inferred supply k).Enters t s' → P s') : P s := by
  induction hs with
  | start limit => exact hstart limit
  | eval hs hf ih => exact eval_keeps hsupply hquiet hcollected ih hf (henters hs ih hf)
  | invoke _ sym args ih =>
    obtain hsame | ⟨s₁, hq, hinvoke⟩ := invoke_cases sym args _
    · rwa [hsame]
    · rw [hinvoke]
      exact hcollected (hquiet ih hq)

end Invariant

theorem Coherent.eval (hs : s.Coherent) (hf : f.EvenMaps) : (Session.eval f s).2.Coherent := by
  refine eval_keeps (fun hs hle => hs.of_eq rfl hle (Nat.le_refl _)) .quiet .collected hs hf
    fun ha ht henters => ?_
  obtain ⟨hle, hformed⟩ := formed_of_infer hs hf ha ht
  exact henters.coherent (hs.of_eq rfl hle (Nat.le_refl _)) hformed

/-- **The vars of every session that can be reached are coherent.** -/
theorem Reachable.coherent (h : s.Reachable) : s.Coherent := by
  induction h with
  | start limit => exact .start limit
  | eval _ hf ih => exact ih.eval hf
  | invoke _ sym args ih =>
    obtain hsame | ⟨s₁, hquiet, hinvoke⟩ := invoke_cases sym args _
    · exact hsame.symm ▸ ih
    · exact hinvoke.symm ▸ (ih.quiet hquiet).collected

theorem ConstructorVars.fault_eq {d : DataType} {cs : List (Constructor × Nat)} {vs : List Var}
    (h : ConstructorVars d cs s vs s') : s'.machine.fault = s.machine.fault := by
  induction h with
  | nil => rfl
  | cons _ _ ih => exact ih

end Session

/-! ## Requests -/

namespace Session

/-- What a session can be asked: to evaluate a form, or to call a function from outside. -/
inductive Request where
  | form (f : Form)
  | call (sym : String) (args : List Value)

/-- Whether the form of a request, if it is one, has the maps that reading gives it. -/
def Request.EvenMaps : Request → Prop
  | .form f => f.EvenMaps
  | .call _ _ => True

/-- What a session answers. -/
inductive Answer where
  | evaluated (r : Except EvalError Outcome)
  | returned (r : Except EvalError Value)

/-- The answer to a request, and the session after it. -/
def answer (s : Session) : Request → Answer × Session
  | .form f => (.evaluated (Session.eval f s).1, (Session.eval f s).2)
  | .call sym args => (.returned (Session.invoke sym args s).1, (Session.invoke sym args s).2)

/-- The answers to requests that come one after the other. -/
def answers (s : Session) : List Request → List Answer
  | [] => []
  | r :: rs => (s.answer r).1 :: (s.answer r).2.answers rs

theorem Reachable.answer {s : Session} (hs : s.Reachable) {r : Request} (hr : r.EvenMaps) :
    (s.answer r).2.Reachable := by
  cases r with
  | form f => exact hs.eval hr
  | call sym args => exact hs.invoke sym args

/-- The session after requests that came one after the other. -/
def after (s : Session) : List Request → Session
  | [] => s
  | r :: rs => (s.answer r).2.after rs

theorem Reachable.after {s : Session} (hs : s.Reachable) {rs : List Request}
    (hrs : ∀ r ∈ rs, r.EvenMaps) : (s.after rs).Reachable := by
  induction rs generalizing s with
  | nil => exact hs
  | cons r rs ih =>
    obtain ⟨hr, hrs⟩ := List.forall_mem_cons.1 hrs
    exact ih (hs.answer hr) hrs

end Session

end TypedLisp
