import TypedLisp.Proofs.Runtime.Safety
import TypedLisp.Proofs.Session.Reachable

/-!
# Typed stores

The store of a session is typed if the object in the cell of each var inhabits the visible type of
the var (`Session.StoreTyped`). Cells that no var has any more, but that code made before still
reads, are typed as well: a cell keeps its type for ever. The store of a new session is typed.
-/

namespace TypedLisp

/-- What is known of a store once a cell has a type. -/
def StoreTypes.withCell (W : StoreTypes) (i : Nat) (t : Ty) : StoreTypes :=
  { W with cell := fun j => if j = i then some t else W.cell j }

theorem StoreTypes.le_withCell {W : StoreTypes} {i : Nat} (hi : W.cell i = none) (t : Ty) :
    W ≤ W.withCell i t := by
  refine ⟨fun j u hj => ?_, fun _ hd => hd⟩
  have hji : j ≠ i := by
    rintro rfl
    cases hi.symm.trans hj
  exact (if_neg hji).trans hj

theorem StoreTypes.withCell_self (W : StoreTypes) (i : Nat) (t : Ty) :
    (W.withCell i t).cell i = some t := if_pos rfl

theorem Var.CellTyped.mono {W W' : StoreTypes} (hW : W ≤ W') {v : Var} (hv : v.CellTyped W.cell) :
    v.CellTyped W'.cell := by
  obtain ⟨t, u, ht, hu, htu, hut⟩ := hv
  exact ⟨t, u, ht, hW.1 _ u hu, htu, hut⟩

theorem push_setIfInBounds {α : Type} (cells : Array (Option α)) (a : α) :
    (cells.push none).setIfInBounds cells.size (some a) = cells.push (some a) := by
  apply Array.ext <;> grind

namespace Session

variable {W : StoreTypes} {s : Session}

/-- Whether the store of a session is typed. -/
structure StoreTyped (W : StoreTypes) (s : Session) : Prop where
  machine : s.machine.Typed W
  vars : ∀ g v, s.env.var? g = some v → v.CellTyped W.cell
  cell_lt : ∀ i t, W.cell i = some t → i < s.machine.cells.size

namespace StoreTyped

variable {W W' : StoreTypes} {s s' : Session}
variable {t : Ty} {a : Addr} {v : Var}

theorem inhabits (h : s.StoreTyped W) {g : GlobalName} (hv : s.env.var? g = some v)
    (ht : v.visible = some t) (ha : s.machine.cell? v.cell = some a) :
    Inhabits W s.machine.heap a t := by
  obtain ⟨_, u, ht', hu, htu, -⟩ := h.vars g v hv
  obtain rfl := Option.some.inj (ht.symm.trans ht')
  exact (h.machine.cells _ u a hu ha).instanceOf htu

theorem of_heap_le (h : s.StoreTyped W) (henv : s'.env = s.env)
    (hheap : s.machine.heap ≤ s'.machine.heap) (hcells : s'.machine.cells = s.machine.cells) :
    s'.StoreTyped W :=
  ⟨h.machine.of_heap_le hheap hcells, henv ▸ h.vars, hcells ▸ h.cell_lt⟩

theorem quiet (h : s.StoreTyped W) (hquiet : s.Quiet s') : s'.StoreTyped W :=
  h.of_heap_le hquiet.env_eq hquiet.heap_le hquiet.cells_eq

theorem withData (h : s.StoreTyped W) (d : DataType) :
    s.StoreTyped { W with data := d :: W.data } := by
  have hle : W ≤ { W with data := d :: W.data } :=
    ⟨fun _ _ hi => hi, List.subset_cons_self d W.data⟩
  exact ⟨⟨h.machine.standard, fun i t a ht ha => (h.machine.cells i t a ht ha).mono hle (le_refl _)⟩,
    h.vars, h.cell_lt⟩

theorem withVar (h : s.StoreTyped W) (hv : v.CellTyped W.cell) :
    StoreTyped W { s with env := s.env.withVar v } := by
  refine ⟨h.machine, fun g w hw => ?_, h.cell_lt⟩
  rcases Table.get?_insert_eq_some hw with ⟨-, rfl⟩ | ⟨-, hw⟩
  · exact hv
  · exact h.vars g w hw

theorem le_withCell (h : s.StoreTyped W) (t : Ty) : W ≤ W.withCell s.machine.cells.size t := by
  refine StoreTypes.le_withCell ?_ t
  cases hi : W.cell s.machine.cells.size with
  | none => rfl
  | some u => exact absurd (h.cell_lt _ u hi) (Nat.lt_irrefl _)

theorem newCell (h : s.StoreTyped W) {c : Option Addr}
    (hc : ∀ a, c = some a → Inhabits W s.machine.heap a t) :
    StoreTyped (W.withCell s.machine.cells.size t) (s.withCells (s.machine.cells.push c)) := by
  have hle := h.le_withCell t
  refine ⟨⟨h.machine.standard, fun i u a hu ha => ?_⟩, fun g v hv => (h.vars g v hv).mono hle,
    fun i u hu => ?_⟩
  · change (s.machine.cells.push c)[i]?.join = some a at ha
    rw [Array.getElem?_push] at ha
    by_cases hi : i = s.machine.cells.size
    · subst hi
      obtain rfl := Option.some.inj ((W.withCell_self _ t).symm.trans hu)
      rw [if_pos rfl] at ha
      exact (hc a ha).mono hle (le_refl _)
    · rw [if_neg hi] at ha
      exact (h.machine.cells i u a ((if_neg hi).symm.trans hu) ha).mono hle (le_refl _)
  · show i < (s.machine.cells.push c).size
    rw [Array.size_push]
    by_cases hi : i = s.machine.cells.size
    · exact hi ▸ Nat.lt_succ_self _
    · exact Nat.lt_succ_of_lt (h.cell_lt i u ((if_neg hi).symm.trans hu))

theorem setCell (h : s.StoreTyped W) {i : Nat}
    (ha : ∀ t, W.cell i = some t → Inhabits W s.machine.heap a t) :
    StoreTyped W (s.withCells (s.machine.cells.setIfInBounds i (some a))) := by
  refine ⟨⟨h.machine.standard, fun j t b ht hb => ?_⟩, h.vars, fun j t ht => ?_⟩
  · change (s.machine.cells.setIfInBounds i (some a))[j]?.join = some b at hb
    rw [Array.getElem?_setIfInBounds] at hb
    by_cases hij : i = j
    · subst hij
      rw [if_pos rfl] at hb
      split at hb
      · obtain rfl := Option.some.inj hb
        exact ha t ht
      · cases hb
    · rw [if_neg hij] at hb
      exact h.machine.cells j t b ht hb
  · show j < (s.machine.cells.setIfInBounds i (some a)).size
    rw [Array.size_setIfInBounds]
    exact h.cell_lt j t ht

/-- **The store stays typed when a definition takes its cell**, if the object of the definition
inhabits its type. -/
theorem store (h : s.StoreTyped W) {name : GlobalName} {cell : Cell} {cells : Array (Option Addr)}
    (hcell : s.CellFor name t cell cells) (ha : Inhabits W s.machine.heap a t) : ∃ W', W ≤ W' ∧
      StoreTyped W' (s.withStored cell cells a) ∧
      ∃ u, W'.cell cell.id = some u ∧ t.InstanceOf u ∧ u.InstanceOf t := by
  cases hcell with
  | @kept v u hv hu halpha =>
    obtain ⟨_, w, hu', hw, huw, hwu⟩ := h.vars _ v hv
    obtain rfl := Option.some.inj (hu.symm.trans hu')
    obtain ⟨hut, htu⟩ := Ty.instanceOf_of_alphaEquivalent halpha
    have hset : StoreTyped W (s.withCells (s.machine.cells.setIfInBounds v.cell.id (some a))) := by
      refine h.setCell fun x hx => ?_
      obtain rfl := Option.some.inj (hw.symm.trans hx)
      exact ha.instanceOf (hwu.trans hut)
    exact ⟨W, le_refl W, hset.of_heap_le rfl (le_refl _) rfl, w, hw, htu.trans huw, hwu.trans hut⟩
  | new =>
    have hnew : StoreTyped (W.withCell s.machine.cells.size t)
        (s.withCells (s.machine.cells.push (some a))) :=
      h.newCell fun b hb => Option.some.inj hb ▸ ha
    exact ⟨W.withCell s.machine.cells.size t, h.le_withCell t,
      hnew.of_heap_le rfl (le_refl _) (push_setIfInBounds ..), t, W.withCell_self _ t, .refl t,
      .refl t⟩

/-- **The store stays typed when a type is ascribed.** -/
theorem ascribe (h : s.StoreTyped W) {name : GlobalName}
    {cells : Array (Option Addr)} (hv : s.AscribedVar name t v cells) :
    ∃ W', W ≤ W' ∧ StoreTyped W' { s.withCells cells with env := s.env.withVar v } := by
  cases hv with
  | @kept v u hv hu halpha =>
    obtain ⟨_, w, hu', hw, huw, hwu⟩ := h.vars _ v hv
    obtain rfl := Option.some.inj (hu.symm.trans hu')
    obtain ⟨hut, htu⟩ := Ty.instanceOf_of_alphaEquivalent halpha
    exact ⟨W, le_refl W, h.withVar ⟨t, w, rfl, hw, htu.trans huw, hwu.trans hut⟩⟩
  | new =>
    refine ⟨W.withCell s.machine.cells.size t, h.le_withCell t, ?_⟩
    exact (h.newCell (c := none) nofun).withVar ⟨t, t, rfl, W.withCell_self _ t, .refl t, .refl t⟩

end StoreTyped

/-! ## New sessions -/

theorem inhabits_builtin {h : Heap} {a : Addr} {b : Builtin}
    (ha : h.get? a = some (builtinObject b)) (v : TyVar) : Inhabits W h a (b.ty v) := by
  have hty : ∃ ts r, b.ty v = .fn ts r := by cases b <;> exact ⟨_, _, rfl⟩
  obtain ⟨ts, r, hty⟩ := hty
  have hbind : (b.ty 0).bind (fun _ => .var v) = b.ty v := by cases b <;> rfl
  rw [hty]
  exact .builtin ha rfl rfl (hbind.trans hty)

theorem StoreTyped.defineBuiltin (h : s.StoreTyped W) (b : Builtin) :
    ∃ W', (s.defineBuiltin b).StoreTyped W' := by
  -- the object is made, its cell is added, and then its var
  have hobject : StoreTyped W { s with machine := { s.machine with
      heap := (s.machine.heap.allocPinned (builtinObject b)).2 } } :=
    h.of_heap_le rfl (s.machine.heap.le_push fun _ => rfl) rfl
  have hinhabits := inhabits_builtin (W := W) (s.machine.heap.get?_push_self ⟨true, builtinObject b⟩)
    s.supply.tyVar
  have hcell := hobject.newCell (c := some (s.machine.heap.allocPinned (builtinObject b)).1)
    (t := b.ty s.supply.tyVar) fun a ha => by
      obtain rfl := Option.some.inj ha
      exact hinhabits
  refine ⟨W.withCell s.machine.cells.size (b.ty s.supply.tyVar), ?_⟩
  rw [defineBuiltin_eq, push_setIfInBounds]
  exact (hcell.withVar (v := s.builtinVar b)
    ⟨_, _, rfl, W.withCell_self _ _, .refl _, .refl _⟩).of_heap_le rfl (le_refl _) rfl

/-- **The store of a new session is typed.** -/
theorem exists_storeTyped_start (limit : Nat) :
    ∃ W : StoreTypes, (Session.start limit).StoreTyped W :=
  start_induction (P := fun s => ∃ W, s.StoreTyped W)
    ⟨⟨fun _ => none, []⟩, ⟨⟨rfl, rfl, rfl⟩, nofun⟩, nofun, nofun⟩
    fun _ b ⟨_, hs⟩ => hs.defineBuiltin b

/-! ## Running expressions -/

theorem StoreTyped.linked (h : s.StoreTyped W) (hs : s.Coherent) {vs : List Var}
    (hvs : ∀ v ∈ vs, s.env.HasVar v) : ∀ v ∈ vs, v.Linked W.cell := fun v hv => by
  obtain ⟨g, hg⟩ := hvs v hv
  exact ⟨h.vars g v hg, (hs.coherent g v hg).arity_eq⟩

/-- **An expression with a derivation runs to an object that inhabits its type**, unless there is a
benign fault. -/
theorem StoreTyped.runThunk (h : s.StoreTyped W) (hs : s.Coherent) {t : Expr Ty}
    (hd : t.IsDerivation []) (hscoped : t.Scoped []) (hvars : ∀ v ∈ t.vars, s.env.HasVar v) :
    (∃ f s₁, runThunk t s = (.error (.fault f), s₁) ∧ f.Benign) ∨
    ∃ a closures s₁, runThunk t s = (.ok (a, closures), s₁) ∧
      Inhabits W s₁.machine.heap a t.ann := by
  obtain ⟨code, hcode, ht⟩ := t.lower_typed .nil hd hscoped hscoped.freeLocals_subset
    (h.linked hs hvars)
  have hyields : Yields Fault.Benign (code.eval (call s.callLimit) [])
      { (s.withUnit code).machine with fault := none } fun h a => Inhabits W h a t.ann :=
    Code.eval_yields (grows_call s.callLimit) (call_yields s.callLimit) code
      (h.machine.of_heap_le (le_refl _) rfl) rfl (fun x u hx => nomatch hx.1) ht
  cases hf : (s.evalThunk code).2.fault with
  | some f => exact .inl ⟨f, _, runThunk_fault hcode hf, hyields.allowed f hf⟩
  | none => exact .inr ⟨_, _, _, runThunk_ok hcode hf, hyields.result hf⟩

end Session

end TypedLisp
