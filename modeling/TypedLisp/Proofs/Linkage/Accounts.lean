import TypedLisp.Proofs.Linkage.Ledger
import TypedLisp.Proofs.Session.Collections

/-!
# The updates that a session makes

A definition, a declaration of a type, a function of the host and the constructors of a data type
update what names stand for. Which updates a request makes is said by `Session.updates`, without the
cells of the session. The updates since the start, each with the cell of its var, account for the
vars and for what all cells hold (`Session.exists_accounted`): every request keeps it so
(`Session.Accounted.answer`).
-/

namespace TypedLisp

/-! ## Updates account for vars and cells -/

/-- Whether updates, the newest first and with the cells that they have taken, account for vars and
for what cells hold. -/
structure Accounts (ls : List Link) (vars : Table GlobalName Var) (m : Machine) : Prop where
  ledger : Ledger ls
  /-- A var is as the newest update of its name has it. -/
  vars_eq : ∀ g, (vars.get? g).map (fun v => (v.visible, v.cell)) =
    (newest? g ls).map fun l => (some l.ty, l.cell)
  var_name : ∀ g v, vars.get? g = some v → v.name = g
  cell_name : ∀ l ∈ ls, l.cell.name = l.name.text
  cell_lt : ∀ l ∈ ls, l.cell.id < m.cells.size
  /-- A cell holds what the newest update that binds it binds it to. -/
  contents : ∀ i : Nat, m.cells[i]?.join = (bound? i ls).map Prod.fst
  objects : ∀ i a o, bound? i ls = some (a, o) → m.heap.get? a = some o

namespace Accounts

variable {ls : List Link} {vars : Table GlobalName Var} {m m' : Machine} {g : GlobalName}

theorem exists_var {l : Link} (h : Accounts ls vars m) (hl : newest? g ls = some l) :
    ∃ v, vars.get? g = some v ∧ v.visible = some l.ty ∧ v.cell = l.cell := by
  have hvar := h.vars_eq g
  rw [hl] at hvar
  obtain ⟨v, hv, heq⟩ := Option.map_eq_some_iff.1 hvar
  obtain ⟨hvisible, hcell⟩ := Prod.mk.inj heq
  exact ⟨v, hv, hvisible, hcell⟩

theorem exists_newest {v : Var} (h : Accounts ls vars m) (hv : vars.get? g = some v) :
    ∃ l, newest? g ls = some l ∧ v.visible = some l.ty ∧ v.cell = l.cell := by
  have hvar := h.vars_eq g
  rw [hv] at hvar
  obtain ⟨l, hl, heq⟩ := Option.map_eq_some_iff.1 hvar.symm
  obtain ⟨hvisible, hcell⟩ := Prod.mk.inj heq
  exact ⟨l, hl, hvisible.symm, hcell.symm⟩

theorem mono (h : Accounts ls vars m) (hheap : m.heap ≤ m'.heap) (hcells : m'.cells = m.cells) :
    Accounts ls vars m' where
  ledger := h.ledger
  vars_eq := h.vars_eq
  var_name := h.var_name
  cell_name := h.cell_name
  cell_lt := hcells ▸ h.cell_lt
  contents := hcells ▸ h.contents
  objects i a o ho := Heap.get?_of_le hheap (h.objects i a o ho)

end Accounts

namespace Session

variable {s s' : Session} {name : GlobalName} {ty : Ty} {cell : Cell} {cells : Array (Option Addr)}

theorem CellFor.join_getElem? (h : s.CellFor name ty cell cells) (i : Nat) :
    cells[i]?.join = s.machine.cells[i]?.join := by
  cases h with
  | kept => rfl
  | new => grind

theorem AscribedVar.cellFor {v : Var} (h : s.AscribedVar name ty v cells) :
    s.CellFor name ty v.cell cells ∧ v.visible = some ty := by
  cases h with
  | @kept v u hv hu halpha => exact ⟨CellFor.kept (v := v) hv hu halpha, rfl⟩
  | new hnew => exact ⟨.new hnew, rfl⟩

/-- The cells after an update has taken one of them. -/
def putIn (cells : Array (Option Addr)) (cell : Cell) :
    Option (Addr × Object) → Array (Option Addr)
  | some (a, _) => cells.setIfInBounds cell.id (some a)
  | none => cells

section Take

variable {ls : List Link} {vars : Table GlobalName Var} {m m' : Machine}
  {value : Option (Addr × Object)}

theorem CellFor.ledger (hcell : s.CellFor name ty cell cells) (h : Accounts ls vars s.machine)
    (hvar : vars.get? name = s.env.var? name) : Ledger (⟨⟨name, ty, value⟩, cell⟩ :: ls) := by
  cases hcell with
  | @kept v u hv hu halpha =>
    obtain ⟨old, hold, hvisible, hcell⟩ := h.exists_newest (hvar.trans hv)
    obtain rfl := Option.some.inj (hu.symm.trans hvisible)
    exact .kept h.ledger hold halpha hcell
  | new hnew =>
    refine .fresh h.ledger (fun old hold => ?_) fun k hk => Nat.ne_of_lt (h.cell_lt k hk)
    obtain ⟨v, hv, hvisible, -⟩ := h.exists_var hold
    exact hnew v old.ty (hvar.symm.trans hv) hvisible

theorem CellFor.name_eq (hcell : s.CellFor name ty cell cells) (h : Accounts ls vars s.machine)
    (hvar : vars.get? name = s.env.var? name) : cell.name = name.text := by
  cases hcell with
  | @kept v u hv hu halpha =>
    obtain ⟨old, hold, -, hcell⟩ := h.exists_newest (hvar.trans hv)
    obtain ⟨hmem, hname⟩ := mem_of_newest? hold
    rw [hcell, h.cell_name old hmem, hname]
  | new => rfl

theorem CellFor.id_lt (hcell : s.CellFor name ty cell cells) (h : Accounts ls vars s.machine)
    (hvar : vars.get? name = s.env.var? name) : cell.id < cells.size := by
  cases hcell with
  | @kept v u hv hu halpha =>
    obtain ⟨old, hold, -, hcell⟩ := h.exists_newest (hvar.trans hv)
    rw [hcell]
    exact h.cell_lt old (mem_of_newest? hold).1
  | new => exact (Array.size_push none).symm ▸ Nat.lt_succ_self _

theorem size_putIn : (putIn cells cell value).size = cells.size := by
  cases value with
  | none => rfl
  | some p => exact Array.size_setIfInBounds ..

/-- **An update keeps the accounts**: it takes its cell, and puts its object there if it has one. -/
theorem CellFor.accounts (value : Option (Addr × Object)) (hcell : s.CellFor name ty cell cells)
    (h : Accounts ls vars s.machine) (hvar : vars.get? name = s.env.var? name) {v : Var}
    (hname : v.name = name) (hvisible : v.visible = some ty) (hv : v.cell = cell)
    (hheap : s.machine.heap ≤ m'.heap) (hcells : m'.cells = putIn cells cell value)
    (hvalue : ∀ a o, value = some (a, o) → m'.heap.get? a = some o) :
    Accounts (⟨⟨name, ty, value⟩, cell⟩ :: ls) (vars.insert v.name v) m' where
  ledger := hcell.ledger h hvar
  vars_eq g := by
    rw [hname]
    by_cases hg : name = g
    · subst hg
      rw [Table.get?_insert_self, newest?_cons_self (g := name) rfl, Option.map_some,
        Option.map_some, hvisible, hv]
    · rw [Table.get?_insert_of_ne (Ne.symm hg), newest?_cons_of_ne hg, h.vars_eq g]
  var_name g w hw := by
    by_cases hg : g = v.name
    · rw [hg, Table.get?_insert_self] at hw
      rw [hg, Option.some.inj hw]
    · rw [Table.get?_insert_of_ne hg] at hw
      exact h.var_name g w hw
  cell_name := List.forall_mem_cons.2 ⟨hcell.name_eq h hvar, h.cell_name⟩
  cell_lt := by
    rw [hcells, size_putIn]
    exact List.forall_mem_cons.2 ⟨hcell.id_lt h hvar, fun l hl =>
      Nat.lt_of_lt_of_le (h.cell_lt l hl) hcell.size_le⟩
  contents i := by
    have hold : cells[i]?.join = (bound? i ls).map Prod.fst :=
      (hcell.join_getElem? i).trans (h.contents i)
    rw [hcells]
    cases value with
    | none => rw [bound?_cons_of_none rfl, ← hold, putIn]
    | some p =>
      rw [putIn, Array.getElem?_setIfInBounds]
      by_cases hi : cell.id = i
      · rw [bound?_cons_of_some hi rfl, if_pos hi, if_pos (hcell.id_lt h hvar)]
        rfl
      · rw [bound?_cons_of_ne hi, if_neg hi, hold]
  objects i a o ho := by
    by_cases hnew : cell.id = i ∧ value = some (a, o)
    · exact hvalue a o hnew.2
    · refine Heap.get?_of_le hheap (h.objects i a o ?_)
      cases value with
      | none => rwa [bound?_cons_of_none rfl] at ho
      | some p =>
        by_cases hi : cell.id = i
        · rw [bound?_cons_of_some hi rfl] at ho
          exact absurd ⟨hi, ho⟩ hnew
        · rwa [bound?_cons_of_ne hi] at ho

end Take

/-! ## The updates that forms make -/

/-- The updates that bind the constructors of a data type, whose objects have the addresses from `a`
on. -/
def constructorUpdates (d : DataType) : Addr → List (Constructor × Nat) → List Update
  | _, [] => []
  | a, (c, tag) :: cs =>
    ⟨c.name, d.constructorTy c, some (a, constructorObject d c tag)⟩ ::
      constructorUpdates d (a + 1) cs

/-- The updates that a typed form makes if it succeeds, where `heap` is the heap after it. -/
def entries (s : Session) (heap : Heap) : Expr Ty → List Update
  | .define name declared body _ =>
    match (definedObject name body s).1 with
    | .ok (a, _) => [⟨name, declared.getD body.ann, some (a, heap.object a)⟩]
    | .error _ => []
  | .declare (.ascribe name ty) _ => [⟨name, ty, none⟩]
  | .declare (.data d) _ => constructorUpdates d s.machine.heap.slots.size d.constructors.zipIdx
  | .declare (.host name _ ty) _ =>
    [⟨name, ty, some (s.machine.heap.slots.size, heap.object s.machine.heap.slots.size)⟩]
  | _ => []

/-- The updates that a typed form makes. -/
def formUpdates (s : Session) (t : Expr Ty) : List Update :=
  match (runForm t s).1 with
  | .ok _ => s.entries (runForm t s).2.machine.heap t
  | .error _ => []

/-- The updates that a request makes. -/
def updates (s : Session) : Request → List Update
  | .form f =>
    match (TypedLisp.analyse s.env s.ns f).run s.supply with
    | .ok (e, supply) =>
      match (TypedLisp.infer e).run supply.tyVar with
      | .ok (t, k) => (s.withSupply { supply with tyVar := k }).formUpdates t
      | .error _ => []
    | .error _ => []
  | .call _ _ => []

/-- The updates that requests make which come one after the other. -/
def history (s : Session) : List Request → List Update
  | [] => []
  | r :: rs => s.updates r ++ (s.answer r).2.history rs

/-- The updates that built-in functions make as they are defined one after the other. -/
def builtinUpdates (s : Session) : List Builtin → List Update
  | [] => []
  | b :: bs =>
    ⟨⟨coreNs, b.name⟩, b.ty s.supply.tyVar,
      some (s.machine.heap.slots.size, builtinObject b)⟩ :: (s.defineBuiltin b).builtinUpdates bs

/-- The updates that lead to a new session. -/
def startUpdates (limit : Nat) : List Update := builtinUpdates { callLimit := limit } Builtin.all

/-! ## Forms keep the accounts -/

/-- Whether updates account for a session. -/
def Accounted (s : Session) (ls : List Link) : Prop := Accounts ls s.env.vars s.machine

/-- Whether a session is accounted for by updates, given in order, that are made after those of
`ls`. -/
def AccountedAfter (s : Session) (ls : List Link) (us : List Update) : Prop :=
  ∃ new : List Link, s.Accounted (new ++ ls) ∧ (new.map Link.toUpdate).reverse = us

section Forms

variable {ls : List Link}

theorem ConstructorVars.accounts {d : DataType} {cs : List (Constructor × Nat)} {vs : List Var}
    (h : ConstructorVars d cs s vs s') (hnodup : (cs.map (·.1.name)).Nodup)
    {vars : Table GlobalName Var} (haccounts : Accounts ls vars s.machine)
    (hsame : ∀ c ∈ cs, vars.get? c.1.name = s.env.var? c.1.name) :
    ∃ new : List Link,
      Accounts (new ++ ls) (vs.foldl (fun vars v => vars.insert v.name v) vars) s'.machine ∧
      (new.map Link.toUpdate).reverse = constructorUpdates d s.machine.heap.slots.size cs := by
  induction h generalizing ls vars with
  | nil => exact ⟨[], haccounts, rfl⟩
  | @cons c tag cs s s' cell cells vs hcell h ih =>
    obtain ⟨hc, hcs⟩ := List.nodup_cons.1 hnodup
    let o := constructorObject d c tag
    let l : Link := ⟨⟨c.name, d.constructorTy c, some (s.machine.heap.slots.size, o)⟩, cell⟩
    have hl : Accounts (l :: ls) (vars.insert (varOf d c cell).name (varOf d c cell))
        (s.withBound o cell cells).machine := by
      have hobject : Accounts ls vars (s.withObject o).machine :=
        haccounts.mono (s.machine.heap.le_alloc o) rfl
      refine hcell.accounts (some (_, o)) hobject
        (hsame _ (List.mem_cons_self ..)) rfl rfl rfl (le_refl _) rfl ?_
      rintro _ _ ⟨⟩
      exact s.machine.heap.get?_push_self ⟨false, o⟩
    obtain ⟨new, hnew, hupdates⟩ := ih hcs hl fun c' hc' => by
      have hne : c'.1.name ≠ c.name := fun heq => hc (List.mem_map.2 ⟨c', hc', heq⟩)
      exact (Table.get?_insert_of_ne hne).trans (hsame c' (List.mem_cons_of_mem _ hc'))
    have hsize : (s.withBound o cell cells).machine.heap.slots.size =
        s.machine.heap.slots.size + 1 := Array.size_push _
    refine ⟨new ++ [l], by rwa [List.append_assoc], ?_⟩
    rw [List.map_append, List.reverse_append, hupdates, hsize]
    rfl

/-- **A form that changes the environment keeps the accounts.** -/
theorem Enters.accounted (h : s.Enters t s') (hs : s.Accounted ls)
    (ht : Formed s.supply.tyVar t)
    (hfound : ∀ (i : Nat) (a : Addr), s'.machine.cells[i]?.join = some a →
      ∃ o, s'.machine.heap.get? a = some o) :
    s'.AccountedAfter ls (s.entries s'.machine.heap t) := by
  cases h with
  | @define name declared body n a kind closures s₁ cell cells ho hcell =>
    have hquiet := quiet_of_definedObject ho
    have hs₁ : Accounts ls s₁.env.vars s₁.machine :=
      hquiet.env_eq.symm ▸ hs.mono hquiet.heap_le hquiet.cells_eq
    have hid := hcell.id_lt hs₁ rfl
    obtain ⟨o, hget⟩ := hfound cell.id a (by simp [withStored, hid])
    refine ⟨[⟨⟨name, declared.getD body.ann, some (a, o)⟩, cell⟩], ?_, ?_⟩
    · refine hcell.accounts (some (a, o)) hs₁ rfl rfl (by cases declared <;> rfl) rfl (le_refl _)
        rfl ?_
      rintro _ _ ⟨⟩
      exact hget
    · simp only [entries, ho, Heap.object_of_get? hget]
      rfl
  | ns d n => exact ⟨[], hs, rfl⟩
  | @ascribe name ty n v cells hv =>
    obtain ⟨hcell, hvisible⟩ := hv.cellFor
    have hname : v.name = name := by
      cases hv with
      | @kept v u hv => exact hs.var_name name v hv
      | new => rfl
    exact ⟨[⟨⟨name, ty, none⟩, v.cell⟩],
      hcell.accounts none hs rfl hname hvisible rfl (le_refl _) rfl (by rintro _ _ ⟨⟩), rfl⟩
  | @data d n units vs s' hvs =>
    cases ht with
    | data hnodup _ =>
      have hs₀ : Accounts ls s.env.vars { s with units }.machine := hs
      have henv : s'.env = s.env := hvs.env_eq
      obtain ⟨new, hnew, hupdates⟩ := hvs.accounts (by rwa [map_name_zipIdx]) hs₀ fun _ _ => rfl
      rw [← henv] at hnew
      exact ⟨new, hnew, hupdates⟩
  | @host name ref ty n fn cell cells harity hcell =>
    let o : Object := .fn ⟨name.text, ref.arity, .host fn, []⟩
    have hs₁ : Accounts ls s.env.vars (s.withObject o).machine :=
      hs.mono (s.machine.heap.le_alloc o) rfl
    have hget : (s.withBound o cell cells).machine.heap.get? s.machine.heap.slots.size = some o :=
      s.machine.heap.get?_push_self ⟨false, o⟩
    refine ⟨[⟨⟨name, ty, some (s.machine.heap.slots.size, o)⟩, cell⟩], ?_, ?_⟩
    · refine hcell.accounts (some (_, o)) hs₁ rfl rfl rfl rfl (le_refl _) rfl ?_
      rintro _ _ ⟨⟩
      exact hget
    · exact congrArg (fun o => [(⟨name, ty, some (s.machine.heap.slots.size, o)⟩ : Update)])
        (Heap.object_of_get? hget).symm

theorem Accounted.collected (hs : s.Accounted ls) (hc : s.Covered) : s.collected.Accounted ls where
  ledger := hs.ledger
  vars_eq := hs.vars_eq
  var_name := hs.var_name
  cell_name := hs.cell_name
  cell_lt := (collected_cells s).symm ▸ hs.cell_lt
  contents := (collected_cells s).symm ▸ hs.contents
  objects i a o ho := by
    have hcell : s.machine.cells[i]?.join = some a := by rw [hs.contents, ho, Option.map_some]
    exact get?_collected hc hcell (hs.objects i a o ho)

theorem AccountedAfter.collected {us : List Update} (hs : s.AccountedAfter ls us)
    (hc : s.Covered) : s.collected.AccountedAfter ls us := by
  obtain ⟨new, hnew, hupdates⟩ := hs
  exact ⟨new, hnew.collected hc, hupdates⟩

theorem Accounted.quiet (hs : s.Accounted ls) (h : s.Quiet s') : s'.Accounted ls :=
  show Accounts ls s'.env.vars s'.machine from h.env_eq.symm ▸ hs.mono h.heap_le h.cells_eq

theorem Accounted.accountedAfter (hs : s.Accounted ls) : s.AccountedAfter ls [] := ⟨[], hs, rfl⟩

theorem entries_of_not_isEntry (ht : ¬ IsEntry t) (heap : Heap) :
    s.entries heap t = [] := by
  cases t with
  | define | declare => exact absurd trivial ht
  | _ => rfl

variable {f : Form} {e : Expr Unit} {supply : Supply} {t : Expr Ty} {k : TyVar}

theorem Reachable.exists_object (hs : s.Reachable) (hf : f.EvenMaps) (ha : s.Analyses f e supply)
    (ht : e.Infers supply t k) {i : Nat} {a : Addr}
    (hi : (runForm t (s.inferred supply k)).2.machine.cells[i]?.join = some a) :
    ∃ o, (runForm t (s.inferred supply k)).2.machine.heap.get? a = some o := by
  have hm := ((alike_same hs.machines_same).evalOnly Matching.renumbers_same hs.coherent
    hf).1.machines
  rw [evalOnly, evalBy_of_infer runForm ha ht] at hm
  cases hm.found i a hi with
  | intro hget => exact ⟨_, hget⟩

theorem updates_form (ha : s.Analyses f e supply) (ht : e.Infers supply t k) :
    s.updates (.form f) = (s.inferred supply k).formUpdates t := by
  simp only [updates, ha, ht]

/-- **A form keeps the accounts.** -/
theorem Accounted.eval (h : s.Accounted ls) (hs : s.Reachable) (hf : f.EvenMaps) :
    (Session.eval f s).2.AccountedAfter ls (s.updates (.form f)) := by
  obtain ⟨err, ha, heval⟩ | ⟨e, supply, err, ha, ht, heval⟩ | ⟨e, supply, t, k, ha, ht, heval⟩ :=
    eval_cases f s
  · simp only [heval, updates, ha]
    exact h.accountedAfter
  · simp only [heval, updates, ha, ht]
    exact Accounted.accountedAfter (s := s.withSupply supply) h
  · rw [heval, run_eq, updates_form ha ht]
    have hc : (s.inferred supply k).Covered := hs.covered
    have h₀ : (s.inferred supply k).Accounted ls := h
    refine AccountedAfter.collected ?_ (hc.runForm t)
    have hobject := fun i a => hs.exists_object hf ha ht (i := i) (a := a)
    obtain ⟨r, s', hrun, henters⟩ | ⟨hquiet, herror⟩ := runForm_cases t (s.inferred supply k)
    · simp only [formUpdates, hrun] at hobject ⊢
      exact henters.accounted h₀ (formed_of_infer hs.coherent hf ha ht).2 hobject
    · have hnone : (s.inferred supply k).formUpdates t = [] := by
        unfold formUpdates
        by_cases hentry : IsEntry t
        · obtain ⟨err, herr⟩ := herror hentry
          rw [herr]
        · split
          · exact entries_of_not_isEntry hentry _
          · rfl
      rw [hnone]
      exact (h₀.quiet hquiet).accountedAfter

/-- **A request keeps the accounts.** -/
theorem Accounted.answer (h : s.Accounted ls) (hs : s.Reachable) {r : Request} (hr : r.EvenMaps) :
    (s.answer r).2.AccountedAfter ls (s.updates r) := by
  cases r with
  | form f => exact h.eval hs hr
  | call sym args =>
    obtain hsame | ⟨s₁, hquiet, hinvoke⟩ := invoke_cases sym args s
    · exact show (Session.invoke sym args s).2.AccountedAfter ls [] from
        hsame.symm ▸ h.accountedAfter
    · exact show (Session.invoke sym args s).2.AccountedAfter ls [] from
        hinvoke.symm ▸ ((h.quiet hquiet).collected (hs.covered.quiet hquiet)).accountedAfter

theorem AccountedAfter.append {us : List Update} (new : List Link)
    (h : s.AccountedAfter (new ++ ls) us) :
    s.AccountedAfter ls ((new.map Link.toUpdate).reverse ++ us) := by
  obtain ⟨later, hlater, hupdates⟩ := h
  refine ⟨later ++ new, by rwa [List.append_assoc], ?_⟩
  rw [List.map_append, List.reverse_append, hupdates]

/-- **Requests keep the accounts**, one after the other. -/
theorem Accounted.after (h : s.Accounted ls) (hs : s.Reachable) {rs : List Request}
    (hrs : ∀ r ∈ rs, r.EvenMaps) : (s.after rs).AccountedAfter ls (s.history rs) := by
  induction rs generalizing s ls with
  | nil => exact h.accountedAfter
  | cons r rs ih =>
    obtain ⟨hr, hrs⟩ := List.forall_mem_cons.1 hrs
    obtain ⟨new, hnew, hupdates⟩ := h.answer hs hr
    have hrest := (ih hnew (hs.answer hr) hrs).append new
    rwa [hupdates] at hrest

end Forms

/-! ## New sessions -/

theorem Accounted.defineBuiltin {ls : List Link} (hs : s.Accounted ls) {b : Builtin}
    (hnone : s.env.var? ⟨coreNs, b.name⟩ = none) :
    (s.defineBuiltin b).Accounted (⟨⟨⟨coreNs, b.name⟩, b.ty s.supply.tyVar,
      some (s.machine.heap.slots.size, builtinObject b)⟩, (s.builtinVar b).cell⟩ :: ls) := by
  have hcell : s.CellFor ⟨coreNs, b.name⟩ (b.ty s.supply.tyVar) (s.builtinVar b).cell
      (s.machine.cells.push none) := .new fun v u hv => by rw [hnone] at hv; cases hv
  rw [defineBuiltin_eq]
  refine hcell.accounts (some (_, builtinObject b)) hs rfl rfl rfl rfl
    (s.machine.heap.le_push fun _ => rfl) rfl ?_
  rintro _ _ ⟨⟩
  exact s.machine.heap.get?_push_self ⟨true, builtinObject b⟩

theorem Accounted.defineBuiltins {ls : List Link} {bs : List Builtin} (hs : s.Accounted ls)
    (hnodup : (bs.map (·.name)).Nodup) (hnone : ∀ b ∈ bs, s.env.var? ⟨coreNs, b.name⟩ = none) :
    (bs.foldl Session.defineBuiltin s).AccountedAfter ls (s.builtinUpdates bs) := by
  induction bs generalizing s ls with
  | nil => exact hs.accountedAfter
  | cons b bs ih =>
    obtain ⟨hb, hbs⟩ := List.nodup_cons.1 hnodup
    obtain ⟨hnew, hrest⟩ := List.forall_mem_cons.1 hnone
    refine AccountedAfter.append [_] (ih (hs.defineBuiltin hnew) hbs fun b' hb' => ?_)
    have hne : (⟨coreNs, b'.name⟩ : GlobalName) ≠ ⟨coreNs, b.name⟩ := fun heq =>
      hb (List.mem_map.2 ⟨b', hb', (GlobalName.mk.inj heq).2⟩)
    exact (Table.get?_insert_of_ne hne).trans (hrest b' hb')

/-- **The built-in functions account for a new session.** -/
theorem accountedAfter_start (limit : Nat) :
    (Session.start limit).AccountedAfter [] (startUpdates limit) := by
  have hempty : Accounted { callLimit := limit } [] :=
    ⟨.nil, fun _ => rfl, nofun, nofun, nofun, fun _ => rfl, nofun⟩
  exact hempty.defineBuiltins (by decide) fun _ _ => rfl

theorem exists_accounted (limit : Nat) {rs : List Request} (hrs : ∀ r ∈ rs, r.EvenMaps) :
    ∃ ls, ((Session.start limit).after rs).Accounted ls ∧
      (ls.map Link.toUpdate).reverse = startUpdates limit ++ (Session.start limit).history rs := by
  obtain ⟨new, hnew, hupdates⟩ := accountedAfter_start limit
  obtain ⟨ls, hls, hhistory⟩ := (hnew.after (.start limit) hrs).append new
  exact ⟨ls, List.append_nil ls ▸ hls, hhistory.trans (by rw [hupdates])⟩

/-! ## What shares a cell -/

section Cells

variable {ls : List Link} {us : List Update}

/-- **Vars that share a cell, at whatever times, have the same name and the same type.** -/
theorem Accounted.same_cell (h : s.Accounted ls) (h' : s'.AccountedAfter ls us)
    {g g' : GlobalName} {v v' : Var} (hv : s.env.var? g = some v) (hv' : s'.env.var? g' = some v')
    (hcell : v.cell.id = v'.cell.id) : g = g' ∧
      ∃ t t', v.visible = some t ∧ v'.visible = some t' ∧ t.alphaEquivalent t' = true := by
  obtain ⟨later, hlater, -⟩ := h'
  obtain ⟨l, hl, hvisible, hc⟩ := h.exists_newest hv
  obtain ⟨l', hl', hvisible', hc'⟩ := hlater.exists_newest hv'
  obtain ⟨hmem, rfl⟩ := mem_of_newest? hl
  obtain ⟨hmem', rfl⟩ := mem_of_newest? hl'
  obtain ⟨hname, hty⟩ := hlater.ledger.same_cell (List.mem_append_right _ hmem) hmem'
    (by rw [← hc, ← hc', hcell])
  exact ⟨hname, _, _, hvisible, hvisible', hty⟩

theorem map_name_constructorUpdates (d : DataType) (cs : List (Constructor × Nat)) (a : Addr) :
    (constructorUpdates d a cs).map (·.name) = cs.map (·.1.name) := by
  induction cs generalizing a with
  | nil => rfl
  | cons c cs ih => exact congrArg (c.1.name :: ·) (ih (a + 1))

theorem nodup_entries {t : Expr Ty} {k : TyVar} (ht : Formed k t) (heap : Heap) :
    ((s.entries heap t).map (·.name)).Nodup := by
  cases t with
  | define name declared body n =>
    simp only [entries]
    split
    · exact List.nodup_singleton _
    · exact List.nodup_nil
  | declare d n =>
    cases ht with
    | ns d => exact List.nodup_nil
    | ascribe name _ => exact List.nodup_singleton _
    | @data d hnodup _ => rwa [entries, map_name_constructorUpdates, map_name_zipIdx]
    | host name ref _ => exact List.nodup_singleton _
  | _ => exact List.nodup_nil

theorem nodup_updates (hs : s.Coherent) {r : Request} (hr : r.EvenMaps) :
    ((s.updates r).map (·.name)).Nodup := by
  cases r with
  | call => exact List.nodup_nil
  | form f =>
    obtain ⟨err, ha, -⟩ | ⟨e, supply, err, ha, ht, -⟩ | ⟨e, supply, t, k, ha, ht, -⟩ :=
      eval_cases f s
    · simp [updates, ha]
    · simp [updates, ha, ht]
    · rw [updates_form ha ht, formUpdates]
      split
      · exact nodup_entries (formed_of_infer hs hr ha ht).2 _
      · exact List.nodup_nil

/-- **A cell changes only by an update whose var has it.** -/
theorem Accounted.stored (h : s.Accounted ls) (h' : s'.AccountedAfter ls us)
    (hus : (us.map (·.name)).Nodup) {i : Nat} {a : Addr}
    (ha : s'.machine.cells[i]?.join = some a) : s.machine.cells[i]?.join = some a ∨
      ∃ u ∈ us, ∃ o v, u.value = some (a, o) ∧ s'.env.var? u.name = some v ∧ v.cell.id = i ∧
        v.visible = some u.ty := by
  obtain ⟨new, hnew, rfl⟩ := h'
  have hnodup : (new.map (·.name)).Nodup := by
    rw [← List.nodup_reverse]
    simpa [Function.comp_def] using hus
  rw [hnew.contents i, bound?_append] at ha
  cases hbound : bound? i new with
  | none =>
    rw [hbound, Option.none_or] at ha
    exact .inl ((h.contents i).trans ha)
  | some p =>
    rw [hbound, Option.some_or] at ha
    obtain rfl : p.1 = a := Option.some.inj ha
    obtain ⟨l, hl, hcell, hvalue⟩ := exists_of_bound? hbound
    obtain ⟨v, hv, hvisible, hvcell⟩ := hnew.exists_var (newest?_of_nodup hnodup hl)
    exact .inr ⟨l.toUpdate, List.mem_reverse.2 (List.mem_map_of_mem hl), p.2, v, hvalue, hv,
      hvcell.symm ▸ hcell, hvisible⟩

end Cells

end Session

end TypedLisp
