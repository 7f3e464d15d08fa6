import TypedLisp.Proofs.Namespaces.Integrity
import TypedLisp.Proofs.Session.Preservation

/-!
# The functions of the core namespace

A var of a built-in function keeps its function until its name is defined anew: whatever has been
evaluated and called, its type is that of the function up to the names of type variables, and its
cell holds the object that was made for it at the start, which no collection removes
(`Session.Reachable.provides`).
-/

namespace TypedLisp

theorem Builtin.name_injective : Function.Injective Builtin.name := by
  intro b b' h
  cases b <;> cases b' <;> first | rfl | exact absurd h (by decide)

/-- Whether a var is that of a built-in function and has not been defined anew. -/
def Var.IsBuiltin (v : Var) (b : Builtin) : Prop :=
  v.name = ⟨coreNs, b.name⟩ ∧ v.kind = .builtin b.arity

namespace Session

variable {s s' : Session} {v : Var} {b : Builtin} {t : Expr Ty} {ty : Ty}
  {cells : Array (Option Addr)}

/-- Whether a var has the type of a built-in function and its cell holds the function. -/
structure Provides (s : Session) (v : Var) (b : Builtin) : Prop where
  name_eq : v.name = ⟨coreNs, b.name⟩
  visible_eq : ∃ t k, v.visible = some t ∧ t.alphaEquivalent (b.ty k) = true
  holds : ∃ a, s.machine.cell? v.cell = some a ∧
    s.machine.heap.slot? a = some ⟨true, builtinObject b⟩

/-- Where the type of the function has no variables, it is the type of the var. -/
theorem Provides.visible_of_closed (h : s.Provides v b) {t : Ty} (hty : ∀ k, b.ty k = t)
    (hclosed : ∀ σ : TyVar → Ty, t.bind σ = t) : v.visible = some t := by
  obtain ⟨u, k, hu, halpha⟩ := h.visible_eq
  obtain ⟨σ, -, hσ⟩ := Ty.alphaEquivalent_iff.1 (Ty.alphaEquivalent_symm halpha)
  rw [hu, ← hσ, hty, hclosed]

/-- Whether every var that is still that of a built-in function has the function. -/
def Stocked (s : Session) : Prop :=
  ∀ g v n, s.env.var? g = some v → v.kind = .builtin n → ∃ b, s.Provides v b

theorem Provides.of_keeps (h : s.Provides v b)
    (hcell : s'.machine.cell? v.cell = s.machine.cell? v.cell)
    (hpinned : ∀ a o, s.machine.heap.slot? a = some ⟨true, o⟩ →
      s'.machine.heap.slot? a = some ⟨true, o⟩) : s'.Provides v b := by
  obtain ⟨a, ha, hslot⟩ := h.holds
  exact { h with holds := ⟨a, hcell.trans ha, hpinned a _ hslot⟩ }

theorem Stocked.of_eq (h : s.Stocked) (hvars : s'.env.vars = s.env.vars)
    (hmachine : s'.machine = s.machine) : s'.Stocked := by
  intro g v n hv hkind
  rw [Env.var?, hvars] at hv
  obtain ⟨b, hb⟩ := h g v n hv hkind
  exact ⟨b, hb.of_keeps (by rw [hmachine]) (by rw [hmachine]; exact fun _ _ => id)⟩

theorem Stocked.quiet (h : s.Stocked) (hquiet : s.Quiet s') : s'.Stocked := by
  intro g v n hv hkind
  rw [hquiet.env_eq] at hv
  obtain ⟨b, hb⟩ := h g v n hv hkind
  refine ⟨b, hb.of_keeps ?_ fun a o => Heap.slot?_of_le hquiet.heap_le⟩
  rw [Machine.cell?, hquiet.cells_eq, Machine.cell?]

theorem Stocked.collected (h : s.Stocked) : s.collected.Stocked := by
  intro g v n hv hkind
  obtain ⟨b, hb⟩ := h g v n hv hkind
  refine ⟨b, hb.of_keeps ?_ fun a o ha => ?_⟩
  · rw [Machine.cell?, collected_cells, Machine.cell?]
  · show (Machine.collectIfDue s.machine).2.heap.slot? a = _
    rcases Machine.collectIfDue_eq s.machine with heq | heq
    · rwa [heq]
    · rw [heq]
      exact (Heap.Reached.of_pinned ha).slot?_collect.trans ha

/-! ## Forms -/

theorem CellFor.cell?_withStored {name : GlobalName} {cell : Cell}
    (hcell : s.CellFor name ty cell cells) (hs : s.Coherent)
    {g : GlobalName} (hg : g ≠ name) (hv : s.env.var? g = some v) (a : Addr) :
    (s.withStored cell cells a).machine.cell? v.cell = s.machine.cell? v.cell := by
  have hlt : v.cell.id < s.machine.cells.size := (hs.coherent g v hv).cell_lt
  have hne : cell.id ≠ v.cell.id := by
    obtain ⟨w, hw, heq⟩ | hnew := hcell.taken
    · exact fun hcells => hg (hs.cell_inj g name v w hv hw (hcells.symm.trans heq))
    · exact Nat.ne_of_gt (Nat.lt_of_lt_of_le hlt hnew)
  have hkept : cells[v.cell.id]? = s.machine.cells[v.cell.id]? := by
    cases hcell with
    | kept => rfl
    | new => exact (Array.getElem?_push_lt hlt).trans (Array.getElem?_eq_getElem hlt).symm
  show (cells.setIfInBounds cell.id (some a))[v.cell.id]?.join = s.machine.cells[v.cell.id]?.join
  rw [Array.getElem?_setIfInBounds_ne hne, hkept]

/-- What takes the place of the var of its name is of another kind, and has nothing to do with the
built-in functions. -/
theorem Stocked.define (h : s.Stocked) (hs : s.Coherent)
    (hcell : s.CellFor v.name ty v.cell cells) (hv : ∀ n, v.kind ≠ .builtin n) (a : Addr) :
    Stocked { s.withStored v.cell cells a with env := s.env.withVar v } := by
  intro g w n hw hkind
  rcases Table.get?_insert_eq_some hw with ⟨-, rfl⟩ | ⟨hg, hw⟩
  · exact absurd hkind (hv n)
  · obtain ⟨b, hb⟩ := h g w n hw hkind
    exact ⟨b, hb.of_keeps (hcell.cell?_withStored hs hg hw a) fun _ _ => id⟩

/-- An ascription that keeps the var changes its type by the names of type variables only. -/
theorem Stocked.ascribe (h : s.Stocked) (hs : s.Coherent) {name : GlobalName}
    (hv : s.AscribedVar name ty v cells) :
    Stocked { s.withCells cells with env := s.env.withVar v } := by
  intro g w n hw hkind
  cases hv with
  | @kept v u hv hu halpha =>
    rcases Table.get?_insert_eq_some hw with ⟨-, rfl⟩ | ⟨-, hw⟩
    · obtain ⟨b, hb⟩ := h name v n hv hkind
      obtain ⟨t, k, ht, htk⟩ := hb.visible_eq
      obtain rfl := Option.some.inj (hu.symm.trans ht)
      have hty : ty.alphaEquivalent (b.ty k) = true :=
        Ty.alphaEquivalent_trans (Ty.alphaEquivalent_symm halpha) htk
      exact ⟨b, hb.name_eq, ⟨ty, k, rfl, hty⟩, hb.holds⟩
    · obtain ⟨b, hb⟩ := h g w n hw hkind
      exact ⟨b, hb.of_keeps rfl fun _ _ => id⟩
  | new =>
    rcases Table.get?_insert_eq_some hw with ⟨-, rfl⟩ | ⟨-, hw⟩
    · cases hkind
    · obtain ⟨b, hb⟩ := h g w n hw hkind
      have hlt := (hs.coherent g w hw).cell_lt
      refine ⟨b, hb.of_keeps ?_ fun _ _ => id⟩
      show (s.machine.cells.push none)[w.cell.id]?.join = s.machine.cells[w.cell.id]?.join
      rw [Array.getElem?_push_lt hlt, Array.getElem?_eq_getElem hlt]

/-- The constructors of a data type take the places of the vars of their names. -/
theorem Stocked.data (h : s.Stocked) (hs : s.Coherent) {d : DataType}
    {cs : List (Constructor × Nat)} {vs : List Var} (hvs : ConstructorVars d cs s vs s')
    (hnodup : (cs.map (·.1.name)).Nodup) :
    Stocked { s' with env := s'.env.withDataType d vs } := by
  intro g w n hw hkind
  rw [← hvs.map_name] at hnodup
  have hplain : w ∉ vs := fun hmem => by
    obtain ⟨c, -, cell, rfl⟩ := hvs.exists_eq_varOf w hmem
    cases hkind
  have hg : g ∉ vs.map (·.name) := fun hmem => by
    obtain ⟨v, hv, rfl⟩ := List.mem_map.1 hmem
    obtain rfl : v = w := Option.some.inj ((get?_foldl_insert hnodup hv).symm.trans hw)
    exact hplain hv
  have hget : s.env.var? g = some w := by
    rw [← hvs.env_eq]
    exact (get?_foldl_insert_of_not_mem hg).symm.trans hw
  obtain ⟨b, hb⟩ := h g w n hget hkind
  refine ⟨b, hb.of_keeps (congrArg Option.join ?_) fun a o => Heap.slot?_of_le hvs.heap_le⟩
  refine hvs.getElem?_cells (hs.coherent g w hget).cell_lt fun c hc v hv heq => hg ?_
  rw [hvs.map_name]
  exact List.mem_map.2 ⟨c, hc, hs.cell_inj _ _ v w hv hget heq⟩

theorem Enters.stocked (h : s.Enters t s') (hs : s.Coherent) (ht : Formed s.supply.tyVar t)
    (hstocked : s.Stocked) : s'.Stocked := by
  cases h with
  | @define name declared body n a kind closures s₁ cell cells ho hcell =>
    have hquiet := quiet_of_definedObject ho
    refine (hstocked.quiet hquiet).define (hs.quiet hquiet)
      (v := { name, kind, cell, declared, inferred := some body.ann }) hcell (fun n => ?_) a
    obtain ⟨_, rfl⟩ | rfl := definedObject_kind ho <;> exact nofun
  | ns d n => exact hstocked.of_eq rfl rfl
  | ascribe hv => exact hstocked.ascribe hs hv
  | @data d n units vs s' hvs =>
    have hunits : Stocked { s with units } := hstocked.of_eq rfl rfl
    cases ht with
    | data hnodup _ => exact hunits.data hs hvs (by rwa [map_name_zipIdx])
  | @host name ref ty n fn cell cells harity hcell =>
    have hquiet := quiet_alloc s (.fn ⟨name.text, ref.arity, .host fn, []⟩)
    exact (hstocked.quiet hquiet).define (hs.quiet hquiet)
      (v := { name, cell, kind := .host ref.arity, declared := some ty }) hcell nofun _

/-! ## Sessions -/

theorem Stocked.defineBuiltin (h : s.Stocked) (hs : s.Coherent) (b : Builtin) :
    (s.defineBuiltin b).Stocked := by
  rw [defineBuiltin_eq, push_setIfInBounds]
  intro g v n hv hkind
  rcases Table.get?_insert_eq_some hv with ⟨-, rfl⟩ | ⟨-, hv⟩
  · refine ⟨b, rfl, ⟨_, _, rfl, Ty.alphaEquivalent_refl _⟩, _, ?_,
      s.machine.heap.slot?_push_self ⟨true, builtinObject b⟩⟩
    exact congrArg Option.join Array.getElem?_push_size
  · obtain ⟨b', hb'⟩ := h g v n hv hkind
    have hlt := (hs.coherent g v hv).cell_lt
    refine ⟨b', hb'.of_keeps (congrArg Option.join ?_) fun a o =>
      Heap.slot?_of_le (s.machine.heap.le_push fun _ => rfl)⟩
    exact (Array.getElem?_push_lt hlt).trans (Array.getElem?_eq_getElem hlt).symm

theorem Stocked.start (limit : Nat) : (Session.start limit).Stocked := by
  have hboth : (Session.start limit).Coherent ∧ (Session.start limit).Stocked :=
    start_induction (P := fun s => s.Coherent ∧ s.Stocked) ⟨VarsCoherent.nil _ _, nofun⟩
      fun s b hs => ⟨hs.1.defineBuiltin b, hs.2.defineBuiltin hs.1 b⟩
  exact hboth.2

theorem Reachable.stocked (h : s.Reachable) : s.Stocked := by
  refine h.invariant (fun h _ => h.of_eq rfl rfl) .quiet .collected .start
    fun hs h hf ha ht henters => ?_
  obtain ⟨hle, hformed⟩ := formed_of_infer hs.coherent hf ha ht
  exact henters.stocked (hs.coherent.of_eq rfl hle (Nat.le_refl _)) hformed (h.of_eq rfl rfl)

/-- **A var of a built-in function has its function until it is defined anew.** -/
theorem Reachable.provides (h : s.Reachable) (hv : s.env.HasVar v) (hb : v.IsBuiltin b) :
    s.Provides v b := by
  obtain ⟨g, hg⟩ := hv
  obtain ⟨b', hb'⟩ := h.stocked g v b.arity hg hb.2
  have hname : b'.name = b.name := (GlobalName.mk.inj (hb'.name_eq.symm.trans hb.1)).2
  obtain rfl := Builtin.name_injective hname
  exact hb'

end Session

end TypedLisp
