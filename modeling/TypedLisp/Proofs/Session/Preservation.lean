import TypedLisp.Proofs.Session.Roots
import TypedLisp.Proofs.Session.StoreTyping

/-!
# Forms keep the store typed

What a form does to the store, one kind of form at a time, and that collection keeps all that cells
lead to. A form keeps the store typed (`Session.StoreTyped.eval`) unless it ascribes a type to a
function of the host or declares a constructor whose list of fields is empty.
-/

namespace TypedLisp

variable {W : StoreTypes} {h : Heap} {a : Addr} {t : Ty}

/-! ## Collection -/

theorem Inhabits.get?_ne_fault (ha : Inhabits W h a t) : h.get? a ≠ some .fault := by
  intro hf
  cases ha with
  | bool ha | int ha | str ha | vector ha | set ha | map ha | builtin ha | host ha | construct ha
  | code ha | variant ha => cases ha.symm.trans hf

theorem Inhabits.lt_size (ha : Inhabits W h a t) : a < h.slots.size := by
  cases ha with
  | bool ha | int ha | str ha | vector ha | set ha | map ha | builtin ha | host ha | construct ha
  | code ha | variant ha =>
    obtain ⟨_, ha, -⟩ := Heap.get?_eq_some.1 ha
    exact Heap.lt_size_of_slot? ha

theorem FnObject.get_captured (f : FnObject) (xs : List Local) (x : Local) :
    (f.captured xs).get x = faultAddr ∨ (f.captured xs).get x ∈ (Object.fn f).children := by
  rw [Frame.get]
  cases hx : (f.captured xs).lookup x with
  | none => exact .inl rfl
  | some c =>
    obtain ⟨slot, hslot, rfl⟩ := List.mem_map.1 (List.of_mem_zip (mem_of_lookup hx)).2
    cases slot with
    | none => exact .inl rfl
    | some c => exact .inr (List.mem_filterMap.2 ⟨some c, hslot, rfl⟩)

/-- **What inhabits a type and is reached still inhabits it after a collection**: all the objects
that this rests on are reached as well. -/
theorem Inhabits.collect (hh : h.Standard) {roots : List Addr}
    (ha : Inhabits W h a t) (hreached : h.Reached roots a) :
    Inhabits W (h.collect roots).2 a t := by
  induction ha with
  | bool ha => exact .bool (hreached.get?_collect.trans ha)
  | int ha => exact .int (hreached.get?_collect.trans ha)
  | str ha => exact .str (hreached.get?_collect.trans ha)
  | vector ha hitems ih =>
    refine .vector (hreached.get?_collect.trans ha) fun i hi => ih i hi (hreached.child ?_ ?_)
    · rwa [Heap.object_of_get? ha]
    · exact (hitems i hi).lt_size
  | set ha hitems ih =>
    refine .set (hreached.get?_collect.trans ha) fun i hi => ih i hi (hreached.child ?_ ?_)
    · rwa [Heap.object_of_get? ha]
    · exact (hitems i hi).lt_size
  | map ha hkeys hvalues ihk ihv =>
    refine .map (hreached.get?_collect.trans ha) (fun e he => ihk e he (hreached.child ?_ ?_))
      fun e he => ihv e he (hreached.child ?_ ?_)
    · rw [Heap.object_of_get? ha]
      exact List.mem_flatMap.2 ⟨e, he, by simp⟩
    · exact (hkeys e he).lt_size
    · rw [Heap.object_of_get? ha]
      exact List.mem_flatMap.2 ⟨e, he, by simp⟩
    · exact (hvalues e he).lt_size
  | builtin ha hbody harity ht =>
    exact .builtin (hreached.get?_collect.trans ha) hbody harity ht
  | host ha hbody harity ht => exact .host (hreached.get?_collect.trans ha) hbody harity ht
  | construct ha hbody harity hd hc =>
    exact .construct (hreached.get?_collect.trans ha) hbody harity hd hc
  | @code a f params captured body Γ ts r ha hbody harity hlen hcaptured hcode ih =>
    refine .code (hreached.get?_collect.trans ha) hbody harity hlen (fun x t hx => ?_) hcode
    refine ih x t hx ?_
    rcases f.get_captured captured x with hfault | hchild
    · have hget : h.get? faultAddr = some .fault :=
        Heap.get?_eq_some.2 ⟨_, hh.slot?_fault, rfl⟩
      exact absurd (hfault ▸ hget) (hcaptured x t hx).get?_ne_fault
    · exact hreached.child (by rwa [Heap.object_of_get? ha]) (hcaptured x t hx).lt_size
  | variant ha hd hc hlen hfields ht ih =>
    refine .variant (hreached.get?_collect.trans ha) hd hc hlen (fun p hp => ?_) ht
    refine ih p hp (hreached.child ?_ (hfields p hp).lt_size)
    rw [Heap.object_of_get? ha]
    exact List.mem_filterMap.2 ⟨some p.1, List.mem_map_of_mem (List.of_mem_zip hp).1, rfl⟩

theorem Heap.Standard.collect (hh : h.Standard) (roots : List Addr) :
    (h.collect roots).2.Standard :=
  ⟨(Reached.of_pinned hh.slot?_true).slot?_collect.trans hh.slot?_true,
    (Reached.of_pinned hh.slot?_false).slot?_collect.trans hh.slot?_false,
    (Reached.of_pinned hh.slot?_fault).slot?_collect.trans hh.slot?_fault⟩

namespace Machine

variable {m : Machine}

theorem Typed.collectIfDue {W : StoreTypes} (hm : m.Typed W) (hc : m.Covered) :
    (collectIfDue m).2.Typed W := by
  rcases m.collectIfDue_eq with heq | heq
  · rwa [heq]
  · rw [heq]
    refine ⟨hm.standard.collect _, fun i t a ht ha => ?_⟩
    have hinhabits := hm.cells i t a ht ha
    exact hinhabits.collect hm.standard (hc.reached ha hinhabits.lt_size)

end Machine

namespace Session

variable {s s' : Session} {body : Expr Ty} {name : GlobalName}

theorem StoreTyped.collected (h : s.StoreTyped W) (hc : s.Covered) :
    s.collected.StoreTyped W :=
  ⟨h.machine.collectIfDue hc, h.vars, by rw [collected_cells]; exact h.cell_lt⟩

theorem get?_collected (hc : s.Covered) {i : Nat} {o : Object}
    (ha : s.machine.cells[i]?.join = some a) (ho : s.machine.heap.get? a = some o) :
    s.collected.machine.heap.get? a = some o := by
  show (Machine.collectIfDue s.machine).2.heap.get? a = _
  rcases s.machine.collectIfDue_eq with heq | heq
  · rwa [heq]
  · obtain ⟨e, he, -⟩ := Heap.get?_eq_some.1 ho
    rw [heq]
    exact (hc.reached ha (Heap.lt_size_of_slot? he)).get?_collect.trans ho

/-! ## Definitions -/

theorem StoreTyped.definedFn (h : s.StoreTyped W) (hs : s.Coherent) {params : List Local}
    {n : Note Ty} (hd : (Expr.fn params body n).IsDerivation [])
    (hscoped : (Expr.fn params body n).Scoped []) (hvars : ∀ v ∈ body.vars, s.env.HasVar v) :
    ∃ code, body.lower params = .ok code ∧ ∀ (name : GlobalName) (heap : Heap) (a : Addr),
      heap.get? a = some (definedFn name params code) → Inhabits W heap a n.ann := by
  obtain ⟨ts, hlen, hann, hbody⟩ := hd
  have hfree : body.freeLocals [] ⊆ params := by
    simpa using hscoped.2.2.freeLocals_subset
  obtain ⟨code, hcode, ht⟩ := body.lower_typed (Context.Regular.nil.params hlen) hbody hscoped.2.2
    hfree (h.linked hs hvars)
  refine ⟨code, hcode, fun name heap a ha => ?_⟩
  rw [hann]
  -- nothing is captured, so only the parameters are in scope
  have hle := Context.types_params_le (c := []) hlen (List.Subset.refl [])
  rw [List.append_nil] at hle
  exact .code ha rfl rfl hlen (fun x t hx => nomatch hx.1)
    (Code.HasType.mono (fun _ _ hi => hi) code hle ht)

/-- **The object of a definition inhabits the type of its body.** -/
theorem StoreTyped.definedObject (h : s.StoreTyped W) (hs : s.Coherent)
    (hd : body.IsDerivation []) (hscoped : body.Scoped [])
    (hvars : ∀ v ∈ body.vars, s.env.HasVar v) {kind : VarKind}
    {closures : List UnitClosure} {s₁ : Session}
    (ho : definedObject name body s = (.ok (a, kind, closures), s₁)) :
    Inhabits W s₁.machine.heap a body.ann := by
  rcases fn_or_isThunk body with ⟨params, b, n, rfl⟩ | hbody
  · obtain ⟨code, hcode, hinhabits⟩ := h.definedFn hs hd hscoped hvars
    rw [definedObject_fn hcode] at ho
    cases ho
    exact hinhabits name _ _
      (s.machine.heap.get?_push_self ⟨false, Session.definedFn name params code⟩)
  · obtain ⟨f, s₂, hrun, -⟩ | ⟨b, cs, s₂, hrun, hinhabits⟩ := h.runThunk hs hd hscoped hvars
    · rw [definedObject_thunk_error hbody hrun] at ho
      cases ho
    · rw [definedObject_thunk hbody hrun] at ho
      cases ho
      exact hinhabits

theorem StoreTyped.define (h : s.StoreTyped W) {declared : Option Ty} {t : Ty}
    (ht : ∀ u, declared = some u → u.InstanceOf t) {cell : Cell} {cells : Array (Option Addr)}
    (hcell : s.CellFor name (declared.getD t) cell cells)
    (ha : Inhabits W s.machine.heap a t) (kind : VarKind) :
    ∃ W', W ≤ W' ∧
      StoreTyped W' { s.withStored cell cells a with
        env := s.env.withVar { name, kind, cell, declared, inferred := some t } } := by
  have hdeclared : (declared.getD t).InstanceOf t := by
    cases declared with
    | none => exact .refl t
    | some u => exact ht u rfl
  obtain ⟨W', hle, hstore, u, hu, htu, hut⟩ := h.store hcell (ha.instanceOf hdeclared)
  refine ⟨W', hle, hstore.withVar ⟨declared.getD t, u, ?_, hu, htu, hut⟩⟩
  cases declared <;> rfl

/-! ## Data types -/

section Constructor

variable {d : DataType} {c : Constructor} {tag : Nat}

theorem constructorObject_of_pos (h : 0 < c.arity) : constructorObject d c tag =
    .fn ⟨c.name.name, c.arity, .construct (d.layout c tag), []⟩ := if_pos h

theorem constructorObject_of_zero (h : c.arity = 0) :
    constructorObject d c tag = .variant (d.layout c tag) [] :=
  if_neg (Nat.not_lt.2 (Nat.le_of_eq h))

/-- The object of a constructor inhabits the type of the constructor, unless the list of fields is
empty. -/
theorem inhabits_constructor (hd : d ∈ W.data) (hc : d.constructors[tag]? = some c)
    (hfields : c.fields ≠ some []) {h : Heap} {a : Addr}
    (ha : h.get? a = some (constructorObject d c tag)) : Inhabits W h a (d.constructorTy c) := by
  rcases hf : c.fields with _ | _ | ⟨t, ts⟩
  · -- no fields: a variant
    have harity : c.arity = 0 := by simp [Constructor.arity, hf]
    have hty : d.constructorTy c = d.ty.bind .var := by
      rw [DataType.constructorTy, hf, Ty.bind_var]
    have hempty : c.fieldTypes = [] := by simp [Constructor.fieldTypes, hf]
    rw [constructorObject_of_zero harity] at ha
    have hlen : ([] : List Addr).length = c.fieldTypes.length := by rw [hempty]; rfl
    exact .variant ha hd hc hlen (by simp) hty
  · exact absurd hf hfields
  · -- at least one field: a function of the fields
    have harity : 0 < c.arity := by simp [Constructor.arity, hf]
    have hty : d.constructorTy c = .fn (c.fieldTypes.map (Ty.bind .var)) (d.ty.bind .var) := by
      have hvar : (Ty.bind .var : Ty → Ty) = id := funext Ty.bind_var
      rw [hvar, List.map_id, DataType.constructorTy, hf, Constructor.fieldTypes, hf]
      rfl
    rw [constructorObject_of_pos harity] at ha
    rw [hty]
    exact .construct ha rfl rfl hd hc

end Constructor

section ConstructorVars

variable {d : DataType} {cs : List (Constructor × Nat)} {vs : List Var}

/-- **The store stays typed when the constructors of a data type take their cells**, unless one of
them has an empty list of fields. -/
theorem ConstructorVars.storeTyped (h : ConstructorVars d cs s vs s') (hs : s.StoreTyped W)
    (hd : d ∈ W.data)
    (hcs : ∀ c ∈ cs, d.constructors[c.2]? = some c.1 ∧ c.1.fields ≠ some []) :
    ∃ W', W ≤ W' ∧ s'.StoreTyped W' ∧ ∀ v ∈ vs, v.CellTyped W'.cell := by
  induction h generalizing W with
  | nil => exact ⟨W, le_refl W, hs, nofun⟩
  | @cons c tag cs s s' cell cells vs hcell _ ih =>
    obtain ⟨⟨hc, hfields⟩, hcs⟩ := List.forall_mem_cons.1 hcs
    have hinhabits := inhabits_constructor hd hc hfields
      (s.machine.heap.get?_push_self ⟨false, constructorObject d c tag⟩)
    obtain ⟨W₁, hle₁, hs₁, u, hu, htu, hut⟩ :=
      (hs.quiet (quiet_alloc s (constructorObject d c tag))).store hcell hinhabits
    obtain ⟨W', hle, hs', hvs⟩ := ih hs₁ (hle₁.2 hd) hcs
    have hv : (varOf d c cell).CellTyped W₁.cell := ⟨d.constructorTy c, u, rfl, hu, htu, hut⟩
    exact ⟨W', le_trans hle₁ hle, hs', List.forall_mem_cons.2 ⟨hv.mono hle, hvs⟩⟩

theorem ConstructorVars.map_name (h : ConstructorVars d cs s vs s') :
    vs.map (·.name) = cs.map (·.1.name) := by
  induction h with
  | nil => rfl
  | cons _ _ ih => rw [List.map_cons, List.map_cons, ih]; rfl

theorem ConstructorVars.heap_le (h : ConstructorVars d cs s vs s') :
    s.machine.heap ≤ s'.machine.heap := by
  induction h with
  | nil => exact le_refl _
  | @cons c tag cs s s' cell cells vs _ _ ih =>
    exact le_trans (s.machine.heap.le_alloc (constructorObject d c tag)) ih

/-- A cell stays as it is unless it is the cell of the var that has the name of a constructor. -/
theorem ConstructorVars.getElem?_cells (h : ConstructorVars d cs s vs s') {i : Nat}
    (hi : i < s.machine.cells.size)
    (hfree : ∀ c ∈ cs, ∀ v, s.env.var? c.1.name = some v → v.cell.id ≠ i) :
    s'.machine.cells[i]? = s.machine.cells[i]? := by
  induction h with
  | nil => rfl
  | @cons c tag cs s s' cell cells vs hcell _ ih =>
    obtain ⟨hfree, hrest⟩ := List.forall_mem_cons.1 hfree
    have hne : cell.id ≠ i := by
      obtain ⟨v, hv, heq⟩ | hnew := hcell.taken
      · exact heq ▸ hfree v hv
      · exact Nat.ne_of_gt (Nat.lt_of_lt_of_le hi hnew)
    have hkept : cells[i]? = s.machine.cells[i]? := by
      cases hcell with
      | kept => rfl
      | new => exact (Array.getElem?_push_lt hi).trans (Array.getElem?_eq_getElem hi).symm
    calc s'.machine.cells[i]?
        = (cells.setIfInBounds cell.id
            (some (Machine.alloc (constructorObject d c tag) s.machine).1))[i]? :=
          ih (by simpa [withBound, withStored] using Nat.lt_of_lt_of_le hi hcell.size_le) hrest
      _ = cells[i]? := Array.getElem?_setIfInBounds_ne hne
      _ = s.machine.cells[i]? := hkept

/-- **Each constructor has its object in its cell**, after all of them have taken theirs. -/
theorem ConstructorVars.holds (h : ConstructorVars d cs s vs s') (hs : s.Coherent)
    (hnodup : (cs.map (·.1.name)).Nodup) {c : Constructor} {tag : Nat} (hc : (c, tag) ∈ cs) :
    ∃ cell a, varOf d c cell ∈ vs ∧ s'.machine.cell? cell = some a ∧
      s'.machine.heap.get? a = some (constructorObject d c tag) := by
  induction h with
  | nil => cases hc
  | @cons c' tag' cs s s' cell cells vs hcell hvs ih =>
    obtain ⟨hname, hnodup⟩ := List.nodup_cons.1 hnodup
    have hs₁ : (s.withObject (constructorObject d c' tag')).Coherent := withObject_coherent hs _
    have hlt : cell.id < cells.size := hcell.cell_lt hs₁
    have hsize : cells.size =
        (s.withBound (constructorObject d c' tag') cell cells).machine.cells.size :=
      (Array.size_setIfInBounds ..).symm
    rcases List.mem_cons.1 hc with heq | hc
    · obtain ⟨rfl, rfl⟩ := Prod.mk.inj heq
      refine ⟨cell, (Machine.alloc (constructorObject d c tag) s.machine).1,
        List.mem_cons_self .., ?_, ?_⟩
      · -- the cell is that of no var with the name of a later constructor
        have hkept := hvs.getElem?_cells (hsize ▸ hlt) fun c' hc' v hv heq => ?_
        · rw [Machine.cell?, hkept]
          exact congrArg Option.join (Array.getElem?_setIfInBounds_self_of_lt hlt)
        · have hne : c'.1.name ≠ c.name := fun heq => hname (List.mem_map.2 ⟨c', hc', heq⟩)
          obtain ⟨w, hw, hcellw⟩ | hnew := hcell.taken
          · exact hne (hs.cell_inj _ _ v w hv hw (heq.trans hcellw))
          · exact Nat.not_lt.2 hnew (heq ▸ (hs.coherent _ v hv).cell_lt)
      · exact Heap.get?_of_le hvs.heap_le
          (s.machine.heap.get?_push_self ⟨false, constructorObject d c tag⟩)
    · obtain ⟨cell', a, hmem, ha, hget⟩ := ih (hs.of_eq rfl (Nat.le_refl _) (hsize ▸ hcell.size_le))
        hnodup hc
      exact ⟨cell', a, List.mem_cons_of_mem _ hmem, ha, hget⟩

end ConstructorVars

/-! ### The vars of a data type -/

section Fold

variable {vs : List Var} {v : Var} {g : GlobalName} {vars : Table GlobalName Var}

theorem get?_foldl_insert_of_not_mem (hg : g ∉ vs.map (·.name)) :
    (vs.foldl (fun vars v => vars.insert v.name v) vars).get? g = vars.get? g := by
  induction vs generalizing vars with
  | nil => rfl
  | cons w vs ih =>
    obtain ⟨hw, hvs⟩ := List.ne_and_not_mem_of_not_mem_cons hg
    exact (ih hvs).trans (Table.get?_insert_of_ne hw)

/-- Vars of different names are all found in the table into which they have been entered. -/
theorem get?_foldl_insert (hnodup : (vs.map (·.name)).Nodup) (hv : v ∈ vs) :
    (vs.foldl (fun vars v => vars.insert v.name v) vars).get? v.name = some v := by
  induction vs generalizing vars with
  | nil => cases hv
  | cons w vs ih =>
    obtain ⟨hw, hvs⟩ := List.nodup_cons.1 hnodup
    rcases List.mem_cons.1 hv with rfl | hv
    · exact (get?_foldl_insert_of_not_mem hw).trans (Table.get?_insert_self ..)
    · exact ih hvs hv

end Fold

/-! ## Any form -/

/-- The data types that a form declares. -/
def dataTypes : Expr Ty → List DataType
  | .declare (.data d) _ => [d]
  | _ => []

/-- Whether a form declares neither a function of the host, whose type is taken as it is ascribed,
nor a constructor with an empty list of fields. -/
def Checked (t : Expr Ty) : Prop :=
  (∀ name ref ty n, t ≠ .declare (.host name ref ty) n) ∧
    ∀ d ∈ dataTypes t, ∀ c ∈ d.constructors, c.fields ≠ some []

variable {f : Form} {e : Expr Unit} {supply : Supply} {t : Expr Ty} {k : TyVar}

/-- **What a form enters keeps the store typed.** -/
theorem Enters.storeTyped (h : s.Enters t s') (hs : s.Coherent) (hstore : s.StoreTyped W)
    (hd : t.IsDerivation [])
    (hbody : ∀ name declared body n, t = .define name declared body n →
      body.Scoped [] ∧ ∀ v ∈ body.vars, s.env.HasVar v)
    (hchecked : Checked t) : ∃ W', W ≤ W' ∧ s'.StoreTyped W' := by
  cases h with
  | @define name declared body n a kind closures s₁ cell cells ho hcell =>
    obtain ⟨hscoped, hvars⟩ := hbody name declared body n rfl
    have hquiet := quiet_of_definedObject ho
    exact (hstore.quiet hquiet).define hd.2.2 hcell
      (hstore.definedObject hs hd.1 hscoped hvars ho) kind
  | ns d n => exact ⟨W, le_refl W, hstore.machine, hstore.vars, hstore.cell_lt⟩
  | ascribe hv => exact hstore.ascribe hv
  | @data d n units vs s' hvs =>
    have hle₀ : W ≤ { W with data := d :: W.data } :=
      ⟨fun _ _ hi => hi, List.subset_cons_self d W.data⟩
    have hstore₀ : StoreTyped { W with data := d :: W.data } { s with units } :=
      (hstore.withData d).of_heap_le rfl (le_refl _) rfl
    obtain ⟨W', hle, hs', hcells⟩ := hvs.storeTyped hstore₀ (List.mem_cons_self ..) fun c hc =>
      ⟨List.mk_mem_zipIdx_iff_getElem?.1 hc,
        hchecked.2 d (List.mem_singleton_self d) c.1 (List.fst_mem_of_mem_zipIdx hc)⟩
    refine ⟨W', le_trans hle₀ hle, hs'.machine, fun g v hv => ?_, hs'.cell_lt⟩
    rcases Table.get?_foldl_insert_eq_some hv with ⟨w, hw, -, rfl⟩ | hv
    · exact hcells w hw
    · exact hs'.vars g v hv
  | host => exact absurd rfl (hchecked.1 _ _ _ _)

/-- The body of a definition is scoped, and refers to vars of the environment. -/
theorem scoped_of_define (hf : f.EvenMaps) (ha : s.Analyses f e supply) (ht : e.Infers supply t k)
    {name : GlobalName} {declared : Option Ty} {body : Expr Ty} {n : Note Ty}
    (h : t = .define name declared body n) :
    body.Scoped [] ∧ ∀ v ∈ body.vars, s.env.HasVar v := by
  have herase : t.erase = e := erase_of_infer ht
  subst h
  obtain ⟨_, _, _, rfl, hbody⟩ | ⟨_, _, rfl, -⟩ | he := analyse_cases hf ha
  · obtain ⟨-, -, rfl, -⟩ := Expr.define.inj herase
    refine ⟨(Expr.scoped_map body []).1 hbody.isScoped, fun v hv => ?_⟩
    exact hbody.hasVars v (by rwa [Expr.vars_map])
  · cases herase
  · rw [← herase] at he
    exact he.isScoped.elim

/-- **A form keeps the store typed**, whether it succeeds or fails. -/
theorem StoreTyped.eval (hstore : s.StoreTyped W) (hs : s.Reachable) (hf : f.EvenMaps)
    (ha : s.Analyses f e supply) (ht : e.Infers supply t k) (hchecked : Checked t) :
    ∃ W', W ≤ W' ∧ (Session.eval f s).2.StoreTyped W' := by
  have hstore₀ : (s.inferred supply k).StoreTyped W := hstore.of_heap_le rfl (le_refl _) rfl
  have hs₀ : (s.inferred supply k).Coherent :=
    hs.coherent.of_eq rfl (formed_of_infer hs.coherent hf ha ht).1 (Nat.le_refl _)
  have hc₀ : (s.inferred supply k).Covered := hs.covered
  rw [eval_of_infer ha ht, run_eq]
  obtain ⟨r, s', hrun, henters⟩ | ⟨hquiet, -⟩ := runForm_cases t (s.inferred supply k)
  · obtain ⟨W', hle, hs'⟩ := henters.storeTyped hs₀ hstore₀ (isDerivation_of_infer hf ha ht)
      (fun _ _ _ _ h => scoped_of_define hf ha ht h) hchecked
    rw [hrun]
    exact ⟨W', hle, hs'.collected (henters.covered hc₀)⟩
  · exact ⟨W, le_refl W, (hstore₀.quiet hquiet).collected (hc₀.quiet hquiet)⟩

/-- A session that can be reached by forms that are checked and by calls from outside. -/
inductive CheckedReachable : Session → Prop where
  | start (limit : Nat) : CheckedReachable (.start limit)
  | eval {s : Session} (h : CheckedReachable s) {f : Form} (hf : f.EvenMaps)
      (hchecked : ∀ e supply t k, s.Analyses f e supply → e.Infers supply t k → Checked t) :
      CheckedReachable (Session.eval f s).2
  | invoke {s : Session} (h : CheckedReachable s) (sym : String) (args : List Value) :
      CheckedReachable (Session.invoke sym args s).2

theorem CheckedReachable.reachable (h : s.CheckedReachable) : s.Reachable := by
  induction h with
  | start limit => exact .start limit
  | eval _ hf _ ih => exact ih.eval hf
  | invoke _ sym args ih => exact ih.invoke sym args

/-- **The store of every session that is reached by checked forms is typed.** -/
theorem CheckedReachable.exists_storeTyped (h : s.CheckedReachable) : ∃ W, s.StoreTyped W := by
  induction h with
  | start limit => exact exists_storeTyped_start limit
  | @eval s h f hf hchecked ih =>
    obtain ⟨W, hW⟩ := ih
    obtain ⟨e, -, heval⟩ | ⟨e, supply, err, -, -, heval⟩ | ⟨e, supply, t, k, ha, ht, -⟩ :=
      eval_cases f s
    · rw [heval]
      exact ⟨W, hW⟩
    · rw [heval]
      exact ⟨W, hW.of_heap_le rfl (le_refl _) rfl⟩
    · obtain ⟨W', -, hW'⟩ :=
        hW.eval h.reachable hf ha ht (hchecked e supply t k ha ht)
      exact ⟨W', hW'⟩
  | invoke h sym args ih =>
    obtain ⟨W, hW⟩ := ih
    refine ⟨W, ?_⟩
    obtain hsame | ⟨s₁, hquiet, hinvoke⟩ := invoke_cases sym args _
    · rwa [hsame]
    · rw [hinvoke]
      exact (hW.quiet hquiet).collected (h.reachable.covered.quiet hquiet)

end Session

end TypedLisp
