import TypedLisp.Proofs.Session.Preservation

/-!
# Type soundness

An expression whose type has been inferred runs, on a typed store, to an object that inhabits the
type and has a value, or it ends in one of the faults that no type rules out. Compilation refuses
nothing that analysis and inference accept (`Session.Coherent.hasCode`): the cells need not hold
objects of the right type for this, so it is true of every session that can be reached.
-/

namespace TypedLisp

namespace Session

variable {W : StoreTypes} {s : Session} {f : Form} {e : Expr Unit} {supply : Supply} {t : Expr Ty}
  {k : TyVar}

/-- A form that enters nothing into the environment is scoped, and refers to vars of the
environment. -/
theorem scoped_of_not_isEntry (hf : f.EvenMaps) (ha : s.Analyses f e supply)
    (ht : e.Infers supply t k) (hexpr : ¬ IsEntry t) :
    t.Scoped [] ∧ ∀ v ∈ t.vars, s.env.HasVar v := by
  have herase : t.erase = e := erase_of_infer ht
  obtain ⟨name, body, n, rfl, -⟩ | ⟨d, n, rfl, -⟩ | he := analyse_cases hf ha
  · cases t with
    | define => exact absurd trivial hexpr
    | _ => simp [Expr.erase, Expr.map] at herase
  · cases t with
    | declare => exact absurd trivial hexpr
    | _ => simp [Expr.erase, Expr.map] at herase
  · subst herase
    refine ⟨(Expr.scoped_map t []).1 he.isScoped, fun v hv => ?_⟩
    exact he.hasVars v (by rwa [Expr.erase, Expr.vars_map])

theorem ann_of_isEntry {c : Context} (hd : t.IsDerivation c) (ht : IsEntry t) :
    t.ann = .effect := by
  cases t with
  | define => exact hd.2.1
  | declare => exact hd
  | _ => exact ht.elim

/-- **Type soundness of evaluation.** In a session with coherent vars, as all that can be reached
are (`Session.Reachable.coherent`), and with a typed store, an expression of which analysis and
inference have made `t` runs to an object that inhabits the type of `t` and that has a value, or it
fails with a benign fault: a var that is not bound, too many nested calls, or what a function of the
host itself refuses. The functions that this rests on meet their types: given arguments that inhabit
the types of their parameters, the built-in functions end without a fault and give an object that
inhabits the type of the result, and so do the functions of the host unless they divide by zero. -/
theorem eval_sound (hs : s.Coherent) (hstore : s.StoreTyped W) (hf : f.EvenMaps)
    (ha : (TypedLisp.analyse s.env s.ns f).run s.supply = .ok (e, supply))
    (ht : (TypedLisp.infer e).run supply.tyVar = .ok (t, k)) (hexpr : ¬ IsEntry t) :
    ((∃ fault, (Session.eval f s).1 = .error (.run (.fault fault)) ∧ fault.Benign) ∨
      ∃ a closures s₁ v,
        runThunk t (s.withSupply { supply with tyVar := k }) = (.ok (a, closures), s₁) ∧
        Inhabits W s₁.machine.heap a t.ann ∧ s₁.machine.heap.decode a = .ok v ∧
        (Session.eval f s).1 = .ok (.value v t.ann)) ∧
    (∀ (b : Builtin) (m : Machine) (g : TyVar → Ty) (args : List Addr) (ts : List Ty) (r : Ty),
      m.Typed W → m.fault = none → (b.ty 0).bind g = .fn ts r → InhabitAll W m.heap args ts →
      Yields (fun _ => False) (b.run args) m fun h a => Inhabits W h a r) ∧
    ∀ (fn : HostFn) (m : Machine) (args : List Addr) (ts : List Ty) (r : Ty),
      m.Typed W → m.fault = none → fn.ty = .fn ts r → InhabitAll W m.heap args ts →
      Yields (· = .divideByZero) (fn.run args) m fun h a => Inhabits W h a r := by
  refine ⟨?_, fun b m g args ts r hm hfault hty hargs => Builtin.run_yields hm hfault hty hargs,
    fun fn m args ts r _ hfault hty hargs =>
      HostFn.run_yields (F := (· = .divideByZero)) rfl hfault hty hargs⟩
  have hstore₀ : (s.withSupply { supply with tyVar := k }).StoreTyped W :=
    hstore.of_heap_le rfl (le_refl _) rfl
  have hs₀ : (s.withSupply { supply with tyVar := k }).Coherent :=
    hs.of_eq rfl (formed_of_infer hs hf ha ht).1 (Nat.le_refl _)
  obtain ⟨hscoped, hvars⟩ := scoped_of_not_isEntry hf ha ht hexpr
  rw [eval_of_infer ha ht, run_eq]
  obtain ⟨fault, s₁, hrun, hbenign⟩ | ⟨a, closures, s₁, hrun, hinhabits⟩ :=
    hstore₀.runThunk hs₀ (isDerivation_of_infer hf ha ht) hscoped hvars
  · refine .inl ⟨fault, ?_, hbenign⟩
    rw [runForm_of_runThunk_error hexpr hrun]
  · obtain ⟨v, hv⟩ := hinhabits.decode
    refine .inr ⟨a, closures, s₁, v, hrun, hinhabits, hv, ?_⟩
    rw [runForm_of_runThunk hexpr hrun, hv]

/-- The form `(let [id (fn (x) x)] (if (id true) (count (conj [] (id 1))) 0))`, in which a function
bound by `let` is used at two types, and two functions of the core namespace are called. -/
def identityTwice : Form :=
  let sym (s : String) : Form := .atom (.symbol s) .nowhere
  let list (fs : List Form) : Form := .seq .list fs .nowhere
  let vector (fs : List Form) : Form := .seq .vector fs .nowhere
  list [sym "let", vector [sym "id", list [sym "fn", list [sym "x"], sym "x"]],
    list [sym "if", list [sym "id", .atom (.bool true) .nowhere],
      list [sym "count", list [sym "conj", vector [], list [sym "id", .atom (.int 1) .nowhere]]],
      .atom (.int 0) .nowhere]]

theorem evenMaps_identityTwice : identityTwice.EvenMaps := by
  simp [identityTwice, Form.EvenMaps, Form.EvenMapsAll]

theorem ty?_identityTwice :
    identityTwice.ty? (Session.start 100).env userNs (Session.start 100).supply = some .int := by cbv

theorem eval_sound_identityTwice :
    (Session.start 100).Coherent ∧ (∃ W, (Session.start 100).StoreTyped W) ∧
      identityTwice.EvenMaps ∧
      identityTwice.ty? (Session.start 100).env userNs (Session.start 100).supply = some .int ∧
      ((∃ fault, (Session.eval identityTwice (.start 100)).1 = .error (.run (.fault fault)) ∧
        fault.Benign) ∨ ∃ v, (Session.eval identityTwice (.start 100)).1 = .ok (.value v .int)) := by
  obtain ⟨W, hW⟩ := exists_storeTyped_start 100
  obtain ⟨e, supply, t, k, ha, ht, hty⟩ := Form.exists_of_ty? ty?_identityTwice
  refine ⟨.start 100, ⟨W, hW⟩, evenMaps_identityTwice, ty?_identityTwice, ?_⟩
  have hexpr : ¬ IsEntry t := fun hentry => by
    have hann := ann_of_isEntry (isDerivation_of_infer evenMaps_identityTwice ha ht) hentry
    cases hty.symm.trans hann
  obtain hfault | ⟨a, closures, s₁, v, -, -, -, heval⟩ :=
    (eval_sound (.start 100) hW evenMaps_identityTwice ha ht hexpr).1
  · exact .inl hfault
  · exact .inr ⟨v, hty ▸ heval⟩

end Session

/-! ## Forms that have a type have code -/

namespace Session

/-- Whether what a definition runs or makes a function of has code. -/
def DefinesCode : Expr Ty → Prop
  | .fn params body _ => ∃ code, body.lower params = .ok code
  | body => ∃ code, body.lower [] = .ok code

/-- Whether what a form runs has code. -/
def HasCode : Expr Ty → Prop
  | .define _ _ body _ => DefinesCode body
  | .declare _ _ => True
  | e => ∃ code, e.lower [] = .ok code

variable {s : Session}

/-- Cells can be given the visible types of the vars that have them, since no two vars share one. -/
theorem Coherent.exists_linked (hs : s.Coherent) :
    ∃ W : CellTypes, ∀ v, s.env.HasVar v → v.Linked W := by
  have hcell : ∀ i : Nat, ∃ o : Option Ty, ∀ g v t, s.env.var? g = some v → v.cell.id = i →
      v.visible = some t → o = some t := by
    intro i
    by_cases h : ∃ g v t, s.env.var? g = some v ∧ v.cell.id = i ∧ v.visible = some t
    · obtain ⟨g, v, t, hg, hi, ht⟩ := h
      refine ⟨some t, fun g' v' t' hg' hi' ht' => ?_⟩
      obtain rfl := hs.cell_inj g g' v v' hg hg' (hi.trans hi'.symm)
      obtain rfl := Option.some.inj (hg.symm.trans hg')
      exact ht.symm.trans ht'
    · exact ⟨none, fun g v t hg hi ht => absurd ⟨g, v, t, hg, hi, ht⟩ h⟩
  choose W hW using hcell
  refine ⟨W, fun v ⟨g, hg⟩ => ⟨?_, (hs.coherent g v hg).arity_eq⟩⟩
  obtain ⟨t, ht⟩ := (hs.coherent g v hg).visible
  exact ⟨t, t, ht, hW _ g v t hg rfl ht, .refl t, .refl t⟩

theorem Coherent.exists_code (hs : s.Coherent) {t : Expr Ty} (hd : t.IsDerivation [])
    (hscoped : t.Scoped []) (hvars : ∀ v ∈ t.vars, s.env.HasVar v) :
    ∃ code, t.lower [] = .ok code := by
  obtain ⟨W, hW⟩ := hs.exists_linked
  obtain ⟨code, hcode, -⟩ := t.lower_typed .nil hd hscoped hscoped.freeLocals_subset
    fun v hv => hW v (hvars v hv)
  exact ⟨code, hcode⟩

theorem exists_code_of_fn {params : List Local} {body : Expr Ty} {n : Note Ty} {code : Code}
    (h : (Expr.fn params body n).lower [] = .ok code) : ∃ c, body.lower params = .ok c := by
  simp only [Expr.lower, bind_eq_ok, mapM_lookupLocal_eq_ok, List.subset_nil] at h
  obtain ⟨_, ⟨hnil, rfl⟩, c, hc, -⟩ := h
  rw [hnil, List.append_nil] at hc
  exact ⟨c, hc⟩

/-- **A form that has a type has code.** -/
theorem Coherent.hasCode (hs : s.Coherent) {f : Form} (hf : f.EvenMaps) {e : Expr Unit}
    {supply : Supply} {t : Expr Ty} {k : TyVar} (ha : s.Analyses f e supply)
    (ht : e.Infers supply t k) : HasCode t := by
  have hd := isDerivation_of_infer hf ha ht
  have hexpr : ¬ IsEntry t → ∃ code, t.lower [] = .ok code := fun hentry => by
    obtain ⟨hscoped, hvars⟩ := scoped_of_not_isEntry hf ha ht hentry
    exact hs.exists_code hd hscoped hvars
  cases t with
  | define name declared body n =>
    obtain ⟨hscoped, hvars⟩ := scoped_of_define hf ha ht rfl
    obtain ⟨code, hcode⟩ := hs.exists_code hd.1 hscoped hvars
    cases body with
    | fn params b n => exact exists_code_of_fn hcode
    | _ => exact ⟨code, hcode⟩
  | declare d n => trivial
  | _ => exact hexpr id

end Session

end TypedLisp
