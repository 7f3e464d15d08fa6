import TypedLisp.Proofs.Session.Preservation

/-!
# Constructors and their objects

The type of a constructor depends on whether it has a list of fields, and its object on how many
fields there are. The two disagree where the list of fields is empty. Such a constructor is all that
keeps a store from being typed after a form which is no function of the host
(`Session.storeTyped_eval_iff`).
-/

namespace TypedLisp

namespace Session

variable {W : StoreTypes} {s s' : Session} {f : Form} {e : Expr Unit} {supply : Supply}
  {t : Expr Ty} {k : TyVar}
variable {d : DataType} {c : Constructor}

/-- What a data type enters: each constructor has its type and, in its cell, its object. -/
theorem Enters.constructor {n : Note Ty} (h : s.Enters (.declare (.data d) n) s') (hs : s.Coherent)
    (hnodup : (d.constructors.map (·.name)).Nodup) {tag : Nat}
    (hc : d.constructors[tag]? = some c) :
    ∃ v a, s'.env.var? c.name = some v ∧ v.visible = some (d.constructorTy c) ∧
      s'.machine.cell? v.cell = some a ∧
      s'.machine.heap.get? a = some (constructorObject d c tag) := by
  cases h with
  | @data _ _ units vs s' hvs =>
    have hs₀ : Coherent { s with units } := hs
    have hnames : (d.constructors.zipIdx.map (·.1.name)).Nodup := by rwa [map_name_zipIdx]
    obtain ⟨cell, a, hmem, ha, hget⟩ :=
      hvs.holds hs₀ hnames (List.mk_mem_zipIdx_iff_getElem?.2 hc)
    exact ⟨varOf d c cell, a, get?_foldl_insert (hvs.map_name ▸ hnames) hmem, rfl, ha, hget⟩

/-- **Each constructor of a data type has its object in its cell** after the data type has been
declared. -/
theorem constructor_eval (hs : s.Reachable) (hf : f.EvenMaps) (ha : s.Analyses f e supply)
    (ht : e.Infers supply t k) {o : Outcome}
    (hok : (Session.eval f s).1 = .ok o) (hd : d ∈ dataTypes t) (hc : c ∈ d.constructors) :
    ∃ v a tag, (Session.eval f s).2.env.var? c.name = some v ∧
      v.visible = some (d.constructorTy c) ∧ (Session.eval f s).2.machine.cell? v.cell = some a ∧
      (Session.eval f s).2.machine.heap.get? a = some (constructorObject d c tag) := by
  obtain ⟨n, rfl⟩ : ∃ n, t = .declare (.data d) n := by
    unfold dataTypes at hd
    split at hd
    · obtain rfl := List.mem_singleton.1 hd
      exact ⟨_, rfl⟩
    · cases hd
  obtain ⟨hle, hformed⟩ := formed_of_infer hs.coherent hf ha ht
  have hs₀ : (s.inferred supply k).Coherent := hs.coherent.of_eq rfl hle (Nat.le_refl _)
  have hc₀ : (s.inferred supply k).Covered := hs.covered
  have hnodup : (d.constructors.map (·.name)).Nodup := by
    cases hformed with
    | data hnodup => exact hnodup
  rw [eval_of_infer ha ht, run_eq] at hok ⊢
  obtain ⟨r, s', hrun, henters⟩ | ⟨-, herror⟩ :=
    runForm_cases (.declare (.data d) n) (s.inferred supply k)
  · obtain ⟨tag, htag⟩ := List.getElem?_of_mem hc
    obtain ⟨v, a, hv, hvisible, ha, hget⟩ := henters.constructor hs₀ hnodup htag
    rw [hrun]
    refine ⟨v, a, tag, hv, hvisible, ?_, get?_collected (henters.covered hc₀) ha hget⟩
    show (s'.collected.machine.cells[v.cell.id]?).join = some a
    rw [collected_cells]
    exact ha
  · obtain ⟨err, herr⟩ := herror trivial
    rw [herr] at hok
    cases hok

/-- The object of a constructor can be called with as many arguments as its type has parameters,
unless these are none. The object of a constructor that is not a function by its type is a
variant. -/
theorem constructorObject_shape (d : DataType) (c : Constructor) (tag : Nat) :
    (∀ ts r, d.constructorTy c = .fn ts r →
      ((∃ fn, constructorObject d c tag = .fn fn ∧ fn.arity = ts.length) ↔ ts ≠ [])) ∧
    (d.constructorTy c = d.ty → ∃ l, constructorObject d c tag = .variant l []) := by
  rcases hf : c.fields with _ | _ | ⟨u, us⟩
  · have hty : d.constructorTy c = d.ty := by rw [DataType.constructorTy, hf]
    have harity : c.arity = 0 := by simp [Constructor.arity, hf]
    exact ⟨fun ts r h => absurd (hty.symm.trans h) (d.ty_ne_fn ts r),
      fun _ => ⟨_, constructorObject_of_zero harity⟩⟩
  · have hty : d.constructorTy c = .fn [] d.ty := by rw [DataType.constructorTy, hf]
    have harity : c.arity = 0 := by simp [Constructor.arity, hf]
    refine ⟨fun ts r h => ?_, fun h => absurd (h.symm.trans hty) (d.ty_ne_fn [] d.ty)⟩
    obtain ⟨rfl, -⟩ := Ty.fn.inj (hty.symm.trans h)
    rw [constructorObject_of_zero harity]
    refine ⟨?_, fun h => absurd rfl h⟩
    rintro ⟨fn, hfn, -⟩
    cases hfn
  · have hty : d.constructorTy c = .fn (u :: us) d.ty := by rw [DataType.constructorTy, hf]
    have harity : c.arity = (u :: us).length := by simp [Constructor.arity, hf]
    refine ⟨fun ts r h => ?_, fun h => absurd (h.symm.trans hty) (d.ty_ne_fn _ d.ty)⟩
    obtain ⟨rfl, -⟩ := Ty.fn.inj (hty.symm.trans h)
    rw [constructorObject_of_pos (harity ▸ Nat.succ_pos _)]
    exact ⟨fun _ => List.cons_ne_nil u us, fun _ => ⟨_, rfl, harity⟩⟩

/-- Where a constructor has an empty list of fields, the store is not typed afterwards, whatever is
taken to be known of it. -/
theorem StoreTyped.fields_ne (hs : s.Reachable) (hf : f.EvenMaps) (ha : s.Analyses f e supply)
    (ht : e.Infers supply t k) {o : Outcome}
    (hok : (Session.eval f s).1 = .ok o) (hstore : (Session.eval f s).2.StoreTyped W)
    (hd : d ∈ dataTypes t) (hc : c ∈ d.constructors) : c.fields ≠ some [] := by
  intro hfields
  obtain ⟨v, a, tag, hv, hvisible, hcell, hget⟩ := constructor_eval hs hf ha ht hok hd hc
  have hty : d.constructorTy c = .fn [] d.ty := by rw [DataType.constructorTy, hfields]
  have harity : c.arity = 0 := by simp [Constructor.arity, hfields]
  obtain ⟨fn, hfn, -⟩ := (hstore.inhabits hv (hvisible.trans (congrArg some hty)) hcell).exists_fn
  rw [constructorObject_of_zero harity] at hget
  cases hget.symm.trans hfn

/-- **Forms keep the store typed, but for constructors with an empty list of fields.** Let a form
that is no function of the host succeed in a session that can be reached and whose store is typed.
Then the store is typed afterwards if and only if no constructor that the form declares has an empty
list of fields. A constructor has the type and the object of its declaration afterwards: where its
type is that of functions of `n` parameters, the object is a function of `n` arguments if and only
if `n` is not zero, and where its type is the data type itself, the object is a variant. -/
theorem storeTyped_eval_iff (hs : s.Reachable) (hstore : s.StoreTyped W) (hf : f.EvenMaps)
    (ha : (TypedLisp.analyse s.env s.ns f).run s.supply = .ok (e, supply))
    (ht : (TypedLisp.infer e).run supply.tyVar = .ok (t, k))
    (hhost : ∀ name ref ty n, t ≠ .declare (.host name ref ty) n) {o : Outcome}
    (hok : (Session.eval f s).1 = .ok o) :
    ((∃ W', (Session.eval f s).2.StoreTyped W') ↔
      ∀ d ∈ dataTypes t, ∀ c ∈ d.constructors, c.fields ≠ some []) ∧
    ∀ d ∈ dataTypes t, ∀ c ∈ d.constructors, ∃ v a object,
      (Session.eval f s).2.env.var? c.name = some v ∧ v.visible = some (d.constructorTy c) ∧
      (Session.eval f s).2.machine.cell? v.cell = some a ∧
      (Session.eval f s).2.machine.heap.get? a = some object ∧
      (∀ ts r, d.constructorTy c = .fn ts r →
        ((∃ fn, object = .fn fn ∧ fn.arity = ts.length) ↔ ts ≠ [])) ∧
      (d.constructorTy c = d.ty → ∃ l, object = .variant l []) := by
  refine ⟨⟨fun ⟨W', hW'⟩ d hd c hc => ?_, fun hfields => ?_⟩, fun d hd c hc => ?_⟩
  · exact StoreTyped.fields_ne hs hf ha ht hok hW' hd hc
  · obtain ⟨W', -, hW'⟩ := hstore.eval hs hf ha ht ⟨hhost, hfields⟩
    exact ⟨W', hW'⟩
  · obtain ⟨v, a, tag, hv, hvisible, hcell, hget⟩ := constructor_eval hs hf ha ht hok hd hc
    exact ⟨v, a, _, hv, hvisible, hcell, hget, constructorObject_shape d c tag⟩

/-- The form `(defdata (Option a) None (Some a))`. -/
def option : Form :=
  let sym (s : String) : Form := .atom (.symbol s) .nowhere
  let list (fs : List Form) : Form := .seq .list fs .nowhere
  list [sym "defdata", list [sym "Option", sym "a"], sym "None", list [sym "Some", sym "a"]]

/-- The data type of `option` in a new session. -/
def optionType : DataType where
  name := ⟨userNs, "Option"⟩
  params := [11]
  constructors := [⟨⟨userNs, "None"⟩, none⟩, ⟨⟨userNs, "Some"⟩, some [.var 11]⟩]

theorem evenMaps_option : option.EvenMaps := by
  simp [option, Form.EvenMaps, Form.EvenMapsAll]

theorem analyse_option :
    (TypedLisp.analyse (Session.start 100).env (Session.start 100).ns option).run
      (Session.start 100).supply =
      .ok (.declare (.data optionType) (plainNote .nowhere), { tyVar := 12 }) := by cbv

theorem infer_option :
    (TypedLisp.infer (.declare (.data optionType) (plainNote .nowhere))).run 12 =
      .ok (.declare (.data optionType) ⟨.nowhere, .effect⟩, 12) := by cbv

theorem eval_option : (Session.eval option (.start 100)).1 =
    .ok (.dataType ⟨userNs, "Option"⟩ [⟨userNs, "None"⟩, ⟨userNs, "Some"⟩]) := by cbv

theorem storeTyped_eval_option :
    (Session.start 100).Reachable ∧ (∃ W, (Session.start 100).StoreTyped W) ∧ option.EvenMaps ∧
      (∃ o, (Session.eval option (.start 100)).1 = .ok o) ∧
      (∃ W', (Session.eval option (.start 100)).2.StoreTyped W') ∧
      ∃ v a fn, (Session.eval option (.start 100)).2.env.var? ⟨userNs, "Some"⟩ = some v ∧
        (Session.eval option (.start 100)).2.machine.cell? v.cell = some a ∧
        (Session.eval option (.start 100)).2.machine.heap.get? a = some (.fn fn) ∧
        fn.arity = 1 := by
  obtain ⟨W, hW⟩ := exists_storeTyped_start 100
  obtain ⟨htyped, hconstructors⟩ := storeTyped_eval_iff (.start 100) hW evenMaps_option
    analyse_option infer_option nofun eval_option
  refine ⟨.start 100, ⟨W, hW⟩, evenMaps_option, ⟨_, eval_option⟩, htyped.2 (by decide), ?_⟩
  obtain ⟨v, a, object, hv, -, hcell, hget, hfn, -⟩ :=
    hconstructors optionType (by decide) ⟨⟨userNs, "Some"⟩, some [.var 11]⟩ (by decide)
  obtain ⟨fn, rfl, harity⟩ := (hfn [.var 11] optionType.ty rfl).2 (by decide)
  exact ⟨v, a, fn, hv, hcell, hget, harity⟩

/-- The form `(defdata T (Foo))`, whose constructor has an empty list of fields. -/
def emptyFields : Form :=
  let sym (s : String) : Form := .atom (.symbol s) .nowhere
  let list (fs : List Form) : Form := .seq .list fs .nowhere
  list [sym "defdata", sym "T", list [sym "Foo"]]

/-- The form `(Foo)`. -/
def callFoo : Form := .seq .list [.atom (.symbol "Foo") .nowhere] .nowhere

/-- The data type of `emptyFields`. -/
def emptyFieldsType : DataType := ⟨⟨userNs, "T"⟩, [], [⟨⟨userNs, "Foo"⟩, some []⟩]⟩

theorem evenMaps_emptyFields : emptyFields.EvenMaps := by
  simp [emptyFields, Form.EvenMaps, Form.EvenMapsAll]

theorem analyse_emptyFields :
    (TypedLisp.analyse (Session.start 100).env (Session.start 100).ns emptyFields).run
      (Session.start 100).supply =
      .ok (.declare (.data emptyFieldsType) (plainNote .nowhere), { tyVar := 11 }) := by cbv

theorem infer_emptyFields :
    (TypedLisp.infer (.declare (.data emptyFieldsType) (plainNote .nowhere))).run 11 =
      .ok (.declare (.data emptyFieldsType) ⟨.nowhere, .effect⟩, 11) := by cbv

/-- A data type is declared in a new session, its store is then not typed, and the call of the
constructor, which has a type, finds that there is no function. -/
theorem not_storeTyped_emptyFields :
    (Session.start 100).Reachable ∧ (∃ W, (Session.start 100).StoreTyped W) ∧
      emptyFields.EvenMaps ∧
      (Session.eval emptyFields (.start 100)).1 = .ok (.dataType ⟨userNs, "T"⟩ [⟨userNs, "Foo"⟩]) ∧
      (∀ W, ¬ (Session.eval emptyFields (.start 100)).2.StoreTyped W) ∧
      callFoo.ty? (Session.eval emptyFields (.start 100)).2.env userNs
        (Session.eval emptyFields (.start 100)).2.supply = some emptyFieldsType.ty ∧
      (Session.eval callFoo (Session.eval emptyFields (.start 100)).2).1 =
        .error (.run (.fault (.notAFunction "variant"))) := by
  obtain ⟨W, hW⟩ := exists_storeTyped_start 100
  have heval : (Session.eval emptyFields (.start 100)).1 =
      .ok (.dataType ⟨userNs, "T"⟩ [⟨userNs, "Foo"⟩]) := by cbv
  refine ⟨.start 100, ⟨W, hW⟩, evenMaps_emptyFields, heval, fun W' hW' => ?_, by cbv, by cbv⟩
  exact StoreTyped.fields_ne (.start 100) evenMaps_emptyFields analyse_emptyFields infer_emptyFields
    heval hW' (d := emptyFieldsType) (c := ⟨⟨userNs, "Foo"⟩, some []⟩) (by decide) (by decide) rfl

end Session

end TypedLisp
