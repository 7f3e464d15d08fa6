import TypedLisp.Proofs.Namespaces.Integrity

/-!
# The kinds of nominal types

A data type without parameters is a type on its own, and any other is one with its arguments
(`Ty.WellKinded`). A form that names data types (`Form.NamesDataType`) denotes a type of this shape,
unless there is a head without arguments in it (`analyseType_wellKinded`, `lone_head_is_no_month`).
-/

namespace TypedLisp

variable {f head : Form} {name ns : String} {args : List Form} {d : DataType} {n n' : TyNames}
  {s s' : Supply}

/-! ## Well-kinded types -/

/-- Whether a data type is one of an environment. -/
def Env.HasDataType (e : Env) (d : DataType) : Prop := ∃ g, e.dataType? g = some d

/-- The type of a data type's values at some arguments, of the shape of `DataType.ty`. -/
def DataType.tyAt (d : DataType) (args : List Ty) : Ty :=
  if d.params.isEmpty then .data d.name.text else .applied (.data d.name.text) args

namespace Ty

/-- The types in which each nominal type is as its data type is: on its own if there are no
parameters, and with all arguments if there are some. -/
inductive WellKinded (e : Env) : Ty → Prop where
  | bool : WellKinded e .bool
  | str : WellKinded e .str
  | int : WellKinded e .int
  | var (v : TyVar) : WellKinded e (.var v)
  | vector {t : Ty} (h : WellKinded e t) : WellKinded e (.vector t)
  | set {t : Ty} (h : WellKinded e t) : WellKinded e (.set t)
  | map {k v : Ty} (hk : WellKinded e k) (hv : WellKinded e v) : WellKinded e (.map k v)
  | fn {ps : List Ty} {r : Ty} (h : ∀ t ∈ ps ++ [r], WellKinded e t) : WellKinded e (.fn ps r)
  | data {d : DataType} (hd : e.HasDataType d) (h : d.params = []) :
      WellKinded e (.data d.name.text)
  | applied {d : DataType} {as : List Ty} (hd : e.HasDataType d) (h : d.params ≠ [])
      (hlen : as.length = d.params.length) (has : ∀ a ∈ as, WellKinded e a) :
      WellKinded e (.applied (.data d.name.text) as)

variable {e : Env} {t k v r base : Ty} {ps as : List Ty}

@[simp] theorem wellKinded_vector : (vector t).WellKinded e ↔ t.WellKinded e :=
  ⟨fun | .vector h => h, .vector⟩

@[simp] theorem wellKinded_set : (set t).WellKinded e ↔ t.WellKinded e := ⟨fun | .set h => h, .set⟩

@[simp] theorem wellKinded_map : (map k v).WellKinded e ↔ k.WellKinded e ∧ v.WellKinded e :=
  ⟨fun | .map hk hv => ⟨hk, hv⟩, fun h => .map h.1 h.2⟩

theorem wellKinded_fn : (fn ps r).WellKinded e ↔ ∀ t ∈ ps ++ [r], t.WellKinded e :=
  ⟨fun | .fn h => h, .fn⟩

theorem WellKinded.of_applied (h : (Ty.applied base as).WellKinded e) :
    as ≠ [] ∧ ∀ a ∈ as, a.WellKinded e := by
  cases h with
  | applied _ hparams hlen has =>
    refine ⟨?_, has⟩
    rintro rfl
    exact hparams (List.eq_nil_of_length_eq_zero hlen.symm)

end Ty

/-! ## Forms that name data types -/

/-- The data type that an atom names in a namespace. -/
def Env.namedDataType? (e : Env) (ns : String) : Atom → Option DataType
  | .symbol name => e.resolveDataType ns name
  | .qualified qualifier name => e.resolveQualifiedDataType ns qualifier name
  | _ => none

/-- Whether an atom is neither one of some words nor a type variable. -/
def Atom.IsNameBeside (words : List String) : Atom → Prop
  | .symbol name => name ∉ words ∧ isTyVarName name = false
  | _ => True

/-- The forms that name a data type, with the forms of its arguments: the name on its own, or a list
that begins with it. -/
inductive Form.NamesDataType (e : Env) (ns : String) : Form → DataType → List Form → Prop where
  | alone {a : Atom} {r : Range} {d : DataType} (ha : a.IsNameBeside ["Int", "Str", "Bool"])
      (hd : e.namedDataType? ns a = some d) : NamesDataType e ns (.atom a r) d []
  | head {a : Atom} {r r' : Range} {d : DataType} {args : List Form} (ha : a.IsNameBeside ["Fn"])
      (hd : e.namedDataType? ns a = some d) :
      NamesDataType e ns (.seq .list (.atom a r :: args) r') d args

mutual

/-- Whether a form has in it a list of one item, which is a head without arguments. -/
def Form.hasLoneHead : Form → Bool
  | .atom _ _ => false
  | .seq b items _ => (b = .list ∧ items.length = 1) || anyLoneHead items

/-- Whether one of some forms has in it a list of one item. -/
def Form.anyLoneHead : List Form → Bool
  | [] => false
  | f :: fs => f.hasLoneHead || anyLoneHead fs

end

theorem Form.hasLoneHead_of_symbol? (h : f.symbol? = some name) : f.hasLoneHead = false := by
  cases f with
  | atom a r => rw [Form.hasLoneHead]
  | seq b items r => cases h

theorem Form.hasLoneHead_list (hhead : head.hasLoneHead = false) :
    (Form.seq .list (head :: args) r).hasLoneHead = false ↔
      ¬ args.length = 0 ∧ Form.anyLoneHead args = false := by
  simp [Form.hasLoneHead, Form.anyLoneHead, hhead]

variable {e : Env} {a : Atom} {t : Ty} {ts : List Ty} {r : Range}

theorem Env.hasDataType_of_named (h : e.namedDataType? ns a = some d) : e.HasDataType d := by
  unfold namedDataType? at h
  split at h
  · unfold resolveDataType resolveIn at h
    split at h
    · rename_i hown
      cases h
      exact ⟨_, hown⟩
    · split at h
      · exact ⟨_, h⟩
      · exact ⟨_, h⟩
  · obtain ⟨target, -, hd⟩ := Option.bind_eq_some_iff.1 h
    exact ⟨_, hd⟩
  · cases h

/-! ## What analysis gives -/

theorem TypeContext.exists_of_dataType? {found : Ty × Nat}
    (h : TypeContext.dataType? { env := e, ns } a = some found) :
    ∃ d, e.namedDataType? ns a = some d ∧ found = (.data d.name.text, d.params.length) := by
  have heq : TypeContext.dataType? { env := e, ns } a =
      (e.namedDataType? ns a).map fun d => (.data d.name.text, d.params.length) := by
    cases a <;> rfl
  rw [heq] at h
  obtain ⟨d, hd, rfl⟩ := Option.map_eq_some_iff.1 h
  exact ⟨d, hd, rfl⟩

theorem exists_of_bareDataType (h : (bareDataType { env := e, ns } a r).run n = .ok (t, n')) :
    (∃ d, e.namedDataType? ns a = some d ∧ d.params = [] ∧ t = .data d.name.text) ∧
      ∀ k, (bareDataType { env := e, ns } a r).run k = .ok (t, k) := by
  unfold bareDataType at h ⊢
  split at h
  · exact absurd h run_throw_ne_ok
  · rename_i hfound
    obtain ⟨d, hd, heq⟩ := TypeContext.exists_of_dataType? hfound
    obtain ⟨rfl, hparams⟩ := Prod.mk.inj heq
    obtain ⟨rfl, -⟩ := run_pure_eq_ok.1 h
    exact ⟨⟨d, hd, List.eq_nil_of_length_eq_zero hparams.symm, rfl⟩, fun _ => rfl⟩
  · exact absurd h run_throw_ne_ok

theorem exists_of_tyVarOf {c : TypeContext} (h : (tyVarOf c name r).run n = .ok (t, n')) :
    ∃ v, t = .var v := by
  simp only [tyVarOf, run_bind_eq_ok, run_get_eq_ok] at h
  obtain ⟨_, _, ⟨rfl, rfl⟩, h⟩ := h
  split at h
  · obtain ⟨rfl, -⟩ := run_pure_eq_ok.1 h
    exact ⟨_, rfl⟩
  · split at h
    · simp only [run_bind_eq_ok, run_set_eq_ok, run_pure_eq_ok] at h
      obtain ⟨_, _, rfl, rfl, rfl⟩ := h
      exact ⟨_, rfl⟩
    · exact absurd h run_throw_ne_ok

theorem exists_of_headDataType {k : Nat}
    (h : (headDataType { env := e, ns } head).run n = .ok ((t, k), n')) :
    (∃ a r d, head = .atom a r ∧ e.namedDataType? ns a = some d ∧ t = .data d.name.text ∧
      k = d.params.length) ∧
      ∀ n, (headDataType { env := e, ns } head).run n = .ok ((t, k), n) := by
  unfold headDataType at h ⊢
  split at h
  · rename_i name r
    split at h
    · exact absurd h run_throw_ne_ok
    · rename_i hvar
      split at h
      · rename_i hfound
        obtain ⟨d, hd, rfl⟩ := TypeContext.exists_of_dataType? hfound
        cases run_pure_eq_ok.1 h |>.1
        exact ⟨⟨_, r, d, rfl, hd, rfl, rfl⟩, fun n => by simp only [hvar]; rfl⟩
      · exact absurd h run_throw_ne_ok
  · rename_i qualifier name r
    split at h
    · rename_i hfound
      obtain ⟨d, hd, rfl⟩ := TypeContext.exists_of_dataType? hfound
      cases run_pure_eq_ok.1 h |>.1
      exact ⟨⟨_, r, d, rfl, hd, rfl, rfl⟩, fun _ => rfl⟩
    · exact absurd h run_throw_ne_ok
  · exact absurd h run_throw_ne_ok

theorem exists_of_typeForm_list (hhead : head.symbol? ≠ some "Fn")
    (h : (typeForm { env := e, ns } (.seq .list (head :: args) r)).run n = .ok (t, n')) :
    ∃ a r' d n₁ ts, head = .atom a r' ∧ e.namedDataType? ns a = some d ∧
      args.length = d.params.length ∧ (typeForms { env := e, ns } args).run n₁ = .ok (ts, n') ∧
      t = .applied (.data d.name.text) ts ∧
      ∀ n, (typeForms { env := e, ns } args).run n = .ok (ts, n) →
        (typeForm { env := e, ns } (.seq .list (head :: args) r)).run n = .ok (t, n) := by
  rw [typeForm, if_neg hhead] at h ⊢
  simp only [run_bind_eq_ok] at h
  obtain ⟨⟨base, arity⟩, n₁, hbase, h⟩ := h
  obtain ⟨⟨a, r', d, rfl, hd, rfl, rfl⟩, hbase⟩ := exists_of_headDataType hbase
  split at h
  · rename_i hlen
    simp only [run_bind_eq_ok, run_pure_eq_ok] at h
    obtain ⟨ts, _, hts, rfl, rfl⟩ := h
    refine ⟨a, r', d, n₁, ts, rfl, hd, hlen, hts, rfl, fun n hn => ?_⟩
    refine run_bind_eq_ok.2 ⟨_, n, hbase n, ?_⟩
    simp only [hlen, if_true]
    exact run_bind_eq_ok.2 ⟨ts, n, hn, rfl⟩
  · exact absurd h run_throw_ne_ok

theorem wellKinded_applied_iff (hd : e.namedDataType? ns a = some d)
    (hlen : ts.length = d.params.length) : (Ty.applied (.data d.name.text) ts).WellKinded e ↔
      ts ≠ [] ∧ ∀ t ∈ ts, t.WellKinded e := by
  refine ⟨Ty.WellKinded.of_applied, fun ⟨hne, hts⟩ => ?_⟩
  refine .applied (Env.hasDataType_of_named hd) (fun hnil => hne ?_) hlen hts
  rwa [hnil, List.length_nil, List.length_eq_zero_iff] at hlen

/-- What there is to say of the type of a form: it is well-kinded unless there is a lone head in the
form, and if it is closed, the form denotes it whatever type variables have names. -/
structure Form.Denotes (e : Env) (ns : String) (f : Form) (t : Ty) : Prop where
  wellKinded_iff : t.WellKinded e ↔ f.hasLoneHead = false
  run_of_closed : t.vars = [] → ∀ n, (typeForm { env := e, ns } f).run n = .ok (t, n)

/-- What there is to say of the types of some forms. -/
structure Form.AllDenote (e : Env) (ns : String) (fs : List Form) (ts : List Ty) : Prop where
  length_eq : fs.length = ts.length
  wellKinded_iff : (∀ t ∈ ts, t.WellKinded e) ↔ anyLoneHead fs = false
  run_of_closed : Ty.varsAll ts = [] → ∀ n, (typeForms { env := e, ns } fs).run n = .ok (ts, n)

theorem Form.Denotes.atom (h : t.WellKinded e)
    (hrun : t.vars = [] → ∀ n, (typeForm { env := e, ns } (.atom a r)).run n = .ok (t, n)) :
    Denotes e ns (.atom a r) t :=
  ⟨iff_of_true h (by rw [Form.hasLoneHead]), hrun⟩

theorem Form.Denotes.of_bareDataType
    (heq : typeForm { env := e, ns } (.atom a r) = bareDataType { env := e, ns } a r)
    (h : (bareDataType { env := e, ns } a r).run n = .ok (t, n')) : Denotes e ns (.atom a r) t := by
  obtain ⟨⟨d, hd, hparams, rfl⟩, hrun⟩ := exists_of_bareDataType h
  exact .atom (.data (Env.hasDataType_of_named hd) hparams) fun _ n => heq ▸ hrun n

mutual

/-- **A type is well-kinded unless there is a lone head in its form.** -/
theorem denotes_of_typeForm {n n' : TyNames} {t : Ty} (f : Form)
    (h : (typeForm { env := e, ns } f).run n = .ok (t, n')) : f.Denotes e ns t := by
  have hlist := h
  unfold typeForm at h
  split at h
  · rename_i name r
    split at h
    · rename_i hint
      obtain ⟨rfl, -⟩ := run_pure_eq_ok.1 h
      exact .atom .int fun _ n => by rw [typeForm, if_pos hint]; rfl
    split at h
    · rename_i hint hstr
      obtain ⟨rfl, -⟩ := run_pure_eq_ok.1 h
      exact .atom .str fun _ n => by rw [typeForm, if_neg hint, if_pos hstr]; rfl
    split at h
    · rename_i hint hstr hbool
      obtain ⟨rfl, -⟩ := run_pure_eq_ok.1 h
      exact .atom .bool fun _ n => by rw [typeForm, if_neg hint, if_neg hstr, if_pos hbool]; rfl
    split at h
    · obtain ⟨v, rfl⟩ := exists_of_tyVarOf h
      exact .atom (.var v) nofun
    · rename_i hint hstr hbool hvar
      exact .of_bareDataType
        (by rw [typeForm, if_neg hint, if_neg hstr, if_neg hbool, if_neg hvar]) h
  · exact .of_bareDataType (by rw [typeForm]) h
  · exact absurd h run_throw_ne_ok
  · simp only [run_bind_eq_ok, run_pure_eq_ok] at h
    obtain ⟨u, _, hu, rfl, -⟩ := h
    have hu := denotes_of_typeForm _ hu
    refine ⟨by simp [Form.hasLoneHead, Form.anyLoneHead, hu.wellKinded_iff], fun hvars n => ?_⟩
    rw [typeForm]
    exact run_bind_eq_ok.2 ⟨u, n, hu.run_of_closed hvars n, rfl⟩
  · exact absurd h run_throw_ne_ok
  · simp only [run_bind_eq_ok, run_pure_eq_ok] at h
    obtain ⟨u, _, hu, rfl, -⟩ := h
    have hu := denotes_of_typeForm _ hu
    refine ⟨by simp [Form.hasLoneHead, Form.anyLoneHead, hu.wellKinded_iff], fun hvars n => ?_⟩
    rw [typeForm]
    exact run_bind_eq_ok.2 ⟨u, n, hu.run_of_closed hvars n, rfl⟩
  · exact absurd h run_throw_ne_ok
  · simp only [run_bind_eq_ok, run_pure_eq_ok] at h
    obtain ⟨k, _, hk, v, _, hv, rfl, -⟩ := h
    have hk := denotes_of_typeForm _ hk
    have hv := denotes_of_typeForm _ hv
    refine ⟨by simp [Form.hasLoneHead, Form.anyLoneHead, hk.wellKinded_iff, hv.wellKinded_iff],
      fun hvars n => ?_⟩
    obtain ⟨hkvars, hvvars⟩ := List.append_eq_nil_iff.1 hvars
    rw [typeForm]
    exact run_bind_eq_ok.2 ⟨k, n, hk.run_of_closed hkvars n,
      run_bind_eq_ok.2 ⟨v, n, hv.run_of_closed hvvars n, rfl⟩⟩
  · exact absurd h run_throw_ne_ok
  · exact absurd h run_throw_ne_ok
  · rename_i head args r
    split at h
    · rename_i hhead
      simp only [run_bind_eq_ok] at h
      obtain ⟨ts, _, hts, h⟩ := h
      have hts := allDenote_of_typeForms args hts
      split at h
      · exact absurd h run_throw_ne_ok
      · rename_i u us hus
        obtain ⟨rfl, -⟩ := run_pure_eq_ok.1 h
        obtain rfl : ts = us.reverse ++ [u] := by simpa using congrArg List.reverse hus
        refine ⟨?_, fun hvars n => ?_⟩
        · have hargs : args.length ≠ 0 := by simp [hts.length_eq]
          rw [Ty.wellKinded_fn, hts.wellKinded_iff,
            Form.hasLoneHead_list (Form.hasLoneHead_of_symbol? hhead)]
          simp [hargs]
        · have hrun := hts.run_of_closed (by simpa [Ty.vars, Ty.varsAll_eq_flatMap] using hvars) n
          rw [typeForm, if_pos hhead]
          exact run_bind_eq_ok.2 ⟨_, n, hrun, by rw [hus]; rfl⟩
    · rename_i hhead
      obtain ⟨a, _, d, _, ts, rfl, hd, hparams, hts, rfl, hrun⟩ :=
        exists_of_typeForm_list hhead hlist
      have hts := allDenote_of_typeForms args hts
      refine ⟨?_, fun hvars n => hrun n (hts.run_of_closed hvars n)⟩
      rw [wellKinded_applied_iff hd (hts.length_eq ▸ hparams), hts.wellKinded_iff,
        Form.hasLoneHead_list (by rw [Form.hasLoneHead]), hts.length_eq, ne_eq,
        List.length_eq_zero_iff]
termination_by sizeOf f

theorem allDenote_of_typeForms {n n' : TyNames} {ts : List Ty} (fs : List Form)
    (h : (typeForms { env := e, ns } fs).run n = .ok (ts, n')) : Form.AllDenote e ns fs ts := by
  match fs with
  | [] =>
    rw [typeForms, run_pure_eq_ok] at h
    obtain ⟨rfl, -⟩ := h
    exact ⟨rfl, by simp [Form.anyLoneHead], fun _ n => by rw [typeForms]; rfl⟩
  | f :: fs =>
    simp only [typeForms, run_bind_eq_ok, run_pure_eq_ok] at h
    obtain ⟨t, _, ht, ts', _, hts, rfl, -⟩ := h
    have ht := denotes_of_typeForm f ht
    have hts := allDenote_of_typeForms fs hts
    refine ⟨by simp [hts.length_eq],
      by simp [Form.anyLoneHead, ht.wellKinded_iff, hts.wellKinded_iff], fun hvars n => ?_⟩
    obtain ⟨htvars, htsvars⟩ := List.append_eq_nil_iff.1 hvars
    rw [typeForms]
    exact run_bind_eq_ok.2 ⟨t, n, ht.run_of_closed htvars n,
      run_bind_eq_ok.2 ⟨ts', n, hts.run_of_closed htsvars n, rfl⟩⟩
termination_by sizeOf fs

end

theorem exists_of_namesDataType (hf : f.NamesDataType e ns d args) (hlone : f.hasLoneHead = false)
    (h : (typeForm { env := e, ns } f).run n = .ok (t, n')) :
    ∃ n₁ ts, (typeForms { env := e, ns } args).run n₁ = .ok (ts, n') ∧
      ts.length = d.params.length ∧ t = d.tyAt ts ∧ Ty.varsAll ts = t.vars := by
  have hsame {a : Atom} {d' : DataType} (hd : e.namedDataType? ns a = some d)
      (hd' : e.namedDataType? ns a = some d') : d' = d := Option.some.inj (hd'.symm.trans hd)
  cases hf with
  | @alone a r _ ha hd =>
    have hbare : (bareDataType { env := e, ns } a r).run n = .ok (t, n') := by
      cases a with
      | symbol name =>
        obtain ⟨hwords, hvar⟩ := ha
        simp only [List.mem_cons, List.not_mem_nil, or_false, not_or] at hwords
        simpa only [typeForm, hwords, hvar, if_false, Bool.false_eq_true] using h
      | qualified qualifier name => rwa [typeForm] at h
      | _ => cases hd
    obtain ⟨⟨d', hd', hparams, rfl⟩, -⟩ := exists_of_bareDataType hbare
    obtain rfl := hsame hd hd'
    exact ⟨n', [], by rw [typeForms]; rfl, by simp [hparams], by simp [DataType.tyAt, hparams], rfl⟩
  | @head a r r' _ args ha hd =>
    have hhead : (Form.atom a r).symbol? ≠ some "Fn" := by
      cases a with
      | symbol name => simpa [Form.symbol?] using ha.1
      | _ => simp [Form.symbol?]
    obtain ⟨_, _, d', n₁, ts, heq, hd', hparams, hts, rfl, -⟩ := exists_of_typeForm_list hhead h
    cases heq
    obtain rfl := hsame hd hd'
    have hlen := (allDenote_of_typeForms args hts).length_eq
    have hargs := ((Form.hasLoneHead_list (by rw [Form.hasLoneHead])).1 hlone).1
    have hne : d'.params ≠ [] := fun hnil => hargs (by rw [hparams, hnil, List.length_nil])
    exact ⟨n₁, ts, hts, hlen ▸ hparams, by simp [DataType.tyAt, hne], rfl⟩

/-! ## The types of constructors -/

/-- What a function gives; any other type is its own result. -/
def Ty.result : Ty → Ty
  | .fn _ r => r
  | t => t

theorem DataType.result_constructorTy (d : DataType) (c : Constructor) :
    (d.constructorTy c).result = d.ty := by
  unfold constructorTy
  split
  · unfold ty
    split <;> rfl
  · rfl

/-- A closed type of a data type is an instance of the general one, whose parameters differ. -/
theorem DataType.exists_unify_tyAt (hparams : d.params.Nodup)
    (hlen : ts.length = d.params.length) (hclosed : (d.tyAt ts).vars = []) :
    ∃ m, unify [(d.tyAt ts, d.ty)] = .ok m := by
  -- each parameter becomes the argument in its place
  let f (v : TyVar) : Ty := ts[d.params.idxOf v]?.getD (.var v)
  have hargs : d.params.map f = ts := by
    refine List.ext_getElem (by simp [hlen]) fun i hi hi' => ?_
    rw [List.getElem_map]
    simp [f, List.Nodup.idxOf_getElem hparams, hi']
  have hgeneral : d.ty.bind f = d.tyAt ts := by
    show (d.tyAt (d.params.map .var)).bind f = _
    unfold tyAt
    split
    · rw [Ty.bind]
    · rw [Ty.bind, Ty.bindAll_eq_map, List.map_map, Ty.bind, ← hargs]
      rfl
  have hself : (d.tyAt ts).bind f = d.tyAt ts := Ty.bind_eq_self_iff.2 (by simp [hclosed])
  have hsolves : Unify.Solves f [(d.tyAt ts, d.ty)] :=
    Unify.solves_cons.2 ⟨hself.trans hgeneral.symm, Unify.solves_nil f⟩
  obtain ⟨m, hm, -⟩ := exists_unify hsolves
  exact ⟨m, hm⟩

theorem Declares.params_nodup {env : Env} (h : Declares env ns s s' (.data d)) :
    d.params.Nodup := by
  cases h with
  | ascribe h =>
    obtain ⟨_, _, heq, -⟩ := ascribeForm_below h
    cases heq
  | data h =>
    obtain ⟨_, heq, -, -, hparams, -⟩ := dataForm_below h
    cases heq
    exact hparams
  | host h =>
    obtain ⟨_, _, _, heq, -⟩ := hostForm_below h
    cases heq

theorem Env.dataType?_withVar (e : Env) (v : Var) (g : GlobalName) :
    (e.withVar v).dataType? g = e.dataType? g := by
  unfold withVar ensureNs
  split <;> rfl

namespace Session

variable {s s' : Session}
variable {g : GlobalName}

theorem Enters.dataType?_cases {t : Expr Ty} (h : s.Enters t s')
    (hd : s'.env.dataType? g = some d) :
    s.env.dataType? g = some d ∨ ∃ n, t = .declare (.data d) n := by
  cases h with
  | @define name declared body n a kind closures s₁ cell cells ho hcell =>
    have hquiet := quiet_of_definedObject ho
    exact .inl (by rwa [Env.dataType?_withVar, hquiet.env_eq] at hd)
  | ns d n => exact .inl hd
  | ascribe hv => exact .inl (by rwa [Env.dataType?_withVar] at hd)
  | @data d' n units vs s' hvs =>
    have henv : s'.env = s.env := hvs.env_eq
    rcases Table.get?_insert_eq_some hd with ⟨-, rfl⟩ | ⟨-, hd⟩
    · exact .inr ⟨n, rfl⟩
    · exact .inl (by rwa [← henv])
  | host harity hcell => exact .inl (by rwa [Env.dataType?_withVar] at hd)

theorem dataType?_start (limit : Nat) (g : GlobalName) : (start limit).env.dataType? g = none :=
  start_induction (P := fun s => s.env.dataType? g = none) rfl fun s b hs => by
    rw [defineBuiltin_eq]
    exact (Env.dataType?_withVar ..).trans hs

/-- **The parameters of a data type differ** in every session that can be reached. -/
theorem Reachable.params_nodup (hs : s.Reachable) (hd : s.env.dataType? g = some d) :
    d.params.Nodup := by
  induction hs with
  | start limit => cases (dataType?_start limit g).symm.trans hd
  | @eval s _ f hf ih =>
    obtain ⟨henv, -⟩ | ⟨e, supply, t, k, s', ha, ht, henters, heval⟩ := eval_enters f s
    · exact ih (henv ▸ hd)
    · rw [heval] at hd
      obtain hd | ⟨n, rfl⟩ := henters.dataType?_cases hd
      · exact ih hd
      · rw [← erase_of_infer ht] at ha
        obtain ⟨_, _, _, heq, -⟩ | ⟨_, _, heq, hdeclares⟩ | he := analyse_cases hf ha
        · cases heq
        · cases heq
          exact hdeclares.params_nodup
        · exact absurd he.isScoped id
  | @invoke s _ sym args ih => exact ih (invoke_env .. ▸ hd)

end Session

/-- **Analysis makes well-kinded types of forms without lone heads.** The type of a form is
well-kinded if and only if no list in the form is a head without arguments. Let the form be so, and
let it name a data type, bare or qualified, alone or at the head of a list. Then it denotes the data
type at what the arguments denote, in the one shape of `DataType.ty`. If this type is closed, the
arguments denote the same wherever they are written, and so do all spellings with them, and the type
unifies with the types of the constructors, provided that the parameters of the data type differ, as
they do in every session (`Session.Reachable.params_nodup`). -/
theorem analyseType_wellKinded {env : Env} {t : Ty}
    (h : (analyseType env ns f).run s = .ok (t, s')) :
    (t.WellKinded env ↔ f.hasLoneHead = false) ∧
      ∀ d args, f.hasLoneHead = false → f.NamesDataType env ns d args →
        ∃ ts, (∃ n n', (typeForms { env, ns } args).run n = .ok (ts, n')) ∧ t = d.tyAt ts ∧
          (t.vars = [] → (∀ n, (typeForms { env, ns } args).run n = .ok (ts, n)) ∧
            (d.params.Nodup → ∀ c ∈ d.constructors,
              ∃ m, unify [(t, (d.constructorTy c).result)] = .ok m)) := by
  simp only [analyseType, run_bind_eq_ok, run_get_eq_ok, run_set_eq_ok, run_pure_eq_ok,
    run_liftM_eq_ok] at h
  obtain ⟨_, _, ⟨rfl, rfl⟩, ⟨u, n⟩, _, ⟨hu, rfl⟩, _, _, rfl, rfl, rfl⟩ := h
  refine ⟨(denotes_of_typeForm f hu).wellKinded_iff, fun d args hlone hf => ?_⟩
  obtain ⟨n₁, ts, hts, hlen, rfl, hvars⟩ := exists_of_namesDataType hf hlone hu
  refine ⟨ts, ⟨n₁, n, hts⟩, rfl, fun hclosed => ⟨?_, fun hparams c _ => ?_⟩⟩
  · exact (allDenote_of_typeForms args hts).run_of_closed (hvars.trans hclosed)
  · rw [d.result_constructorTy c]
    exact DataType.exists_unify_tyAt hparams hlen hclosed

/-! ### Months and boxes -/

namespace Session

/-- The session after `(defdata Month Jan)` and `(defdata (Box a) (Wrap a))`. -/
def withMonths : Session :=
  let symbol (s : String) : Form := .atom (.symbol s) .nowhere
  let list (fs : List Form) : Form := .seq .list fs .nowhere
  (Session.start 100).after
    [.form (list [symbol "defdata", symbol "Month", symbol "Jan"]),
      .form (list [symbol "defdata", list [symbol "Box", symbol "a"],
        list [symbol "Wrap", symbol "a"]])]

theorem reachable_withMonths : withMonths.Reachable := by
  refine Reachable.after (.start 100) ?_
  simp [Request.EvenMaps, Form.EvenMaps, Form.EvenMapsAll]

/-- The form `(user/Box Month)`. -/
def boxOfMonth : Form :=
  .seq .list [.atom (.qualified "user" "Box") .nowhere, .atom (.symbol "Month") .nowhere] .nowhere

theorem run_analyseType_boxOfMonth :
    (analyseType withMonths.env "user" boxOfMonth).run withMonths.supply =
      .ok (.applied (.data "user/Box") [.data "user/Month"], withMonths.supply) := by cbv

theorem constructors_box :
    (withMonths.env.namedDataType? "user" (.qualified "user" "Box")).map
      (·.constructors.map (·.name)) = some [⟨"user", "Wrap"⟩] := by cbv

/-- The form `(user/Box Month)` denotes a well-kinded type, with which the type of what `Wrap` makes
unifies. -/
theorem analyseType_wellKinded_boxOfMonth :
    ∃ t s' d c m, (analyseType withMonths.env "user" boxOfMonth).run withMonths.supply =
        .ok (t, s') ∧ t.WellKinded withMonths.env ∧
      withMonths.env.namedDataType? "user" (.qualified "user" "Box") = some d ∧
      c ∈ d.constructors ∧ unify [(t, (d.constructorTy c).result)] = .ok m := by
  obtain ⟨hkinded, hnames⟩ := analyseType_wellKinded run_analyseType_boxOfMonth
  have hlone : boxOfMonth.hasLoneHead = false := rfl
  obtain ⟨d, hd, hwrap⟩ := Option.map_eq_some_iff.1 constructors_box
  obtain ⟨c, _, hconstructors, -, -⟩ := List.map_eq_cons_iff.1 hwrap
  have hc : c ∈ d.constructors := by rw [hconstructors]; exact List.mem_cons_self
  obtain ⟨g, hg⟩ := Env.hasDataType_of_named hd
  obtain ⟨_, -, -, hclosed⟩ := hnames d _ hlone (.head trivial hd)
  obtain ⟨m, hm⟩ := (hclosed rfl).2 (reachable_withMonths.params_nodup hg) c hc
  exact ⟨_, _, d, c, m, run_analyseType_boxOfMonth, hkinded.2 hlone, hd, hc, hm⟩

/-- The form `(Month)`. -/
def loneMonth : Form := .seq .list [.atom (.symbol "Month") .nowhere] .nowhere

/-- **A head without arguments is no spelling of its data type**: `Month` and `(Month)` denote
different types, of which the second is ill-kinded and does not unify with the type of `Jan`. -/
theorem lone_head_is_no_month :
    (analyseType withMonths.env "user" (.atom (.symbol "Month") .nowhere)).run withMonths.supply =
      .ok (.data "user/Month", withMonths.supply) ∧
    (analyseType withMonths.env "user" loneMonth).run withMonths.supply =
      .ok (.applied (.data "user/Month") [], withMonths.supply) ∧
    ¬ (Ty.applied (.data "user/Month") []).WellKinded withMonths.env ∧
    (withMonths.env.dataType? ⟨"user", "Month"⟩).map (fun d => d.constructors.map d.constructorTy) =
      some [.data "user/Month"] ∧
    ∃ err, unify [(.applied (.data "user/Month") [], .data "user/Month")] = .error err := by
  exact ⟨by cbv, by cbv, fun hk => hk.of_applied.1 rfl, by cbv, _, by cbv⟩

end Session

end TypedLisp
