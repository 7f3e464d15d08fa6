import TypedLisp.Proofs.Scoping
import TypedLisp.Proofs.Substitution

/-!
# What declarations are made of

The variables of a type that a form denotes are new: analysis takes them from the supply, and the
supply after it lies above them all. The constructors of a data type have different names, and its
parameters are different variables.
-/

namespace TypedLisp

variable {c : TypeContext} {name ns : String} {r : Range} {n n' : TyNames} {t : Ty} {f : Form}
  {s s' : Supply} {args fs : List Form} {d : Declaration} {vs : List TyVar}

/-- Whether the variables that have a name are used up. -/
def TyNames.Bounded (n : TyNames) : Prop := ∀ e ∈ n.named, e.2 < n.next

/-- What analysis of type forms does to the names of variables: it makes types of the variables
`vs`, which it takes from the supply or finds named. -/
structure TyNames.Takes (n n' : TyNames) (vs : List TyVar) : Prop where
  le : n.next ≤ n'.next
  bounded : n.Bounded → n'.Bounded
  below : n.Bounded → ∀ v ∈ vs, v < n'.next

namespace TyNames.Takes

variable {n n₁ n' : TyNames} {vs vs' : List TyVar}

theorem none (n : TyNames) : n.Takes n [] := ⟨Nat.le_refl _, id, nofun⟩

theorem append (h : n.Takes n₁ vs) (h' : n₁.Takes n' vs') : n.Takes n' (vs ++ vs') where
  le := Nat.le_trans h.le h'.le
  bounded hn := h'.bounded (h.bounded hn)
  below hn := List.forall_mem_append.2
    ⟨fun v hv => Nat.lt_of_lt_of_le (h.below hn v hv) h'.le, h'.below (h.bounded hn)⟩

theorem of_subset (h : n.Takes n' vs) (hvs : vs' ⊆ vs) : n.Takes n' vs' :=
  ⟨h.le, h.bounded, fun hn v hv => h.below hn v (hvs hv)⟩

end TyNames.Takes

theorem TyNames.takes_next (n : TyNames) (name : String) :
    n.Takes ⟨(name, n.next) :: n.named, n.next + 1⟩ [n.next] where
  le := Nat.le_succ _
  bounded hn := List.forall_mem_cons.2
    ⟨Nat.lt_succ_self _, fun e he => Nat.lt_succ_of_lt (hn e he)⟩
  below _ := by simp

theorem tyVarOf_takes (h : (tyVarOf c name r).run n = .ok (t, n')) : n.Takes n' t.vars := by
  simp only [tyVarOf, run_bind_eq_ok, run_get_eq_ok] at h
  obtain ⟨_, _, ⟨rfl, rfl⟩, h⟩ := h
  split at h
  · rename_i v hv
    obtain ⟨rfl, rfl⟩ := run_pure_eq_ok.1 h
    refine ⟨Nat.le_refl _, id, fun hn w hw => ?_⟩
    obtain rfl := List.mem_singleton.1 hw
    exact hn _ (mem_of_lookup hv)
  · split at h
    · simp only [run_bind_eq_ok, run_set_eq_ok, run_pure_eq_ok] at h
      obtain ⟨_, _, rfl, rfl, rfl⟩ := h
      exact TyNames.takes_next _ name
    · exact absurd h run_throw_ne_ok

theorem TypeContext.vars_of_dataType? {a : Atom} {k : Nat} (h : c.dataType? a = some (t, k)) :
    t.vars = [] := by
  unfold dataType? at h
  split at h
  · split at h
    · split at h
      · cases h; rfl
      · obtain ⟨d, -, hd⟩ := Option.map_eq_some_iff.1 h
        cases hd; rfl
    · obtain ⟨d, -, hd⟩ := Option.map_eq_some_iff.1 h
      cases hd; rfl
  · obtain ⟨d, -, hd⟩ := Option.map_eq_some_iff.1 h
    cases hd; rfl
  · cases h

theorem bareDataType_takes {a : Atom} (h : (bareDataType c a r).run n = .ok (t, n')) :
    n.Takes n' t.vars := by
  unfold bareDataType at h
  split at h
  · exact absurd h run_throw_ne_ok
  · rename_i hd
    obtain ⟨rfl, rfl⟩ := run_pure_eq_ok.1 h
    rw [TypeContext.vars_of_dataType? hd]
    exact .none _
  · exact absurd h run_throw_ne_ok

theorem headDataType_takes {head : Form} {k : Nat}
    (h : (headDataType c head).run n = .ok ((t, k), n')) : n' = n ∧ t.vars = [] := by
  unfold headDataType at h
  split at h
  · split at h
    · exact absurd h run_throw_ne_ok
    · split at h
      · rename_i hd
        obtain ⟨rfl, rfl⟩ := run_pure_eq_ok.1 h
        exact ⟨rfl, TypeContext.vars_of_dataType? hd⟩
      · exact absurd h run_throw_ne_ok
  · split at h
    · rename_i hd
      obtain ⟨rfl, rfl⟩ := run_pure_eq_ok.1 h
      exact ⟨rfl, TypeContext.vars_of_dataType? hd⟩
    · exact absurd h run_throw_ne_ok
  · exact absurd h run_throw_ne_ok

mutual

theorem typeForm_takes {c : TypeContext} {n n' : TyNames} {t : Ty} (f : Form)
    (h : (typeForm c f).run n = .ok (t, n')) : n.Takes n' t.vars := by
  unfold typeForm at h
  split at h
  · split at h
    · obtain ⟨rfl, rfl⟩ := run_pure_eq_ok.1 h
      exact .none _
    split at h
    · obtain ⟨rfl, rfl⟩ := run_pure_eq_ok.1 h
      exact .none _
    split at h
    · obtain ⟨rfl, rfl⟩ := run_pure_eq_ok.1 h
      exact .none _
    split at h
    · exact tyVarOf_takes h
    · exact bareDataType_takes h
  · exact bareDataType_takes h
  · exact absurd h run_throw_ne_ok
  · simp only [run_bind_eq_ok, run_pure_eq_ok] at h
    obtain ⟨u, _, hu, rfl, rfl⟩ := h
    rw [Ty.vars]
    exact typeForm_takes _ hu
  · exact absurd h run_throw_ne_ok
  · simp only [run_bind_eq_ok, run_pure_eq_ok] at h
    obtain ⟨u, _, hu, rfl, rfl⟩ := h
    rw [Ty.vars]
    exact typeForm_takes _ hu
  · exact absurd h run_throw_ne_ok
  · simp only [run_bind_eq_ok, run_pure_eq_ok] at h
    obtain ⟨k, _, hk, v, _, hv, rfl, rfl⟩ := h
    exact (typeForm_takes _ hk).append (typeForm_takes _ hv)
  · exact absurd h run_throw_ne_ok
  · exact absurd h run_throw_ne_ok
  · split at h
    · simp only [run_bind_eq_ok] at h
      obtain ⟨ts, _, hts, h⟩ := h
      have hall := typeForms_takes _ hts
      split at h
      · exact absurd h run_throw_ne_ok
      · rename_i u us hus
        obtain ⟨rfl, rfl⟩ := run_pure_eq_ok.1 h
        obtain rfl : ts = us.reverse ++ [u] := by simpa using congrArg List.reverse hus
        refine hall.of_subset fun v hv => ?_
        simpa [Ty.vars] using hv
    · simp only [run_bind_eq_ok] at h
      obtain ⟨⟨base, arity⟩, _, hbase, h⟩ := h
      obtain ⟨rfl, hvars⟩ := headDataType_takes hbase
      split at h
      · simp only [run_bind_eq_ok, run_pure_eq_ok] at h
        obtain ⟨ts, _, hts, rfl, rfl⟩ := h
        rw [Ty.vars, hvars]
        exact typeForms_takes _ hts
      · exact absurd h run_throw_ne_ok
termination_by sizeOf f

theorem typeForms_takes {c : TypeContext} {n n' : TyNames} {ts : List Ty} (fs : List Form)
    (h : (typeForms c fs).run n = .ok (ts, n')) : n.Takes n' (Ty.varsAll ts) := by
  match fs with
  | [] =>
    rw [typeForms, run_pure_eq_ok] at h
    obtain ⟨rfl, rfl⟩ := h
    exact .none _
  | f :: fs =>
    simp only [typeForms, run_bind_eq_ok, run_pure_eq_ok] at h
    obtain ⟨t, _, ht, ts', _, hts, rfl, rfl⟩ := h
    exact (typeForm_takes f ht).append (typeForms_takes fs hts)
termination_by sizeOf fs

end

/-! ## Declarations -/

theorem TyNames.bounded_start (k : TyVar) : TyNames.Bounded { next := k } := nofun

theorem analyseType_below {env : Env} (h : (analyseType env ns f).run s = .ok (t, s')) :
    s.tyVar ≤ s'.tyVar ∧ ∀ v ∈ t.vars, v < s'.tyVar := by
  simp only [analyseType, run_bind_eq_ok, run_get_eq_ok, run_set_eq_ok, run_pure_eq_ok,
    run_liftM_eq_ok] at h
  obtain ⟨_, _, ⟨rfl, rfl⟩, ⟨u, n⟩, _, ⟨hu, rfl⟩, _, _, rfl, rfl, rfl⟩ := h
  have htakes := typeForm_takes f hu
  exact ⟨htakes.le, htakes.below (TyNames.bounded_start _)⟩

theorem ascribeForm_below {c : Scope} (h : (ascribeForm c r args).run s = .ok (d, s')) :
    ∃ name t, d = .ascribe name t ∧ s.tyVar ≤ s'.tyVar ∧ ∀ v ∈ t.vars, v < s'.tyVar := by
  unfold ascribeForm at h
  split at h
  · simp only [run_bind_eq_ok, run_pure_eq_ok, run_liftM_eq_ok] at h
    obtain ⟨_, _, ⟨-, rfl⟩, t, _, ht, rfl, rfl⟩ := h
    exact ⟨_, t, rfl, analyseType_below ht⟩
  · exact absurd h run_throw_ne_ok

theorem hostForm_below {c : Scope} (h : (hostForm c r args).run s = .ok (d, s')) :
    ∃ name ref t, d = .host name ref t ∧ s.tyVar ≤ s'.tyVar ∧ ∀ v ∈ t.vars, v < s'.tyVar := by
  unfold hostForm at h
  split at h
  · simp only [run_bind_eq_ok, run_liftM_eq_ok] at h
    obtain ⟨_, _, ⟨-, rfl⟩, _, _, ⟨-, rfl⟩, h⟩ := h
    split at h
    · split at h
      · simp only [run_bind_eq_ok, run_liftM_eq_ok] at h
        obtain ⟨_, _, ⟨-, rfl⟩, h⟩ := h
        split at h
        · simp only [run_bind_eq_ok] at h
          obtain ⟨t, _, ht, h⟩ := h
          split at h
          · split at h
            · obtain ⟨rfl, rfl⟩ := run_pure_eq_ok.1 h
              exact ⟨_, _, _, rfl, analyseType_below ht⟩
            · exact absurd h run_throw_ne_ok
          · exact absurd h run_throw_ne_ok
        · exact absurd h run_throw_ne_ok
      · exact absurd h run_throw_ne_ok
    · exact absurd h run_throw_ne_ok
  · exact absurd h run_throw_ne_ok

theorem tyParams_takes (h : tyParams n fs = .ok (vs, n')) :
    n.Takes n' vs ∧ vs = List.range' n.next fs.length := by
  induction fs generalizing n vs with
  | nil =>
    rw [tyParams] at h
    cases h
    exact ⟨.none _, rfl⟩
  | cons f fs ih =>
    simp only [tyParams, bind_eq_ok] at h
    obtain ⟨name, -, h⟩ := h
    split at h
    · exact absurd h nofun
    · split at h
      · exact absurd h nofun
      · simp only [bind_eq_ok] at h
        obtain ⟨⟨ws, _⟩, hws, h⟩ := h
        cases h
        obtain ⟨htakes, rfl⟩ := ih hws
        exact ⟨(TyNames.takes_next n name).append htakes, rfl⟩

theorem dataHeader_takes (h : dataHeader n f = .ok (name, vs, n')) :
    n.Takes n' vs ∧ vs.Nodup := by
  unfold dataHeader at h
  split at h
  · cases h
    exact ⟨.none _, List.nodup_nil⟩
  · exact absurd h nofun
  · simp only [bind_eq_ok] at h
    obtain ⟨_, -, ⟨ws, _⟩, hws, h⟩ := h
    cases h
    obtain ⟨htakes, rfl⟩ := tyParams_takes hws
    exact ⟨htakes, List.nodup_range'⟩
  · exact absurd h nofun

/-- The variables of the fields of a constructor. -/
def Constructor.vars (c : Constructor) : List TyVar := Ty.varsAll (c.fields.getD [])

/-- The parameters of a data type, and the variables of its fields. -/
def DataType.vars (d : DataType) : List TyVar := d.params ++ d.constructors.flatMap Constructor.vars

theorem constructorForm_takes {k : Constructor} (h : (constructorForm c f).run n = .ok (k, n')) :
    n.Takes n' k.vars := by
  unfold constructorForm at h
  split at h
  · obtain ⟨rfl, rfl⟩ := run_pure_eq_ok.1 h
    exact .none _
  · exact absurd h run_throw_ne_ok
  · simp only [run_bind_eq_ok, run_pure_eq_ok, run_liftM_eq_ok] at h
    obtain ⟨ts, _, hts, _, _, ⟨-, rfl⟩, rfl, rfl⟩ := h
    exact typeForms_takes _ hts
  · exact absurd h run_throw_ne_ok

theorem constructorForms_takes {seen ks : List Constructor} {n₀ : TyNames}
    (h : (constructorForms c seen fs).run n = .ok (ks, n'))
    (htakes : n₀.Takes n (seen.flatMap Constructor.vars)) (hseen : (seen.map (·.name)).Nodup) :
    n₀.Takes n' (ks.flatMap Constructor.vars) ∧ (ks.map (·.name)).Nodup := by
  induction fs generalizing seen n with
  | nil =>
    rw [constructorForms, run_pure_eq_ok] at h
    obtain ⟨rfl, rfl⟩ := h
    exact ⟨htakes, hseen⟩
  | cons f fs ih =>
    simp only [constructorForms, run_bind_eq_ok] at h
    obtain ⟨k, _, hk, h⟩ := h
    split at h
    · exact absurd h run_throw_ne_ok
    · rename_i hnew
      have hseen' : ((seen ++ [k]).map (·.name)).Nodup := by
        rw [List.map_append, List.nodup_append]
        refine ⟨hseen, by simp, fun a ha b hb hab => hnew ?_⟩
        obtain ⟨k', hk', rfl⟩ := List.mem_map.1 ha
        simp only [List.map_cons, List.map_nil, List.mem_singleton] at hb
        exact List.any_eq_true.2 ⟨k', hk', by simpa using hab.trans hb⟩
      refine ih h ?_ hseen'
      simpa using htakes.append (constructorForm_takes hk)

theorem dataForm_below {c : Scope} (h : (dataForm c r args).run s = .ok (d, s')) :
    ∃ dt, d = .data dt ∧ s.tyVar ≤ s'.tyVar ∧ (dt.constructors.map (·.name)).Nodup ∧
      dt.params.Nodup ∧ ∀ v ∈ dt.vars, v < s'.tyVar := by
  unfold dataForm at h
  split at h
  · exact absurd h run_throw_ne_ok
  · simp only [run_bind_eq_ok, run_get_eq_ok, run_liftM_eq_ok] at h
    obtain ⟨_, _, ⟨rfl, rfl⟩, ⟨name, vs, n⟩, _, ⟨hheader, rfl⟩, h⟩ := h
    split at h
    · exact absurd h run_throw_ne_ok
    · split at h
      · exact absurd h run_throw_ne_ok
      · simp only [run_bind_eq_ok, run_liftM_eq_ok, run_set_eq_ok, run_pure_eq_ok] at h
        obtain ⟨⟨ks, n'⟩, _, ⟨hks, rfl⟩, _, _, rfl, rfl, rfl⟩ := h
        obtain ⟨htakes, hnodup⟩ := constructorForms_takes hks (.none n) (by simp)
        obtain ⟨hparams, hdiffer⟩ := dataHeader_takes hheader
        have hall := hparams.append htakes
        exact ⟨_, rfl, hall.le, hnodup, hdiffer, hall.below (TyNames.bounded_start _)⟩

/-- What is known of a declaration that comes from a form, with `k` the next type variable after
it. -/
inductive Declaration.Formed (k : TyVar) : Declaration → Prop where
  | ns (d : NsDecl) : Formed k (.ns d)
  | ascribe (name : GlobalName) {t : Ty} (h : ∀ v ∈ t.vars, v < k) : Formed k (.ascribe name t)
  | data {d : DataType} (h : (d.constructors.map (·.name)).Nodup) (hvars : ∀ v ∈ d.vars, v < k) :
      Formed k (.data d)
  | host (name : GlobalName) (ref : HostRef) {t : Ty} (h : ∀ v ∈ t.vars, v < k) :
      Formed k (.host name ref t)

theorem Declares.formed {env : Env} (h : Declares env ns s s' d) :
    s.tyVar ≤ s'.tyVar ∧ d.Formed s'.tyVar := by
  cases h with
  | ascribe h =>
    obtain ⟨name, t, rfl, hle, ht⟩ := ascribeForm_below h
    exact ⟨hle, .ascribe name ht⟩
  | data h =>
    obtain ⟨dt, rfl, hle, hnodup, -, hvars⟩ := dataForm_below h
    exact ⟨hle, .data hnodup hvars⟩
  | host h =>
    obtain ⟨name, ref, t, rfl, hle, ht⟩ := hostForm_below h
    exact ⟨hle, .host name ref ht⟩
  | ns h hs =>
    subst hs
    exact ⟨Nat.le_refl _, .ns _⟩

end TypedLisp
