import TypedLisp.Proofs.Expression
import TypedLisp.Proofs.Lookup
import TypedLisp.Typing.Infer

/-!
# The algebra of substitutions

A finite substitution acts on a type through what it puts in place of each variable. `Ty.bind`
replaces variables by any function from variables to types, so that several substitutions can be
pieced together; `apply_eq_bind` says that `Ty.apply` is the case of a finite one. To apply a
composed substitution is to apply the one after the other, in types, in demands and in typed
expressions; composition is associative, and the empty substitution is its identity
(`Subst.compose_sequential`).
-/

namespace TypedLisp

namespace Ty

variable {v : TyVar} {t : Ty} {f g : TyVar → Ty}

@[simp] theorem mem_varsAll {ts : List Ty} : v ∈ varsAll ts ↔ ∃ t ∈ ts, v ∈ t.vars := by
  simp [varsAll_eq_flatMap]

/-! ## Replacing variables by a function -/

mutual

/-- The type with every variable replaced by what `f` gives for it. -/
def bind (f : TyVar → Ty) : Ty → Ty
  | .bool => .bool
  | .str => .str
  | .int => .int
  | .effect => .effect
  | .vector e => .vector (bind f e)
  | .set e => .set (bind f e)
  | .map k v => .map (bind f k) (bind f v)
  | .fn ps r => .fn (bindAll f ps) (bind f r)
  | .var v => f v
  | .data n => .data n
  | .applied b as => .applied (bind f b) (bindAll f as)

/-- The types with every variable replaced. -/
def bindAll (f : TyVar → Ty) : List Ty → List Ty
  | [] => []
  | t :: ts => bind f t :: bindAll f ts

end

@[simp] theorem bindAll_eq_map (f : TyVar → Ty) (ts : List Ty) :
    bindAll f ts = ts.map (bind f) := by
  induction ts with
  | nil => rfl
  | cons t ts ih => simp [bindAll, ih]

attribute [simp] bind

theorem bind_ne_var (ht : ∀ v, t ≠ .var v) (v : TyVar) : t.bind f ≠ .var v := by
  cases t with
  | var v => exact absurd rfl (ht v)
  | _ => simp

theorem parts_bind (ht : ∀ v, t ≠ .var v) : (t.bind f).parts = t.parts.map (bind f) := by
  cases t with
  | var v => exact absurd rfl (ht v)
  | _ => simp [parts]

theorem bind_eq_bind_iff (ht : ∀ v, t ≠ .var v) :
    t.bind f = t.bind g ↔ ∀ p ∈ t.parts, p.bind f = p.bind g := by
  cases t with
  | var v => exact absurd rfl (ht v)
  | _ => simp [parts, List.map_inj_left, or_imp, forall_and]

theorem bind_congr (h : ∀ v ∈ t.vars, f v = g v) : t.bind f = t.bind g := by
  induction t using indParts with
  | var v => exact h v (by simp [vars])
  | node t ht ih =>
    exact (bind_eq_bind_iff ht).2 fun p hp =>
      ih p hp fun v hv => h v ((mem_vars_node ht).2 ⟨p, hp, hv⟩)

@[simp] theorem bind_var (t : Ty) : t.bind .var = t := by
  induction t with
  | bool | str | int | effect | data | var => rfl
  | vector e ih => simp [ih]
  | set e ih => simp [ih]
  | map k v ihk ihv => simp [ihk, ihv]
  | fn ps r ihps ihr =>
    simp only [bind, bindAll_eq_map, ihr, Ty.fn.injEq, and_true]
    simpa using List.map_congr_left (g := id) ihps
  | applied b as ihb ihas =>
    simp only [bind, bindAll_eq_map, ihb, Ty.applied.injEq, true_and]
    simpa using List.map_congr_left (g := id) ihas

theorem bind_bind (f g : TyVar → Ty) (t : Ty) :
    (t.bind f).bind g = t.bind fun v => (f v).bind g := by
  induction t with
  | bool | str | int | effect | data | var => rfl
  | vector e ih => simp [ih]
  | set e ih => simp [ih]
  | map k v ihk ihv => simp [ihk, ihv]
  | fn ps r ihps ihr =>
    simp only [bind, bindAll_eq_map, ihr, List.map_map, Ty.fn.injEq, and_true]
    exact List.map_congr_left ihps
  | applied b as ihb ihas =>
    simp only [bind, bindAll_eq_map, ihb, List.map_map, Ty.applied.injEq, true_and]
    exact List.map_congr_left ihas

/-- The variables of the result are those of what took the place of the variables. -/
theorem mem_vars_bind {w : TyVar} : w ∈ (t.bind f).vars ↔ ∃ v ∈ t.vars, w ∈ (f v).vars := by
  induction t using indParts with
  | var v => simp [vars]
  | node t ht ih =>
    rw [mem_vars_node (bind_ne_var ht), parts_bind ht]
    simp only [mem_vars_node ht, List.mem_map, exists_exists_and_eq_and]
    constructor
    · rintro ⟨p, hp, hw⟩
      obtain ⟨v, hv, hw⟩ := (ih p hp).1 hw
      exact ⟨v, ⟨p, hp, hv⟩, hw⟩
    · rintro ⟨v, ⟨p, hp, hv⟩, hw⟩
      exact ⟨p, hp, (ih p hp).2 ⟨v, hv, hw⟩⟩

theorem eq_of_bind_eq (h : t.bind f = t.bind g) : ∀ v ∈ t.vars, f v = g v := by
  induction t using indParts with
  | var v => simpa [vars] using h
  | node t ht ih =>
    intro v hv
    obtain ⟨p, hp, hv⟩ := (mem_vars_node ht).1 hv
    exact ih p hp ((bind_eq_bind_iff ht).1 h p hp) v hv

/-- A type that a replacement leaves as it is has each of its variables left alone. -/
theorem bind_eq_self_iff : t.bind f = t ↔ ∀ v ∈ t.vars, f v = .var v := by
  constructor
  · intro h
    exact eq_of_bind_eq (h.trans (bind_var t).symm)
  · intro h
    rw [bind_congr h, bind_var]

/-- What takes the place of a variable in a type that is more than the variable is smaller. -/
theorem size_lt_size_bind (ht : ∀ v, t ≠ .var v) (h : v ∈ t.vars) :
    (f v).size < (t.bind f).size := by
  induction t using indParts with
  | var w => exact absurd rfl (ht w)
  | node t _ ih =>
    obtain ⟨p, hp, hv⟩ := (mem_vars_node ht).1 h
    have hlt : (p.bind f).size < (t.bind f).size :=
      size_lt_of_mem_parts (parts_bind ht ▸ List.mem_map_of_mem hp)
    by_cases hvar : ∃ w, p = .var w
    · obtain ⟨w, rfl⟩ := hvar
      obtain rfl : v = w := by simpa [vars] using hv
      exact hlt
    · exact Nat.lt_trans (ih p hp (fun w hw => hvar ⟨w, hw⟩) hv) hlt

theorem bind_ne_of_mem_vars (hv : v ∈ t.vars) (ht : t ≠ .var v) : f v ≠ t.bind f := by
  intro h
  refine absurd (congrArg size h) (Nat.ne_of_lt (size_lt_size_bind (fun w hw => ?_) hv))
  subst hw
  obtain rfl : v = w := by simpa [vars] using hv
  exact ht rfl

end Ty

/-! ## Finite substitutions -/

namespace Subst

/-- What a finite substitution puts in place of a variable. -/
def toFun (s : Subst) (v : TyVar) : Ty := (s.lookup v).getD (.var v)

@[simp] theorem toFun_nil : toFun [] = Ty.var := rfl

theorem toFun_single_self (v : TyVar) (t : Ty) : toFun [(v, t)] v = t := by simp [toFun]

theorem toFun_single_of_ne {v w : TyVar} (t : Ty) (h : w ≠ v) : toFun [(v, t)] w = .var w := by
  have : (w == v) = false := by simpa using h
  simp [toFun, List.lookup_cons, this]

end Subst

namespace Ty

/-- Applying a finite substitution is replacing variables by what it gives for them. -/
theorem apply_eq_bind (s : Subst) (t : Ty) : t.apply s = t.bind s.toFun := by
  induction t with
  | bool | str | int | effect | data | var => rfl
  | vector e ih => simp [apply, ih]
  | set e ih => simp [apply, ih]
  | map k v ihk ihv => simp [apply, ihk, ihv]
  | fn ps r ihps ihr =>
    simp only [apply, bind, bindAll_eq_map, applyAll_eq_map, ihr, Ty.fn.injEq, and_true]
    exact List.map_congr_left ihps
  | applied b as ihb ihas =>
    simp only [apply, bind, bindAll_eq_map, applyAll_eq_map, ihb, Ty.applied.injEq, true_and]
    exact List.map_congr_left ihas

@[simp] theorem apply_nil (t : Ty) : t.apply [] = t := by simp [apply_eq_bind]

end Ty

namespace Subst

theorem compose_eq (s u : Subst) : s.compose u =
    (s.map fun e => (e.1, e.2.apply u)) ++ u.filter fun e => (s.lookup e.1).isNone := rfl

theorem toFun_compose (s u : Subst) (v : TyVar) :
    (s.compose u).toFun v = (s.toFun v).apply u := by
  have hs : (s.map fun e => (e.1, e.2.apply u)).lookup v = (s.lookup v).map (·.apply u) :=
    lookup_map_snd (Ty.apply u) s v
  rw [toFun, compose_eq, List.lookup_append, hs, toFun]
  cases hv : s.lookup v with
  | some t => simp
  | none =>
    have hu : (u.filter fun e => (s.lookup e.1).isNone).lookup v = u.lookup v :=
      lookup_filter_of_pos (p := fun w => (s.lookup w).isNone) (by simp [hv]) u
    simp [hu, Ty.apply]

/-- The bindings of variables to what a function gives for them. -/
def ofFun (f : TyVar → Ty) (vs : List TyVar) : Subst := vs.map fun v => (v, f v)

theorem toFun_ofFun_of_mem {f : TyVar → Ty} {vs : List TyVar} {v : TyVar} (h : v ∈ vs) :
    (ofFun f vs).toFun v = f v := by
  induction vs with
  | nil => simp at h
  | cons w vs ih =>
    by_cases hv : v = w
    · subst hv
      simp [ofFun, toFun]
    · have := ih (by simpa [hv] using h)
      simpa [ofFun, toFun, lookup_cons_of_ne hv] using this

end Subst

namespace Ty

theorem apply_compose (s u : Subst) (t : Ty) : t.apply (s.compose u) = (t.apply s).apply u := by
  simp only [apply_eq_bind, bind_bind]
  refine bind_congr fun v _ => ?_
  rw [Subst.toFun_compose, apply_eq_bind]

theorem apply_ofFun {f : TyVar → Ty} {t : Ty} {vs : List TyVar} (h : t.vars ⊆ vs) :
    t.apply (Subst.ofFun f vs) = t.bind f := by
  rw [apply_eq_bind]
  exact bind_congr fun v hv => Subst.toFun_ofFun_of_mem (h hv)

/-! ## Instances -/

/-- Whether a substitution makes the second type into the first. -/
def InstanceOf (t u : Ty) : Prop := ∃ s : Subst, u.apply s = t

theorem InstanceOf.refl (t : Ty) : t.InstanceOf t := ⟨[], apply_nil t⟩

theorem InstanceOf.trans {t u w : Ty} (h₁ : t.InstanceOf u) (h₂ : u.InstanceOf w) :
    t.InstanceOf w := by
  obtain ⟨s₁, rfl⟩ := h₁
  obtain ⟨s₂, rfl⟩ := h₂
  exact ⟨s₂.compose s₁, apply_compose s₂ s₁ w⟩

theorem instanceOf_bind (t : Ty) (f : TyVar → Ty) : (t.bind f).InstanceOf t :=
  ⟨Subst.ofFun f t.vars, apply_ofFun fun _ h => h⟩

end Ty

/-! ## New variables -/

namespace Subst

variable {vs : List TyVar}

theorem fresh_cons (v : TyVar) (vs : List TyVar) (next : TyVar) :
    fresh (v :: vs) next = (v, .var next) :: fresh vs (next + 1) := rfl

theorem exists_toFun_fresh {v : TyVar} (h : v ∈ vs) (next : TyVar) :
    ∃ i < vs.length, vs[i]? = some v ∧ (fresh vs next).toFun v = .var (next + i) := by
  induction vs generalizing next with
  | nil => simp at h
  | cons w vs ih =>
    by_cases hv : v = w
    · subst hv
      exact ⟨0, by simp, rfl, by simp [fresh_cons, toFun]⟩
    · obtain ⟨i, hi, hiv, hif⟩ := ih (by simpa [hv] using h) (next + 1)
      refine ⟨i + 1, by simpa using hi, by simpa using hiv, ?_⟩
      rw [toFun, fresh_cons, lookup_cons_of_ne hv]
      rw [toFun] at hif
      rw [hif, Nat.add_assoc, Nat.add_comm 1 i]

theorem mem_vars_toFun_fresh {v w : TyVar} {next : TyVar} (h : v ∈ vs)
    (hw : w ∈ ((fresh vs next).toFun v).vars) : next ≤ w ∧ w < next + vs.length := by
  obtain ⟨i, hi, -, hf⟩ := exists_toFun_fresh h next
  rw [hf] at hw
  obtain rfl : w = next + i := by simpa [Ty.vars] using hw
  exact ⟨Nat.le_add_right _ _, Nat.add_lt_add_left hi _⟩

/-- New variables can stand for anything: whatever is to be put in place of the old ones can be put
in place of the new ones. -/
theorem exists_bind_toFun_fresh (vs : List TyVar) (next : TyVar) (f : TyVar → Ty) :
    ∃ g : TyVar → Ty, ∀ v ∈ vs, ((fresh vs next).toFun v).bind g = f v := by
  refine ⟨fun w => ((vs[w - next]?).map f).getD (.var w), fun v hv => ?_⟩
  obtain ⟨i, -, hi, hf⟩ := exists_toFun_fresh hv next
  simp [hf, hi]

end Subst

/-! ## Substitutions in sequence -/

namespace Subst

variable (a b c : Subst)

theorem isNone_lookup_compose (v : TyVar) :
    ((a.compose b).lookup v).isNone = ((a.lookup v).isNone && (b.lookup v).isNone) := by
  rw [compose_eq, List.lookup_append,
    show (a.map fun e => (e.1, e.2.apply b)).lookup v = _ from lookup_map_snd (Ty.apply b) a v]
  cases hv : a.lookup v with
  | some t => simp
  | none =>
    have hb : (b.filter fun e => (a.lookup e.1).isNone).lookup v = b.lookup v :=
      lookup_filter_of_pos (p := fun w => (a.lookup w).isNone) (by simp [hv]) b
    simp [hb]

theorem compose_assoc : (a.compose b).compose c = a.compose (b.compose c) := by
  -- what `c` binds alone is bound by neither of the others
  have hlast : c.filter (fun e => ((a.compose b).lookup e.1).isNone) =
      (c.filter fun e => (b.lookup e.1).isNone).filter fun e => (a.lookup e.1).isNone := by
    rw [List.filter_filter]
    exact List.filter_congr fun e _ => isNone_lookup_compose a b e.1
  have hmiddle : (b.filter fun e => (a.lookup e.1).isNone).map (fun e => (e.1, e.2.apply c)) =
      (b.map fun e => (e.1, e.2.apply c)).filter fun e => (a.lookup e.1).isNone := by
    rw [List.filter_map]
    rfl
  rw [compose_eq _ c, compose_eq a b, compose_eq a, compose_eq b c, List.map_append, List.map_map,
    List.filter_append, hmiddle, List.append_assoc]
  refine congrArg₂ _ (List.map_congr_left fun e _ => ?_) (congrArg _ hlast)
  exact Prod.ext rfl (Ty.apply_compose b c e.2).symm

theorem nil_compose : compose [] a = a := by
  rw [compose_eq, List.map_nil, List.nil_append]
  exact List.filter_eq_self.2 fun _ _ => rfl

theorem compose_nil : a.compose [] = a := by
  rw [compose_eq, List.filter_nil, List.append_nil]
  simp

end Subst

/-- The variables of what a substitution makes of a type are those of what it puts in place of the
variables of the type. -/
theorem Ty.mem_freeVars_apply (a : Subst) (t : Ty) (x : TyVar) :
    x ∈ (t.apply a).freeVars ↔ ∃ v ∈ t.freeVars, x ∈ ((Ty.var v).apply a).freeVars := by
  simp only [freeVars, mem_sortVars, apply_eq_bind, mem_vars_bind, bind]

theorem Demands.apply_compose (a b : Subst) (d : Demands) :
    d.apply (a.compose b) = (d.apply a).apply b := by
  simp only [Demands.apply, List.map_map]
  exact List.map_congr_left fun e _ => Prod.ext rfl (Ty.apply_compose a b e.2)

theorem Expr.apply_compose (a b : Subst) (e : Expr Ty) :
    e.apply (a.compose b) = (e.apply a).apply b := by
  rw [Expr.apply, Expr.apply, Expr.apply, Expr.map_map]
  exact congrArg e.map (funext (Ty.apply_compose a b))

/-- **Composition of substitutions is application in sequence**, in types, demands and typed
expressions, also where both bind a variable. It is associative with the empty substitution as its
identity. The variables of a type after a substitution are those of the images of its variables. -/
theorem Subst.compose_sequential (a b c : Subst) :
    (∀ t : Ty, t.apply (a.compose b) = (t.apply a).apply b) ∧
    (∀ m : Demands, m.apply (a.compose b) = (m.apply a).apply b) ∧
    (∀ e : Expr Ty, e.apply (a.compose b) = (e.apply a).apply b) ∧
    (a.compose b).compose c = a.compose (b.compose c) ∧
    compose [] a = a ∧ a.compose [] = a ∧
    ∀ (t : Ty) (x : TyVar), x ∈ (t.apply a).freeVars ↔
      ∃ v ∈ t.freeVars, x ∈ ((Ty.var v).apply a).freeVars :=
  ⟨Ty.apply_compose a b, Demands.apply_compose a b, Expr.apply_compose a b, compose_assoc a b c,
    nil_compose a, compose_nil a, Ty.mem_freeVars_apply a⟩

end TypedLisp
