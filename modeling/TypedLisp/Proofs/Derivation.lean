import TypedLisp.Proofs.Substitution

/-!
# Derivations

The declarative side of typing. An expression whose nodes carry types *is* a derivation if the types
at neighbouring nodes fit together (`Expr.IsDerivation`). A var is used at any instance of its
visible type, a parameter at exactly its type, and a local bound by `let` at instances of the type
of its binding in which the variables of the enclosing parameters are left alone.
-/

namespace TypedLisp

/-- What a derivation knows of a local. -/
inductive LocalType where
  /-- A parameter and its type. -/
  | param (t : Ty)
  /-- A local bound by `let`: the type of its binding, and the variables that its uses share. -/
  | bound (t : Ty) (fixed : List TyVar)

/-- Whether a local may be used at a type. -/
def LocalType.Admits : LocalType → Ty → Prop
  | .param t, u => u = t
  | .bound t fixed, u => ∃ s : Subst, t.apply s = u ∧ ∀ v ∈ fixed, (Ty.var v).apply s = .var v

/-- Whether a var may be used at a type. -/
def Var.Admits (v : Var) (t : Ty) : Prop := ∀ u, v.visible = some u → t.InstanceOf u

/-- What is known of the locals in scope. -/
abbrev Context := List (Local × LocalType)

namespace Context

/-- The type variables of the parameters in scope. -/
def fixed (c : Context) : List TyVar :=
  c.flatMap fun
    | (_, .param t) => t.vars
    | (_, .bound _ _) => []

/-- The context inside a function. -/
def params (c : Context) (xs : List Local) (ts : List Ty) : Context :=
  xs.zip (ts.map .param) ++ c

/-- The context inside a binding of `let`. -/
def bind (c : Context) (x : Local) (t : Ty) : Context := (x, .bound t c.fixed) :: c

/-- The context after the bindings of `let`. -/
def bindAll (c : Context) : List (Local × Expr Ty) → Context
  | [] => c
  | (x, e) :: bs => (c.bind x e.ann).bindAll bs

theorem mem_fixed {c : Context} {v : TyVar} :
    v ∈ c.fixed ↔ ∃ x t, (x, LocalType.param t) ∈ c ∧ v ∈ t.vars := by
  simp only [fixed, List.mem_flatMap]
  constructor
  · rintro ⟨⟨x, t | ⟨t, vs⟩⟩, hx, hv⟩
    · exact ⟨x, t, hx, hv⟩
    · simp at hv
  · rintro ⟨x, t, hx, hv⟩
    exact ⟨_, hx, hv⟩

theorem vars_subset_fixed {c : Context} {x : Local} {t : Ty} (h : c.lookup x = some (.param t)) :
    t.vars ⊆ c.fixed := fun _ hv => mem_fixed.2 ⟨x, t, mem_of_lookup h, hv⟩

/-! ### Parameters -/

section Params

variable {c : Context} {xs : List Local} {ts : List Ty}
variable {x : Local}

theorem keys_params (h : ts.length = xs.length) :
    (c.params xs ts).map Prod.fst = xs ++ c.map Prod.fst := by
  rw [params, List.map_append, List.map_fst_zip (by simp [h])]

theorem lookup_params_of_mem {t : Ty} (h : (xs.zip ts).lookup x = some t) :
    (c.params xs ts).lookup x = some (.param t) := by
  have hzip : xs.zip (ts.map LocalType.param) = (xs.zip ts).map fun e => (e.1, .param e.2) := by
    rw [List.zip_map_right]
    rfl
  rw [params, hzip, List.lookup_append, lookup_map_snd, h]
  rfl

theorem lookup_params_of_not_mem (h : x ∉ xs) : (c.params xs ts).lookup x = c.lookup x := by
  have hx : x ∉ (xs.zip (ts.map LocalType.param)).map Prod.fst := fun hx => by
    obtain ⟨e, he, rfl⟩ := List.mem_map.1 hx
    exact h (List.of_mem_zip he).1
  rw [params, List.lookup_append, lookup_eq_none_of_not_mem hx, Option.none_or]

theorem exists_lookup_params (h : ts.length = xs.length) (hx : x ∈ xs) :
    ∃ t, (xs.zip ts).lookup x = some t ∧ (c.params xs ts).lookup x = some (.param t) := by
  have hkeys : x ∈ (xs.zip ts).map Prod.fst := by rwa [List.map_fst_zip (Nat.le_of_eq h.symm)]
  obtain ⟨t, ht⟩ := exists_lookup_of_mem_keys hkeys
  exact ⟨t, ht, lookup_params_of_mem ht⟩

theorem lookup_params_of_lookup (h : ∀ x ∈ xs, x ∉ c.map Prod.fst) {t : LocalType}
    (hx : c.lookup x = some t) : (c.params xs ts).lookup x = some t := by
  rw [lookup_params_of_not_mem fun hmem => h x hmem (mem_keys_of_lookup hx), hx]

theorem mem_fixed_params {v : TyVar} (h : v ∈ (c.params xs ts).fixed) :
    (∃ t ∈ ts, v ∈ t.vars) ∨ v ∈ c.fixed := by
  obtain ⟨x, t, hx, hv⟩ := mem_fixed.1 h
  rcases List.mem_append.1 hx with hx | hx
  · obtain ⟨u, hu, hut⟩ := List.mem_map.1 (List.of_mem_zip hx).2
    obtain rfl : u = t := LocalType.param.inj hut
    exact .inl ⟨u, hu, hv⟩
  · exact .inr (mem_fixed.2 ⟨x, t, hx, hv⟩)

end Params

/-! ### Bindings -/

section Bindings

variable {c : Context}
variable {x y : Local} {bs : List (Local × Expr Ty)}

@[simp] theorem keys_bind (x : Local) (t : Ty) :
    (c.bind x t).map Prod.fst = x :: c.map Prod.fst := rfl

@[simp] theorem fixed_bind (x : Local) (t : Ty) : (c.bind x t).fixed = c.fixed := by
  simp [bind, fixed]

theorem lookup_bind_self (x : Local) (t : Ty) :
    (c.bind x t).lookup x = some (.bound t c.fixed) := by
  simp [bind]

theorem lookup_bind_of_ne (h : y ≠ x) (t : Ty) :
    (c.bind x t).lookup y = c.lookup y := lookup_cons_of_ne h _ _

theorem lookup_bind_of_lookup {u : LocalType} (hx : x ∉ c.map Prod.fst) (hy : c.lookup y = some u)
    (t : Ty) : (c.bind x t).lookup y = some u := by
  have hyx : y ≠ x := fun h => hx (h ▸ mem_keys_of_lookup hy)
  rw [lookup_bind_of_ne hyx, hy]

theorem keys_bindAll (bs : List (Local × Expr Ty)) :
    (c.bindAll bs).map Prod.fst = (bs.map Prod.fst).reverse ++ c.map Prod.fst := by
  induction bs generalizing c with
  | nil => rfl
  | cons b bs ih => simp [bindAll, ih]

theorem fixed_bindAll (bs : List (Local × Expr Ty)) : (c.bindAll bs).fixed = c.fixed := by
  induction bs generalizing c with
  | nil => rfl
  | cons b bs ih => rw [bindAll, ih, fixed_bind]

theorem lookup_bindAll_of_not_mem (h : x ∉ bs.map Prod.fst) :
    (c.bindAll bs).lookup x = c.lookup x := by
  induction bs generalizing c with
  | nil => rfl
  | cons b bs ih =>
    obtain ⟨hx, hbs⟩ : x ≠ b.1 ∧ x ∉ bs.map Prod.fst := by simpa using h
    rw [bindAll, ih hbs, lookup_bind_of_ne hx]

end Bindings

end Context

/-- Whether items of some types make a collection of a type. -/
def Collection.Holds : Collection → List Ty → Ty → Prop
  | .vector, items, t => ∃ e, t = .vector e ∧ ∀ i ∈ items, i = e
  | .set, items, t => ∃ e, t = .set e ∧ ∀ i ∈ items, i = e
  | .map, items, t => ∃ k v, t = .map k v ∧ (∀ i ∈ keys items, i = k) ∧ ∀ i ∈ values items, i = v

/-- Whether parts of some types are put together to something of a type. -/
def Former.Holds : Former → List Ty → Ty → Prop
  | .collection kind, ts, t => kind.Holds ts t
  | .call, u :: ts, t => u = .fn ts t
  | .callVar v, ts, t => v.Admits (.fn ts t)
  | .ite, [u, a, b], t => u = .bool ∧ a = t ∧ b = t
  | _, ts, t => Collection.Holds .vector ts t

namespace Expr

mutual

/-- Whether the types that an expression carries make it a derivation. -/
def IsDerivation (c : Context) : Expr Ty → Prop
  | .literal v n => n.ann = v.ty
  | .collection kind items n => IsDerivationAll c items ∧ kind.Holds (items.map ann) n.ann
  | .localVar x n => ∃ t, c.lookup x = some t ∧ t.Admits n.ann
  | .globalVar v n => v.Admits n.ann
  | .call callee args n =>
    IsDerivation c callee ∧ IsDerivationAll c args ∧ callee.ann = .fn (args.map ann) n.ann
  | .callVar v args n => IsDerivationAll c args ∧ v.Admits (.fn (args.map ann) n.ann)
  | .letIn bindings body n =>
    IsDerivationLet c bindings ∧ IsDerivation (c.bindAll bindings) body ∧ n.ann = body.ann
  | .ite test thenBranch elseBranch n =>
    IsDerivation c test ∧ IsDerivation c thenBranch ∧ IsDerivation c elseBranch ∧
      test.ann = .bool ∧ thenBranch.ann = n.ann ∧ elseBranch.ann = n.ann
  | .fn params body n =>
    ∃ ts, ts.length = params.length ∧ n.ann = .fn ts body.ann ∧
      IsDerivation (c.params params ts) body
  | .define _ declared body n =>
    IsDerivation c body ∧ n.ann = .effect ∧ ∀ t, declared = some t → t.InstanceOf body.ann
  | .declare _ n => n.ann = .effect

/-- The same for several expressions. -/
def IsDerivationAll (c : Context) : List (Expr Ty) → Prop
  | [] => True
  | e :: es => IsDerivation c e ∧ IsDerivationAll c es

/-- The same for bindings, each of which is in scope in those after it. -/
def IsDerivationLet (c : Context) : List (Local × Expr Ty) → Prop
  | [] => True
  | (x, e) :: bs => IsDerivation c e ∧ IsDerivationLet (c.bind x e.ann) bs

end

/-- The expression without what its nodes carry. -/
def erase {α : Type} (e : Expr α) : Expr Unit := e.map fun _ => ()

/-- Whether an expression that stands at top level has a type. -/
def HasType (e : Expr Unit) (t : Ty) : Prop :=
  ∃ d : Expr Ty, d.erase = e ∧ d.IsDerivation [] ∧ d.ann = t

theorem isDerivationAll_iff {c : Context} {es : List (Expr Ty)} :
    IsDerivationAll c es ↔ ∀ e ∈ es, IsDerivation c e := by
  induction es with
  | nil => simp [IsDerivationAll]
  | cons e es ih => simp [IsDerivationAll, ih]

theorem isDerivation_former {c : Context} {φ : Former} {es : List (Expr Ty)} {n : Note Ty} :
    (φ.expr es n).IsDerivation c ↔ IsDerivationAll c es ∧ φ.Holds (es.map ann) n.ann := by
  cases φ <;> rcases es with _ | ⟨_, _ | ⟨_, _ | ⟨_, _ | _⟩⟩⟩ <;>
    simp [Former.expr, Former.Holds, IsDerivation, IsDerivationAll, and_assoc]

end Expr

end TypedLisp
