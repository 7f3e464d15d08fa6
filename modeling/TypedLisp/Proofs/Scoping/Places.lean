import TypedLisp.Analysis.Expression

/-!
# Places in forms and the binders around them

A place is the way from a form down to one of its parts. The form alone says which names are bound
around a place, and where (`Form.binds`); the binder of a name is the innermost of that name
(`Form.binder?`). Analysis keeps a list of locals instead: `Scope.At` says that the list is that of
the binders around a place, each with the local it became.
-/

namespace TypedLisp

variable {fs : List Form} {xs : List Local}

namespace Form

/-- A step down in a form: to an item, or to an item of its second item, which is where the forms
that bind names have them. -/
inductive Step where
  | item (i : Nat)
  | binding (j : Nat)
deriving DecidableEq, Repr

/-- The way down to a part of a form. -/
abbrev Place := List Step

/-- The items of a form. -/
def items : Form → List Form
  | .atom _ _ => []
  | .seq _ items _ => items

/-- The part that a step leads to. -/
def step? (f : Form) : Step → Option Form
  | .item i => f.items[i]?
  | .binding j => f.items[1]?.bind fun g => g.items[j]?

/-- The part at a place. -/
def at? : Form → Place → Option Form
  | f, [] => some f
  | f, σ :: p => (f.step? σ).bind fun g => g.at? p

theorem at?_concat {root f : Form} {p : Place} (h : root.at? p = some f) (σ : Step) :
    root.at? (p ++ [σ]) = f.step? σ := by
  induction p generalizing root with
  | nil =>
    obtain rfl := Option.some.inj h
    rw [List.nil_append, at?]
    cases root.step? σ <;> rfl
  | cons τ p ih =>
    obtain ⟨g, hg, hp⟩ := Option.bind_eq_some_iff.1 h
    rw [List.cons_append, at?, hg]
    exact ih hp

/-! ## The names that a form binds -/

/-- The symbols among some forms, of which the first stands at `.binding k` and each next one `d`
further on. -/
def namesFrom (k d : Nat) : List Form → List (Step × String)
  | [] => []
  | f :: fs => (f.symbol?.map fun x => (.binding k, x)).toList ++ namesFrom (k + d) d fs

/-- The forms that give the names in a vector of names and expressions. -/
def targets (items : List Form) : List Form := (pairs items).map Prod.fst

/-- The names that a form binds over the part that a step leads to, in the order of the text:
parameters over the body, and each name of `let` over the bindings after its own and the body. -/
def binds (f : Form) (σ : Step) : List (Step × String) :=
  match f with
  | .seq .list [head, .seq _ items _, _] _ =>
    match head.symbol?, σ with
    | some "fn", .item 2 => namesFrom 0 1 items
    | some "def", .item 2 => namesFrom 1 1 items.tail
    | some "let", .item 2 => namesFrom 0 2 (targets items)
    | some "let", .binding m => namesFrom 0 2 ((targets items).take (m / 2))
    | _, _ => []
  | _ => []

/-- The names bound around a place and the places of their binders, from the innermost out. -/
def enclosing : Form → Place → List (Place × String)
  | _, [] => []
  | f, σ :: p =>
    ((f.step? σ).elim [] fun g => (g.enclosing p).map fun b => (σ :: b.1, b.2)) ++
      (f.binds σ).reverse.map fun b => ([b.1], b.2)

/-- The innermost binder of a name around a place. -/
def binder? (f : Form) (p : Place) (x : String) : Option Place :=
  ((f.enclosing p).find? fun b => b.2 = x).map Prod.fst

theorem enclosing_concat {root f : Form} {p : Place} (h : root.at? p = some f) (σ : Step) :
    root.enclosing (p ++ [σ]) =
      ((f.binds σ).reverse.map fun b => (p ++ [b.1], b.2)) ++ root.enclosing p := by
  induction p generalizing root with
  | nil =>
    obtain rfl := Option.some.inj h
    cases hg : root.step? σ <;> simp [enclosing, hg]
  | cons τ p ih =>
    obtain ⟨g, hg, hp⟩ := Option.bind_eq_some_iff.1 h
    simp [enclosing, hg, ih hp]

theorem mem_enclosing_of_binder? {f : Form} {p q : Place} {x : String}
    (h : f.binder? p x = some q) : ∃ b ∈ f.enclosing p, b.1 = q := by
  obtain ⟨b, hb, hq⟩ := Option.map_eq_some_iff.1 h
  exact ⟨b, List.mem_of_find?_eq_some hb, hq⟩

section Binds

variable {head body : Form} {b : Bracket} {fs : List Form} {r r' : Range}

theorem binds_fn (h : head.symbol? = some "fn") :
    (seq .list [head, .seq b fs r', body] r).binds (.item 2) = namesFrom 0 1 fs := by
  simp [binds, h]

theorem binds_def {f : Form} (h : head.symbol? = some "def") :
    (seq .list [head, .seq b (f :: fs) r', body] r).binds (.item 2) = namesFrom 1 1 fs := by
  simp [binds, h]

theorem binds_let (h : head.symbol? = some "let") :
    (seq .list [head, .seq b fs r', body] r).binds (.item 2) = namesFrom 0 2 (targets fs) := by
  simp [binds, h]

theorem binds_let_binding (h : head.symbol? = some "let") (j : Nat) :
    (seq .list [head, .seq b fs r', body] r).binds (.binding (2 * j + 1)) =
      namesFrom 0 2 ((targets fs).take j) := by
  have hj : (2 * j + 1) / 2 = j := by omega
  simp [binds, h, hj]

theorem binds_of_head (h : ∀ x ∈ ["fn", "def", "let"], head.symbol? ≠ some x) (σ : Step) :
    (seq .list (head :: fs) r).binds σ = [] := by
  simp only [List.mem_cons, List.not_mem_nil, or_false, forall_eq_or_imp, forall_eq] at h
  obtain ⟨hfn, hdef, hlet⟩ := h
  unfold binds
  split
  · rename_i heq
    simp only [seq.injEq, List.cons.injEq, true_and] at heq
    obtain ⟨⟨rfl, -⟩, -⟩ := heq
    split
    · exact absurd ‹_› hfn
    · exact absurd ‹_› hdef
    · exact absurd ‹_› hlet
    · exact absurd ‹_› hlet
    · rfl
  · rfl

theorem binds_if (h : head.symbol? = some "if") (σ : Step) :
    (seq .list (head :: fs) r).binds σ = [] := by
  refine binds_of_head (fun x hx => ?_) σ
  rw [h]
  rintro ⟨⟩
  exact absurd hx (by decide)

theorem binds_of_ne_list (h : b ≠ .list) (σ : Step) : (seq b fs r).binds σ = [] := by
  unfold binds
  split
  · rename_i heq
    exact absurd (seq.inj heq).1 h
  · rfl

end Binds

end Form

open Form (Step namesFrom)

/-! ## The locals of binders -/

/-- Places where something is bound, with the locals that it became. -/
abbrev Binders := List (Form.Place × Local)

/-- New locals that are bound at places of which the first is `.binding k` and each next one `d`
further on. -/
def bindersAt (p : Form.Place) (k d : Nat) : List Local → Binders
  | [] => []
  | x :: xs => (p ++ [.binding k], x) :: bindersAt p (k + d) d xs

@[simp] theorem bindersAt_map_snd (p : Form.Place) (k d : Nat) (xs : List Local) :
    (bindersAt p k d xs).map Prod.snd = xs := by
  induction xs generalizing k with
  | nil => rfl
  | cons x xs ih => rw [bindersAt, List.map_cons, ih]

theorem bindersAt_take_subset (p : Form.Place) (k d j : Nat) (xs : List Local) :
    bindersAt p k d (xs.take j) ⊆ bindersAt p k d xs := by
  induction xs generalizing k j with
  | nil => simp [bindersAt]
  | cons x xs ih =>
    cases j with
    | zero => simp [bindersAt]
    | succ j => exact List.cons_subset_cons _ (ih (k + d) j)

/-- Whether some forms give locals their names. -/
def Names (fs : List Form) (xs : List Local) : Prop :=
  fs.map Form.symbol? = xs.map fun x => some x.name

theorem Names.cons {f : Form} {x : Local}
    (hf : f.symbol? = some x.name) (h : Names fs xs) : Names (f :: fs) (x :: xs) := by
  rw [Names, List.map_cons, List.map_cons, hf, h]

theorem Names.take (h : Names fs xs) (j : Nat) :
    Names (fs.take j) (xs.take j) := by
  rw [Names, List.map_take, List.map_take, h]

theorem Names.bindersAt (h : Names fs xs) (p : Form.Place)
    (k d : Nat) : ((namesFrom k d fs).map fun b => (p ++ [b.1], b.2)) =
      (bindersAt p k d xs).map fun m => (m.1, m.2.name) := by
  induction fs generalizing k xs with
  | nil =>
    obtain rfl := List.map_eq_nil_iff.1 h.symm
    rfl
  | cons f fs ih =>
    cases xs with
    | nil => cases h
    | cons x xs =>
      obtain ⟨hf, hfs⟩ := List.cons.inj h
      simp [namesFrom, TypedLisp.bindersAt, hf, ih hfs]

/-- `K` lists the binders around a place from the innermost out, each with its local, and these are
the locals of the scope. -/
structure Scope.At (c : Scope) (root : Form) (p : Form.Place) (K : Binders) : Prop where
  locals_eq : c.locals = K.map Prod.snd
  enclosing_eq : root.enclosing p = K.map fun m => (m.1, m.2.name)

namespace Scope.At

variable {c : Scope} {root f : Form} {p : Form.Place} {K : Binders}

theorem nil {env : Env} {ns : String} (root : Form) : ({ env, ns } : Scope).At root [] [] :=
  ⟨rfl, rfl⟩

theorem local?_eq (h : c.At root p K) (x : String) :
    (∃ y, c.local? x = some y ∧ ∃ q, root.binder? p x = some q ∧ (q, y) ∈ K) ∨
      c.local? x = none ∧ root.binder? p x = none := by
  rw [local?, Form.binder?, h.locals_eq, h.enclosing_eq, List.find?_map, List.find?_map]
  cases hm : K.find? fun m => decide (m.2.name = x) with
  | some m =>
    refine .inl ⟨m.2, ?_, m.1, ?_, List.mem_of_find?_eq_some hm⟩
    · exact (congrArg (Option.map Prod.snd) hm :)
    · exact (congrArg (fun o => Option.map Prod.fst (Option.map _ o)) hm :)
  | none =>
    refine .inr ⟨?_, ?_⟩
    · exact (congrArg (Option.map Prod.snd) hm :)
    · exact (congrArg (fun o => Option.map Prod.fst (Option.map _ o)) hm :)

theorem inner {c' : Scope} {σ : Step} {fs : List Form} {xs : List Local} {k d : Nat}
    (h : c.At root p K) (hp : root.at? p = some f) (hb : f.binds σ = namesFrom k d fs)
    (hxs : Names fs xs) (hc : c'.locals = xs.reverse ++ c.locals) :
    c'.At root (p ++ [σ]) ((bindersAt p k d xs).reverse ++ K) := by
  refine ⟨?_, ?_⟩
  · rw [hc, h.locals_eq, List.map_append, List.map_reverse, bindersAt_map_snd]
  · rw [Form.enclosing_concat hp, hb, List.map_reverse, hxs.bindersAt, h.enclosing_eq,
      List.map_append, List.map_reverse]

theorem step {σ : Step} (h : c.At root p K) (hp : root.at? p = some f) (hb : f.binds σ = []) :
    c.At root (p ++ [σ]) K := by
  have hnone : f.binds σ = namesFrom 0 1 [] := hb
  have hnames : Names [] [] := rfl
  exact h.inner hp hnone hnames rfl

end Scope.At

end TypedLisp
