import Mathlib.Data.Int.ModEq
import Mathlib.Logic.Function.Basic
import TypedLisp.Proofs.Heap.Encoding
import TypedLisp.Proofs.Inference.Completeness
import TypedLisp.Proofs.Scoping.Denotation
import TypedLisp.Proofs.Session.CoreFunctions
import TypedLisp.Proofs.Session.InternalErrors

/-!
# Arithmetic

Expressions of integers have literals, names bound by `let`, and the core functions of arithmetic.
The value of such an expression is in the unbounded integers (`Arith.value`), and running it wraps
at every operation. What comes out is the value wrapped once (`Expr.Computes.gives`), since wrapping
respects the operations.
-/

namespace TypedLisp

/-! ## Expressions of integers -/

/-- The operations of arithmetic. -/
inductive ArithOp where
  | add
  | sub
  | mul
deriving DecidableEq, Repr

namespace ArithOp

/-- The core function of an operation. -/
def builtin : ArithOp → Builtin
  | .add => .add
  | .sub => .sub
  | .mul => .mul

/-- What an operation gives, for integers of any kind. -/
def apply {R : Type} [Add R] [Sub R] [Mul R] : ArithOp → R → R → R
  | .add, x, y => x + y
  | .sub, x, y => x - y
  | .mul, x, y => x * y

theorem ofInt_apply (o : ArithOp) (x y : ℤ) :
    Int64.ofInt (o.apply x y) = o.apply (Int64.ofInt x) (Int64.ofInt y) := by
  cases o with
  | add => exact Int64.ofInt_add x y
  | sub => exact Int64.ofInt_sub x y
  | mul => exact Int64.ofInt_mul x y

end ArithOp

/-- The comparisons of integers. -/
inductive Comparison where
  | eq
  | lt
  | gt
deriving DecidableEq, Repr

namespace Comparison

/-- The core function of a comparison. -/
def builtin : Comparison → Builtin
  | .eq => .eq
  | .lt => .lt
  | .gt => .gt

/-- Whether two integers compare so. -/
def holds : Comparison → ℤ → ℤ → Bool
  | .eq, x, y => x = y
  | .lt, x, y => x < y
  | .gt, x, y => y < x

end Comparison

/-- An expression of integers. -/
inductive Arith where
  | lit (n : Int64)
  | name (x : String)
  | op (o : ArithOp) (a b : Arith)
  /-- The name stands for the value of the first expression in the second one. -/
  | letIn (x : String) (a b : Arith)
deriving DecidableEq, Repr

/-- The value of an expression in the unbounded integers, where `ρ` says what names stand for. -/
def Arith.value : Arith → (String → ℤ) → ℤ
  | .lit n, _ => n.toInt
  | .name x, ρ => ρ x
  | .op o a b, ρ => o.apply (a.value ρ) (b.value ρ)
  | .letIn x a b, ρ => b.value (Function.update ρ x (a.value ρ))

theorem toInt_ofInt_modEq (x : ℤ) : (Int64.ofInt x).toInt ≡ x [ZMOD 2 ^ 64] := by
  rw [Int64.toInt_ofInt]
  exact Int.bmod_emod (m := Int64.size)

theorem ofInt_eq_of_modEq {x y : ℤ} (h : x ≡ y [ZMOD 2 ^ 64]) : Int64.ofInt x = Int64.ofInt y := by
  have hmod : x % (Int64.size : ℤ) = y % (Int64.size : ℤ) := h
  rw [← Int64.toInt_inj, Int64.toInt_ofInt, Int64.toInt_ofInt, ← Int.emod_bmod x, hmod,
    Int.emod_bmod]

/-! ## Tables of locals -/

/-- Whether a table has an entry as wanted for every name in scope, at the innermost local of that
name. -/
def Covers {β : Type} (locals : List Local) (table : List (Local × β)) (P : String → β → Prop) :
    Prop :=
  ∀ x l, locals.find? (fun l => l.name = x) = some l → ∃ b, table.lookup l = some b ∧ P x b

section Covers

variable {β : Type} {locals : List Local} {table : List (Local × β)} {P P' : String → β → Prop}

theorem Covers.nil (table : List (Local × β)) : Covers [] table P := nofun

theorem Covers.imp (h : Covers locals table P) (hP : ∀ x b, P x b → P' x b) :
    Covers locals table P' := fun x l hl =>
  (h x l hl).imp fun b hb => ⟨hb.1, hP x b hb.2⟩

theorem Covers.cons (h : Covers locals table P) {l : Local} {b : β} (hb : P' l.name b)
    (hP : ∀ x b, x ≠ l.name → P x b → P' x b) : Covers (l :: locals) ((l, b) :: table) P' := by
  intro x l' hl'
  by_cases hx : l.name = x
  · rw [List.find?_cons_of_pos (by simpa using hx)] at hl'
    obtain rfl := Option.some.inj hl'
    exact ⟨b, by simp, hx ▸ hb⟩
  · rw [List.find?_cons_of_neg (by simpa using hx)] at hl'
    have hname : l'.name = x := by simpa using List.find?_some hl'
    have hne : l' ≠ l := fun heq => hx (heq ▸ hname)
    obtain ⟨b', hlookup, hb'⟩ := h x l' hl'
    exact ⟨b', (lookup_cons_of_ne hne _ _).trans hlookup, hP x b' (Ne.symm hx) hb'⟩

end Covers

/-! ## Expressions that compute -/

/-- Whether an expression, after some bindings of `let`, computes an expression of integers. The
locals in scope are given from the innermost out. -/
inductive Expr.Computes {α : Type} (env : Env) :
    List Local → List (Local × Expr α) → Expr α → Arith → Prop where
  | lit {locals : List Local} (n : Int64) (note : Note α) :
      Computes env locals [] (.literal (.int n) note) (.lit n)
  | name {locals : List Local} {x : String} {l : Local} (note : Note α)
      (hl : locals.find? (fun l => l.name = x) = some l) :
      Computes env locals [] (.localVar l note) (.name x)
  | op {locals : List Local} {v : Var} {o : ArithOp} {e f : Expr α} {a b : Arith} (note : Note α)
      (hv : env.HasVar v) (ho : v.IsBuiltin o.builtin) (he : Computes env locals [] e a)
      (hf : Computes env locals [] f b) :
      Computes env locals [] (.callVar v [e, f] note) (.op o a b)
  | letIn {locals : List Local} {bs : List (Local × Expr α)} {e : Expr α} {a : Arith}
      (note : Note α) (h : Computes env locals bs e a) :
      Computes env locals [] (.letIn bs e note) a
  | bind {locals : List Local} {x : Local} {bs : List (Local × Expr α)} {e f : Expr α}
      {a b : Arith} (he : Computes env locals [] e a) (hf : Computes env (x :: locals) bs f b) :
      Computes env locals ((x, e) :: bs) f (.letIn x.name a b)

namespace Expr

variable {α : Type} {env : Env} {locals : List Local} {bs : List (Local × Expr α)} {e : Expr α}
  {a : Arith}

theorem Computes.of_map {β : Type} {g : α → β}
    (h : Computes env locals (mapBindings g bs) (e.map g) a) : Computes env locals bs e a := by
  generalize hbs : mapBindings g bs = bs' at h
  generalize he : e.map g = e' at h
  induction h generalizing bs e with
  | lit n note =>
    obtain rfl : bs = [] := by simpa using hbs
    cases e with
    | literal l m =>
      cases he
      exact .lit n m
    | _ => cases he
  | name note hl =>
    obtain rfl : bs = [] := by simpa using hbs
    cases e with
    | localVar l m =>
      cases he
      exact .name m hl
    | _ => cases he
  | op note hv ho _ _ ihe ihf =>
    obtain rfl : bs = [] := by simpa using hbs
    cases e with
    | callVar w es m =>
      simp only [map, mapAll_eq_map, callVar.injEq, List.map_eq_cons_iff, List.map_eq_nil_iff] at he
      obtain ⟨rfl, ⟨e, _, rfl, rfl, f, _, rfl, rfl, rfl⟩, -⟩ := he
      exact .op m hv ho (ihe rfl rfl) (ihf rfl rfl)
    | _ => cases he
  | letIn note _ ih =>
    obtain rfl : bs = [] := by simpa using hbs
    cases e with
    | letIn bs e m =>
      cases he
      exact .letIn m (ih rfl rfl)
    | _ => cases he
  | bind _ _ ihe ihf =>
    cases bs with
    | nil => cases hbs
    | cons b bs =>
      cases hbs
      exact .bind (ihe rfl rfl) (ihf rfl he)

end Expr

/-! ## Analysis of forms that compute -/

/-- Whether an atom stands for a built-in function where `names` are bound to locals. -/
def Env.Means (env : Env) (ns : String) (names : List String) : Atom → Builtin → Prop
  | .symbol x, b =>
    x = b.name ∧ x ∉ names ∧ ∃ v, env.resolveVar ns x = some v ∧ v.IsBuiltin b
  | .qualified q x, b => x = b.name ∧ ∃ v, env.resolveQualifiedVar ns q x = some v ∧ v.IsBuiltin b
  | _, _ => False

/-- Whether a form, after some names and forms in turn that are bound by `let`, computes an
expression of integers where `names` are bound. -/
inductive Form.Computes (env : Env) (ns : String) :
    List String → List Form → Form → Arith → Prop where
  | lit {names : List String} (n : Int64) (r : Range) :
      Computes env ns names [] (.atom (.int n) r) (.lit n)
  | name {names : List String} {x : String} (hx : x ∈ names) (r : Range) :
      Computes env ns names [] (.atom (.symbol x) r) (.name x)
  | op {names : List String} {head : Atom} {o : ArithOp} {f g : Form} {a b : Arith}
      (hhead : env.Means ns names head o.builtin) (hf : Computes env ns names [] f a)
      (hg : Computes env ns names [] g b) (hr r : Range) :
      Computes env ns names [] (.seq .list [.atom head hr, f, g] r) (.op o a b)
  | letIn {names : List String} {items : List Form} {f : Form} {a : Arith}
      (h : Computes env ns names items f a) (hr vr r : Range) :
      Computes env ns names []
        (.seq .list [.atom (.symbol "let") hr, .seq .vector items vr, f] r) a
  | bind {names : List String} {x : String} {items : List Form} {f g : Form} {a b : Arith}
      (hx : x ≠ "::") (xr : Range) (hf : Computes env ns names [] f a)
      (hg : Computes env ns (x :: names) items g b) :
      Computes env ns names (.atom (.symbol x) xr :: f :: items) g (.letIn x a b)

section Analysis

variable {env : Env} {ns : String} {names : List String} {items : List Form} {f g : Form}
  {a b : Arith} {c : Scope}

theorem Form.Computes.length_items (h : Computes env ns names items f a) :
    items.length % 2 = 0 := by
  induction h with
  | bind _ _ _ _ _ ih =>
    rw [List.length_cons, List.length_cons, Nat.add_assoc, Nat.add_mod_right, ih]
  | _ => rfl

theorem Form.Computes.evenMaps (h : Computes env ns names items f a) :
    Form.EvenMapsAll items ∧ f.EvenMaps := by
  induction h with
  | lit => exact ⟨trivial, trivial⟩
  | name => exact ⟨trivial, trivial⟩
  | op _ _ _ _ _ ihf ihg => exact ⟨trivial, nofun, trivial, ihf.2, ihg.2, trivial⟩
  | letIn _ _ _ _ ih => exact ⟨trivial, nofun, trivial, ⟨nofun, ih.1⟩, ih.2, trivial⟩
  | bind _ _ _ _ ihf ihg => exact ⟨⟨trivial, ihf.2, ihg.1⟩, ihg.2⟩

theorem exprForm_call {head : Form} (h : ∀ x ∈ specialHeads, head.symbol? ≠ some x) (c : Scope)
    (args : List Form) (r : Range) :
    exprForm c (.seq .list (head :: args) r) = do
      let args ← exprForms c args
      let callee ← exprForm c head
      return Expr.mkCall callee args r := by
  have htop : head.symbol?.filter topLevelHeads.contains = none := by
    rw [Option.filter_eq_none_iff]
    intro x hx hcontains
    exact h x (List.mem_append_right _ (List.contains_iff_mem.1 hcontains)) hx
  rw [exprForm]
  split
  · exact absurd ‹_› (h "let" (by decide))
  · exact absurd ‹_› (h "if" (by decide))
  · exact absurd ‹_› (h "fn" (by decide))
  · rw [htop]

theorem Env.Means.ne_special {head : Atom} {b : Builtin} (h : env.Means ns names head b)
    (hb : b.name ∉ specialHeads) (hr : Range) :
    ∀ x ∈ specialHeads, (Form.atom head hr).symbol? ≠ some x := by
  rintro x hx heq
  cases head with
  | symbol y =>
    obtain rfl := Option.some.inj heq
    exact hb (h.1 ▸ hx)
  | _ => cases heq

theorem Env.Means.exists_var {head : Atom} {b : Builtin}
    (h : c.env.Means c.ns (c.locals.map (·.name)) head b) (hr : Range) :
    ∃ v, c.env.HasVar v ∧ v.IsBuiltin b ∧
      atomExpr c head hr = .ok (.globalVar v (plainNote hr)) := by
  cases head with
  | symbol x =>
    obtain ⟨-, hx, v, hv, hb⟩ := h
    have hlocal : c.local? x = none := by
      rw [Scope.local?, List.find?_eq_none]
      exact fun l hl heq => hx (List.mem_map.2 ⟨l, hl, by simpa using heq⟩)
    refine ⟨v, Env.hasVar_of_resolveVar hv, hb, ?_⟩
    rw [atomExpr, hlocal, hv]
    rfl
  | qualified q x =>
    obtain ⟨-, v, hv, hb⟩ := h
    refine ⟨v, Env.hasVar_of_resolveQualifiedVar hv, hb, ?_⟩
    rw [atomExpr, hv]
    rfl
  | _ => exact h.elim

theorem Env.Means.run_call {head : Atom} {b : Builtin}
    (h : c.env.Means c.ns (c.locals.map (·.name)) head b) (hb : b.name ∉ specialHeads)
    (hr r : Range) : ∃ v, c.env.HasVar v ∧ v.IsBuiltin b ∧
      ∀ {args : List Form} {es : List (Expr Unit)} {s s' : Supply},
        (exprForms c args).run s = .ok (es, s') →
        (exprForm c (.seq .list (.atom head hr :: args) r)).run s =
          .ok (.callVar v es (plainNote r), s') := by
  obtain ⟨v, hv, hbuiltin, hatom⟩ := h.exists_var hr
  refine ⟨v, hv, hbuiltin, fun {args es s s'} hargs => ?_⟩
  rw [exprForm_call (h.ne_special hb hr)]
  simp only [run_bind_eq_ok, run_pure_eq_ok, exprForm, run_liftM_eq_ok]
  exact ⟨es, s', hargs, _, s', ⟨hatom, rfl⟩, rfl, rfl⟩

theorem ArithOp.name_not_mem (o : ArithOp) : o.builtin.name ∉ specialHeads := by
  cases o <;> decide

theorem Comparison.name_not_mem (c : Comparison) : c.builtin.name ∉ specialHeads := by
  cases c <;> decide

theorem run_bindingForms_nil {inner : Scope} {bs : List (Local × Expr Unit)} {s s' : Supply} :
    (bindingForms c []).run s = .ok ((bs, inner), s') ↔ [] = bs ∧ c = inner ∧ s = s' := by
  simp only [bindingForms, run_pure_eq_ok, Prod.mk.injEq, and_assoc]

/-- **A form that computes denotes an expression that computes the same.** -/
theorem Form.Computes.analysed (h : Form.Computes env ns names items f a)
    (henv : c.env = env) (hns : c.ns = ns) (hnames : c.locals.map (·.name) = names) (s : Supply) :
    ∃ bs inner s₁ e s₂, (bindingForms c items).run s = .ok ((bs, inner), s₁) ∧
      (exprForm inner f).run s₁ = .ok (e, s₂) ∧ Expr.Computes env c.locals bs e a := by
  induction h generalizing c s with
  | lit n r =>
    refine ⟨[], c, s, .literal (.int n) (plainNote r), s, run_bindingForms_nil.2 ⟨rfl, rfl, rfl⟩, ?_,
      .lit n _⟩
    rw [exprForm, run_liftM_eq_ok]
    exact ⟨rfl, rfl⟩
  | @name names x hx r =>
    obtain ⟨l, hl⟩ : ∃ l, c.local? x = some l := by
      rw [← Option.isSome_iff_exists, Scope.local?, List.find?_isSome]
      obtain ⟨l, hl, rfl⟩ := List.mem_map.1 (hnames ▸ hx)
      exact ⟨l, hl, by simp⟩
    refine ⟨[], c, s, .localVar l (plainNote r), s, run_bindingForms_nil.2 ⟨rfl, rfl, rfl⟩, ?_,
      .name _ hl⟩
    rw [exprForm, run_liftM_eq_ok, atomExpr, hl]
    exact ⟨rfl, rfl⟩
  | @op names head o f g a b hhead _ _ hr r ihf ihg =>
    subst henv hns hnames
    obtain ⟨v, hv, ho, hcall⟩ := hhead.run_call o.name_not_mem hr r
    obtain ⟨_, _, s₁, e, s₂, hnil, he, hea⟩ := ihf rfl rfl rfl s
    obtain ⟨rfl, rfl, rfl⟩ := run_bindingForms_nil.1 hnil
    obtain ⟨_, _, s₁, e', s₃, hnil, he', heb⟩ := ihg rfl rfl rfl s₂
    obtain ⟨rfl, rfl, rfl⟩ := run_bindingForms_nil.1 hnil
    refine ⟨[], _, s, .callVar v [e, e'] (plainNote r), s₃, run_bindingForms_nil.2 ⟨rfl, rfl, rfl⟩,
      hcall ?_, .op _ hv ho hea heb⟩
    simp only [exprForms, run_bind_eq_ok, run_pure_eq_ok]
    exact ⟨e, _, he, _, _, ⟨e', _, he', [], _, ⟨rfl, rfl⟩, rfl, rfl⟩, rfl, rfl⟩
  | @letIn names items f a h hr vr r ih =>
    obtain ⟨bs, inner, s₁, e, s₂, hbs, he, hcomputes⟩ := ih henv hns hnames s
    refine ⟨[], c, s, .letIn bs e (plainNote r), s₂, run_bindingForms_nil.2 ⟨rfl, rfl, rfl⟩, ?_,
      .letIn _ hcomputes⟩
    have hlet : exprForm c (.seq .list [.atom (.symbol "let") hr, .seq .vector items vr, f] r) =
        letForm c r [.seq .vector items vr, f] := by
      rw [exprForm]
      rfl
    rw [hlet, letForm, if_neg (by simp [h.length_items])]
    simp only [run_bind_eq_ok, run_pure_eq_ok]
    exact ⟨(bs, inner), s₁, hbs, e, s₂, he, rfl, rfl⟩
  | @bind names x items f g a b hx xr _ _ ihf ihg =>
    obtain ⟨_, _, s₁, e, s₂, hnil, he, hea⟩ := ihf henv hns hnames s
    obtain ⟨rfl, rfl, rfl⟩ := run_bindingForms_nil.1 hnil
    obtain ⟨bs, inner, s₃, e', s₄, hbs, he', heb⟩ := ihg (c := c.bind ⟨x, s₂.localId⟩) henv hns
      (congrArg (x :: ·) hnames) { s₂ with localId := s₂.localId + 1 }
    refine ⟨(⟨x, s₂.localId⟩, e) :: bs, inner, s₃, e', s₄, ?_, he', .bind hea heb⟩
    simp only [bindingForms, run_bind_eq_ok, run_pure_eq_ok, run_liftM_eq_ok, run_newLocal]
    exact ⟨x, _, ⟨if_neg hx, rfl⟩, e, s₂, he, _, _, ⟨rfl, rfl⟩, (bs, inner), s₃, hbs, rfl, rfl⟩

end Analysis

/-! ## Types -/

/-- A local that stands for an integer. -/
def IsIntLocal (_ : String) (t : LocalType) : Prop := ∃ fixed, t = .bound .int fixed

theorem isIntLocal_bound (x : String) (fixed : List TyVar) : IsIntLocal x (.bound .int fixed) :=
  ⟨fixed, rfl⟩

/-- Whether the vars of the operations have their types. -/
def Env.TypesOperations (env : Env) : Prop :=
  ∀ v (o : ArithOp), env.HasVar v → v.IsBuiltin o.builtin →
    v.visible = some (.fn [.int, .int] .int)

namespace Expr

variable {env : Env} {locals : List Local} {a : Arith} {c : Context}

theorem Computes.exists_derivation {bs : List (Local × Expr Unit)} {e : Expr Unit}
    (h : Computes env locals bs e a) (henv : env.TypesOperations)
    (hc : Covers locals c IsIntLocal) :
    ∃ (ds : List (Local × Expr Ty)) (d : Expr Ty), mapBindings (fun _ => ()) ds = bs ∧ d.erase = e ∧ IsDerivationLet c ds ∧
      d.IsDerivation (c.bindAll ds) ∧ d.ann = .int := by
  induction h generalizing c with
  | lit n note =>
    exact ⟨[], .literal (.int n) ⟨note.range, .int⟩, rfl, rfl, trivial, rfl, rfl⟩
  | name note hl =>
    obtain ⟨_, hlookup, fixed, rfl⟩ := hc _ _ hl
    exact ⟨[], .localVar _ ⟨note.range, .int⟩, rfl, rfl, trivial,
      ⟨_, hlookup, [], Ty.apply_nil _, fun _ _ => Ty.apply_nil _⟩, rfl⟩
  | @op locals v o e f a b note hv ho _ _ ihe ihf =>
    obtain ⟨ds, d, hds, rfl, -, hd, hint⟩ := ihe hc
    obtain ⟨ds', d', hds', rfl, -, hd', hint'⟩ := ihf hc
    obtain rfl : ds = [] := by simpa using hds
    obtain rfl : ds' = [] := by simpa using hds'
    refine ⟨[], .callVar v [d, d'] ⟨note.range, .int⟩, rfl, rfl, trivial, ⟨⟨hd, hd', trivial⟩, ?_⟩,
      rfl⟩
    intro u hu
    obtain rfl := Option.some.inj (hu.symm.trans (henv v o hv ho))
    simp only [List.map_cons, List.map_nil, hint, hint']
    exact .refl _
  | letIn note _ ih =>
    obtain ⟨ds, d, rfl, rfl, hds, hd, hint⟩ := ih hc
    exact ⟨[], .letIn ds d ⟨note.range, .int⟩, rfl, rfl, trivial, ⟨hds, hd, hint.symm⟩, rfl⟩
  | @bind locals x bs e f a b _ _ ihe ihf =>
    obtain ⟨ds, d, hds, rfl, -, hd, hint⟩ := ihe hc
    obtain rfl : ds = [] := by simpa using hds
    obtain ⟨ds, d', rfl, rfl, hds', hd', hint'⟩ := ihf (c := c.bind x d.ann)
      (hc.cons (hint ▸ isIntLocal_bound _ _) fun _ _ _ => id)
    exact ⟨(x, d) :: ds, d', rfl, rfl, ⟨hd, hds'⟩, hd', hint'⟩

theorem Computes.ann_eq {ds : List (Local × Expr Ty)} {d : Expr Ty}
    (h : Computes env locals ds d a) (henv : env.TypesOperations)
    (hc : Covers locals c IsIntLocal) (hds : IsDerivationLet c ds)
    (hd : d.IsDerivation (c.bindAll ds)) : d.ann = .int := by
  induction h generalizing c with
  | lit n note => exact hd
  | name note hl =>
    obtain ⟨_, hlookup, fixed, rfl⟩ := hc _ _ hl
    obtain ⟨t, ht, hadmits⟩ := hd
    obtain rfl := Option.some.inj (ht.symm.trans hlookup)
    obtain ⟨s, hs, -⟩ := hadmits
    exact hs.symm
  | @op locals v o e f a b note hv ho _ _ _ _ =>
    obtain ⟨s, hs⟩ := hd.2 _ (henv v o hv ho)
    exact (Ty.fn.inj hs).2.symm
  | letIn note _ ih => exact hd.2.2.trans (ih hc hd.1 hd.2.1)
  | bind _ _ ihe ihf =>
    refine ihf (hc.cons ?_ fun _ _ _ => id) hds.2 hd
    rw [ihe hc trivial hds.1]
    exact isIntLocal_bound _ _

end Expr

/-! ## Running -/

/-- Whether the cells of the vars of built-in functions hold these functions. -/
def Machine.Serves (m : Machine) (env : Env) : Prop :=
  ∀ v b, env.HasVar v → v.IsBuiltin b →
    ∃ f, m.cell? v.cell = some f ∧ m.heap.get? f = some (Session.builtinObject b)

/-- Whether a run ends without a fault and with an integer. -/
structure Gives (act : Run Addr) (m : Machine) (n : Int64) : Prop where
  fault_eq : (act m).2.fault = none
  get?_eq : (act m).2.heap.get? (act m).1 = some (.int n)

/-- The names in scope stand for integers on a heap, wrapped. -/
def Heap.Stands (h : Heap) (ρ : String → ℤ) (x : String) (a : Addr) : Prop :=
  h.get? a = some (.int (.ofInt (ρ x)))

namespace Machine

variable {m m' : Machine} {env : Env} {x y : Int64} {p q : Addr}

theorem Serves.of_le (h : m.Serves env) (hle : m ≤ m') : m'.Serves env := by
  intro v b hv hb
  obtain ⟨f, hf, hget⟩ := h v b hv hb
  refine ⟨f, ?_, Heap.get?_of_le hle.1 hget⟩
  rw [cell?, hle.2.1.1]
  exact hf

theorem run_ints (hp : m.heap.get? p = some (.int x)) (hq : m.heap.get? q = some (.int y))
    {b : Builtin} {k : Int64 → Int64 → Effect} (hb : b.effect m.heap [p, q] = m.heap.onInts p q k) :
    b.run [p, q] m = (k x y).run m := by
  rw [b.run_eq, hb, Heap.onInts_eq hp hq]

theorem run_arithOp (hp : m.heap.get? p = some (.int x)) (hq : m.heap.get? q = some (.int y))
    (o : ArithOp) : o.builtin.run [p, q] m = newInt (o.apply x y) m := by
  cases o <;> exact (run_ints hp hq rfl).trans rfl

theorem run_comparison (hp : m.heap.get? p = some (.int x)) (hq : m.heap.get? q = some (.int y))
    (c : Comparison) :
    c.builtin.run [p, q] m = (boolAddr (c.holds x.toInt y.toInt), m) := by
  cases c with
  | eq =>
    have heq : (x == y) = decide (x.toInt = y.toInt) := by
      rw [Bool.eq_iff_iff, beq_iff_eq, decide_eq_true_iff, Int64.toInt_inj]
    exact (run_ints hp hq rfl).trans (by rw [heq]; rfl)
  | lt =>
    have hlt : decide (x < y) = decide (x.toInt < y.toInt) := by simp [Int64.lt_iff_toInt_lt]
    exact (run_ints hp hq rfl).trans (by rw [hlt]; rfl)
  | gt =>
    have hgt : decide (y < x) = decide (y.toInt < x.toInt) := by simp [Int64.lt_iff_toInt_lt]
    exact (run_ints hp hq rfl).trans (by rw [hgt]; rfl)

theorem call_builtin {f : Addr} {b : Builtin} {args : List Addr} (hfault : m.fault = none)
    (hf : m.heap.get? f = some (Session.builtinObject b)) (hargs : args.length = b.arity) (depth : Nat) :
    call (depth + 1) f args m = b.run args m := by
  rw [call, Run.bind_of_eq (enter_eq hfault hf hargs.symm depth)]
  rfl

/-- Runs bindings and then code. -/
def evalAfter (depth : Nat) (frame : Frame) (cs : List (Local × Code)) (code : Code) : Run Addr := do
  let inner ← Code.evalBindings (call depth) frame cs
  code.eval (call depth) inner

/-- Whether some code, after bindings, gives the wrapped value of an expression of integers wherever
the names in scope stand for integers. -/
def GivesValue (env : Env) (locals : List Local) (cs : List (Local × Code)) (code : Code)
    (a : Arith) : Prop :=
  ∀ (depth : Nat) (ρ : String → ℤ) {frame : Frame} {m : Machine}, m.fault = none → m.Serves env →
    Covers locals frame (m.heap.Stands ρ) →
    Gives (evalAfter (depth + 1) frame cs code) m (.ofInt (a.value ρ))

section GivesValue

variable {locals : List Local} {c₁ c₂ : Code} {a b : Arith} {frame : Frame} {ρ : String → ℤ}

theorem evalAfter_nil (depth : Nat) (frame : Frame) (code : Code) :
    evalAfter depth frame [] code = code.eval (call depth) frame := by
  rw [evalAfter, Code.evalBindings, pure_bind]

theorem GivesValue.pair (h₁ : GivesValue env locals [] c₁ a) (h₂ : GivesValue env locals [] c₂ b)
    (depth : Nat) (hfault : m.fault = none) (hm : m.Serves env)
    (hframe : Covers locals frame (m.heap.Stands ρ)) :
    ∃ p q m', Code.evalAll (call (depth + 1)) frame [c₁, c₂] m = ([p, q], m') ∧ m ≤ m' ∧
      m'.fault = none ∧ m'.heap.get? p = some (.int (.ofInt (a.value ρ))) ∧
      m'.heap.get? q = some (.int (.ofInt (b.value ρ))) := by
  have hgives₁ := h₁ depth ρ hfault hm hframe
  rw [evalAfter_nil] at hgives₁
  have hgrows₁ := Code.leads_eval (grows_call (depth + 1)) c₁ frame m
  have hgives₂ := h₂ depth ρ hgives₁.fault_eq (hm.of_le hgrows₁)
    (hframe.imp fun x p hp => Heap.get?_of_le hgrows₁.1 hp)
  rw [evalAfter_nil] at hgives₂
  have hgrows₂ := Code.leads_eval (grows_call (depth + 1)) c₂ frame
    (c₁.eval (call (depth + 1)) frame m).2
  exact ⟨_, _, _, rfl, le_trans hgrows₁ hgrows₂, hgives₂.fault_eq,
    Heap.get?_of_le hgrows₂.1 hgives₁.get?_eq, hgives₂.get?_eq⟩

/-- The call of a built-in function with two arguments runs it on their values. -/
theorem GivesValue.eval_call (h₁ : GivesValue env locals [] c₁ a)
    (h₂ : GivesValue env locals [] c₂ b) {v : Var} {fn : Builtin} (hv : env.HasVar v)
    (hfn : v.IsBuiltin fn) (harity : fn.arity = 2) (depth : Nat) (hfault : m.fault = none)
    (hm : m.Serves env) (hframe : Covers locals frame (m.heap.Stands ρ)) :
    ∃ p q m', Code.eval (call (depth + 1)) frame (.call (.load v.cell) [c₁, c₂]) m =
        fn.run [p, q] m' ∧ m ≤ m' ∧ m'.fault = none ∧
      m'.heap.get? p = some (.int (.ofInt (a.value ρ))) ∧
      m'.heap.get? q = some (.int (.ofInt (b.value ρ))) := by
  obtain ⟨f, hcell, hf⟩ := hm v fn hv hfn
  obtain ⟨p, q, m', hargs, hle, hfault', hp, hq⟩ := h₁.pair h₂ depth hfault hm hframe
  refine ⟨p, q, m', ?_, hle, hfault', hp, hq⟩
  have hload : load v.cell m = (f, m) := by
    rw [load, Run.bind_of_eq (rfl : (get : Run Machine) m = (m, m)), hcell]
    rfl
  rw [Code.eval, Code.eval, Run.bind_of_eq hload, Run.bind_of_eq hargs]
  have htwo : [p, q].length = fn.arity := harity.symm
  exact call_builtin hfault' (Heap.get?_of_le hle.1 hf) htwo depth

theorem GivesValue.op (h₁ : GivesValue env locals [] c₁ a) (h₂ : GivesValue env locals [] c₂ b)
    {v : Var} {o : ArithOp} (hv : env.HasVar v) (ho : v.IsBuiltin o.builtin) :
    GivesValue env locals [] (.call (.load v.cell) [c₁, c₂]) (.op o a b) := by
  intro depth ρ frame m hfault hm hframe
  have harity : o.builtin.arity = 2 := by cases o <;> rfl
  obtain ⟨p, q, m', hcall, -, hfault', hp, hq⟩ :=
    h₁.eval_call h₂ hv ho harity depth hfault hm hframe
  have hrun : evalAfter (depth + 1) frame [] (.call (.load v.cell) [c₁, c₂]) m =
      newInt (.ofInt ((Arith.op o a b).value ρ)) m' := by
    rw [evalAfter_nil, hcall, run_arithOp hp hq, ← o.ofInt_apply]
    rfl
  refine ⟨?_, ?_⟩
  · rw [hrun]
    exact hfault'
  · rw [hrun]
    exact get?_alloc _ m'

theorem GivesValue.bind {x : Local} {cs : List (Local × Code)} (h₁ : GivesValue env locals [] c₁ a)
    (h₂ : GivesValue env (x :: locals) cs c₂ b) :
    GivesValue env locals ((x, c₁) :: cs) c₂ (.letIn x.name a b) := by
  intro depth ρ frame m hfault hm hframe
  have hgives := h₁ depth ρ hfault hm hframe
  rw [evalAfter_nil] at hgives
  have hgrows := Code.leads_eval (grows_call (depth + 1)) c₁ frame m
  have hinner : evalAfter (depth + 1) frame ((x, c₁) :: cs) c₂ m =
      evalAfter (depth + 1) ((x, (c₁.eval (call (depth + 1)) frame m).1) :: frame) cs c₂
        (c₁.eval (call (depth + 1)) frame m).2 := by
    rw [evalAfter, Code.evalBindings, bind_assoc]
    rfl
  have hgives' := h₂ depth (Function.update ρ x.name (a.value ρ)) hgives.fault_eq
    (hm.of_le hgrows) (hframe.cons (l := x) (b := (c₁.eval (call (depth + 1)) frame m).1) ?_ ?_)
  · exact ⟨hinner ▸ hgives'.fault_eq, hinner ▸ hgives'.get?_eq⟩
  · rw [Heap.Stands, Function.update_self]
    exact hgives.get?_eq
  · intro y p hy hp
    rw [Heap.Stands, Function.update_of_ne hy]
    exact Heap.get?_of_le hgrows.1 hp

end GivesValue

end Machine

namespace Expr

open Machine

variable {α : Type} {env : Env} {locals scope outer : List Local} {bs : List (Local × Expr α)}
  {e : Expr α} {a : Arith}

theorem lower_callVar {v : Var} {fn : Builtin} (hfn : v.IsBuiltin fn) {e f : Expr α} {c₁ c₂ : Code}
    (he : e.lower scope = .ok c₁) (hf : f.lower scope = .ok c₂) (note : Note α) :
    (Expr.callVar v [e, f] note).lower scope = .ok (.call (.load v.cell) [c₁, c₂]) := by
  have hplain : checkConstructor v 2 note.range = .ok () := by
    rw [checkConstructor, Var.constructorArity?, hfn.2]
  rw [lower, lowerAll, lowerAll, lowerAll, he, hf]
  exact congrArg (· >>= fun _ => _) hplain

/-- **The code of an expression that computes gives its value, wrapped.** -/
theorem Computes.gives (h : Computes env locals bs e a) (hscope : locals ⊆ scope)
    (houter : bs.map Prod.fst ++ locals ⊆ outer) :
    ∃ cs code, lowerBindings scope bs = .ok cs ∧ e.lower outer = .ok code ∧
      GivesValue env locals cs code a := by
  induction h generalizing scope outer with
  | lit n note =>
    refine ⟨[], .literal (.int n), rfl, rfl, fun depth ρ frame m hfault _ _ => ?_⟩
    rw [evalAfter_nil]
    refine ⟨hfault, ?_⟩
    rw [Arith.value, Int64.ofInt_toInt]
    exact get?_alloc (.int n) m
  | @name locals x l note hl =>
    refine ⟨[], .slot l, rfl, ?_, fun depth ρ frame m hfault _ hframe => ?_⟩
    · rw [lower, lookupLocal, if_pos (houter (List.mem_of_find?_eq_some hl))]
      rfl
    · obtain ⟨p, hp, hstands⟩ := hframe x l hl
      rw [evalAfter_nil]
      refine ⟨hfault, ?_⟩
      show m.heap.get? (frame.get l) = _
      rw [Frame.get, hp]
      exact hstands
  | @op locals v o e f a b note hv ho _ _ ihe ihf =>
    obtain ⟨cs₁, c₁, hcs₁, hc₁, hgives₁⟩ := ihe houter houter
    obtain ⟨cs₂, c₂, hcs₂, hc₂, hgives₂⟩ := ihf houter houter
    cases hcs₁
    cases hcs₂
    exact ⟨[], .call (.load v.cell) [c₁, c₂], rfl, lower_callVar ho hc₁ hc₂ note,
      hgives₁.op hgives₂ hv ho⟩
  | @letIn locals bs e a note _ ih =>
    have hinner : bs.map Prod.fst ++ locals ⊆ bs.map Prod.fst ++ outer :=
      List.append_subset.2 ⟨List.subset_append_left _ _,
        List.subset_append_of_subset_right _ houter⟩
    obtain ⟨cs, code, hcs, hcode, hgives⟩ := ih houter hinner
    refine ⟨[], .letIn cs code, rfl, ?_, fun depth ρ _ _ hfault hm hframe => ?_⟩
    · rw [lower, hcs]
      exact congrArg (· >>= fun c => pure (Code.letIn cs c)) hcode
    · rw [evalAfter_nil]
      exact hgives depth ρ hfault hm hframe
  | @bind locals x bs e f a b _ _ ihe ihf =>
    obtain ⟨cs₁, c₁, hcs₁, hc₁, hgives₁⟩ := ihe hscope hscope
    cases hcs₁
    have hinner : bs.map Prod.fst ++ (x :: locals) ⊆ outer := fun y hy =>
      houter (by simp only [List.map_cons, List.mem_append, List.mem_cons] at hy ⊢; tauto)
    obtain ⟨cs, code, hcs, hcode, hgives⟩ := ihf (List.cons_subset_cons x hscope) hinner
    refine ⟨(x, c₁) :: cs, code, ?_, hcode, hgives₁.bind hgives⟩
    rw [lowerBindings, hc₁, hcs]
    rfl

end Expr

/-! ## Sessions -/

/-- A form that is no list with the head of a definition is an expression at top level. -/
theorem analyse_list {head : Form} (h : ∀ x ∈ topLevelHeads, head.symbol? ≠ some x) (env : Env)
    (ns : String) (args : List Form) (r : Range) :
    analyse env ns (.seq .list (head :: args) r) =
      exprForm { env, ns } (.seq .list (head :: args) r) := by
  rw [analyse]
  split
  · exact absurd ‹_› (h "def" (by decide))
  · exact absurd ‹_› (h "::" (by decide))
  · exact absurd ‹_› (h "defdata" (by decide))
  · exact absurd ‹_› (h "defj" (by decide))
  · exact absurd ‹_› (h "ns" (by decide))
  · rfl

theorem Env.Means.analyse_eq {env : Env} {ns : String} {names : List String} {head : Atom}
    {b : Builtin} (h : env.Means ns names head b) (hb : b.name ∉ specialHeads) (hr r : Range)
    (args : List Form) : analyse env ns (.seq .list (.atom head hr :: args) r) =
      exprForm { env, ns } (.seq .list (.atom head hr :: args) r) :=
  analyse_list (fun x hx => h.ne_special hb hr x (List.mem_append_right _ hx)) env ns args r

theorem Form.Computes.analyse_eq {env : Env} {ns : String} {names : List String}
    {f : Form} {a : Arith} (h : Form.Computes env ns names [] f a) :
    analyse env ns f = exprForm { env, ns } f := by
  cases h with
  | lit => rfl
  | name => rfl
  | @op _ head o _ _ _ _ hhead _ _ hr r => exact hhead.analyse_eq o.name_not_mem hr r _
  | letIn h hr vr r =>
    have hlet : ∀ x ∈ topLevelHeads, (Form.atom (.symbol "let") hr).symbol? ≠ some x := by
      show ∀ x ∈ topLevelHeads, some "let" ≠ some x
      decide
    exact analyse_list hlet env ns _ r

namespace Session

open Machine

variable {s : Session} {f g : Form} {a b : Arith}

theorem Reachable.typesOperations (hs : s.Reachable) : s.env.TypesOperations := by
  intro v o hv ho
  refine (hs.provides hv ho).visible_of_closed (fun k => ?_) fun σ => rfl
  cases o <;> rfl

theorem Reachable.visible_comparison (hs : s.Reachable) {v : Var} {c : Comparison}
    (hv : s.env.HasVar v) (hc : v.IsBuiltin c.builtin) :
    v.visible = some (.fn [.int, .int] .bool) := by
  refine (hs.provides hv hc).visible_of_closed (fun k => ?_) fun σ => rfl
  cases c <;> rfl

theorem Reachable.serves (hs : s.Reachable) : s.machine.Serves s.env := by
  intro v b hv hb
  obtain ⟨p, hcell, hslot⟩ := (hs.provides hv hb).holds
  exact ⟨p, hcell, Heap.get?_eq_some.2 ⟨_, hslot, rfl⟩⟩

/-- Whether some code runs to a value wherever the vars of built-in functions have them. -/
def RunsTo (env : Env) (limit : Nat) (code : Code) (v : Value) : Prop :=
  ∀ m : Machine, m.fault = none → m.heap.Standard → m.Serves env →
    (code.eval (call limit) [] m).2.fault = none ∧
      (code.eval (call limit) [] m).2.heap.decode (code.eval (call limit) [] m).1 = .ok v

theorem runForm_of_runsTo {env : Env} {t : Expr Ty} {code : Code} {v : Value} (ht : ¬IsEntry t)
    (hcode : t.lower [] = .ok code) (hruns : RunsTo env s.callLimit code v)
    (hstandard : s.machine.heap.Standard) (hserves : s.machine.Serves env) :
    ∃ closures, (runForm t s).1 = .ok ⟨.value v t.ann, closures⟩ := by
  obtain ⟨hfault, hdecode⟩ := hruns { (s.withUnit code).machine with fault := none } rfl
    (hstandard.of_le (quiet_withUnit s code).heap_le) hserves
  have hafter : (s.afterThunk code).machine.heap.decode (s.evalThunk code).1 = .ok v := hdecode
  rw [runForm_of_runThunk ht (runThunk_ok hcode hfault), hafter]
  exact ⟨s.unitClosures code, rfl⟩

/-- **A form that has a type evaluates to a value of it**, if every derivation of its expression has
that type and code that runs to the value. -/
theorem eval_of_derivations (hs : s.Reachable) (hf : f.EvenMaps) {e : Expr Unit} {supply : Supply}
    (ha : s.Analyses f e supply) {T : Ty} (hT : e.HasType T) {v : Value}
    (hrun : ∀ t : Expr Ty, t.erase = e → t.IsDerivation [] → ¬IsEntry t ∧ t.ann = T ∧
      ∃ code, t.lower [] = .ok code ∧ RunsTo s.env s.callLimit code v) :
    (eval f s).1 = .ok (.value v T) := by
  obtain ⟨t, k, ht, -⟩ := infer_principal hs.declaredBelow hf ha hT
  obtain ⟨hentry, rfl, code, hcode, hruns⟩ :=
    hrun t (erase_of_infer ht) (isDerivation_of_infer hf ha ht)
  obtain ⟨closures, hform⟩ := runForm_of_runsTo (s := s.inferred supply k)
    hentry hcode hruns hs.whole.standard hs.serves
  rw [eval_of_infer ha ht, run_eq, hform]

theorem exists_expr_of_computes (hf : f.Computes s.env s.ns [] [] a) (supply : Supply) :
    ∃ e supply', (exprForm { env := s.env, ns := s.ns } f).run supply = .ok (e, supply') ∧
      e.Computes s.env [] [] a := by
  obtain ⟨_, _, _, e, supply', hnil, he, hcomputes⟩ := hf.analysed
    (c := { env := s.env, ns := s.ns }) rfl rfl rfl supply
  obtain ⟨rfl, rfl, rfl⟩ := run_bindingForms_nil.1 hnil
  exact ⟨e, supply', he, hcomputes⟩

theorem exists_derivation_of_computes (hs : s.Reachable) {e : Expr Unit}
    (he : e.Computes s.env [] [] a) :
    ∃ d : Expr Ty, d.erase = e ∧ d.IsDerivation [] ∧ d.ann = .int := by
  obtain ⟨ds, d, hds, hd, -, hderivation, hann⟩ :=
    he.exists_derivation (c := []) hs.typesOperations (.nil _)
  obtain rfl : ds = [] := by simpa using hds
  exact ⟨d, hd, hderivation, hann⟩

theorem exists_code_of_computes {t : Expr Ty} (ht : t.Computes s.env [] [] a) :
    ∃ code, t.lower [] = .ok code ∧ GivesValue s.env [] [] code a := by
  obtain ⟨cs, code, hcs, hcode, hgives⟩ := ht.gives (List.Subset.refl []) (List.Subset.refl [])
  cases hcs
  exact ⟨code, hcode, hgives⟩

theorem eval_of_computes (hs : s.Reachable) (hlimit : 0 < s.callLimit)
    (hf : f.Computes s.env s.ns [] [] a) (ρ : String → ℤ) :
    (eval f s).1 = .ok (.value (.int (.ofInt (a.value ρ))) .int) := by
  obtain ⟨e, supply, he, hcomputes⟩ := exists_expr_of_computes hf s.supply
  rw [← hf.analyse_eq] at he
  refine eval_of_derivations hs hf.evenMaps.2 he (exists_derivation_of_computes hs hcomputes) ?_
  rintro t rfl ht
  have htc : t.Computes s.env [] [] a := .of_map (g := fun _ => ()) hcomputes
  obtain ⟨code, hcode, hgives⟩ := exists_code_of_computes htc
  refine ⟨?_, htc.ann_eq hs.typesOperations (.nil []) trivial ht, code, hcode, ?_⟩
  · cases htc <;> exact id
  · intro m hfault _ hserves
    obtain ⟨depth, hdepth⟩ := Nat.exists_eq_add_one.2 hlimit
    have hrun := hgives depth ρ hfault hserves (Covers.nil [])
    rw [evalAfter_nil, ← hdepth] at hrun
    exact ⟨hrun.fault_eq, Heap.decode_of_get? hrun.get?_eq (.int _)⟩

/-- A comparison of two expressions of integers compares their values, both wrapped. -/
theorem eval_of_comparison (hs : s.Reachable) (hlimit : 0 < s.callLimit)
    (hf : f.Computes s.env s.ns [] [] a) (hg : g.Computes s.env s.ns [] [] b) {head : Atom}
    {c : Comparison} (hhead : s.env.Means s.ns [] head c.builtin) (hr r : Range) (ρ : String → ℤ) :
    (eval (.seq .list [.atom head hr, f, g] r) s).1 = .ok (.value (.bool
      (c.holds (Int64.ofInt (a.value ρ)).toInt (Int64.ofInt (b.value ρ)).toInt)) .bool) := by
  obtain ⟨e₁, s₁, he₁, hcomputes₁⟩ := exists_expr_of_computes hf s.supply
  obtain ⟨e₂, s₂, he₂, hcomputes₂⟩ := exists_expr_of_computes hg s₁
  obtain ⟨v, hv, hc, hcall⟩ := hhead.run_call (c := { env := s.env, ns := s.ns }) c.name_not_mem hr r
  have hargs : (exprForms { env := s.env, ns := s.ns } [f, g]).run s.supply =
      .ok ([e₁, e₂], s₂) := by
    simp only [exprForms, run_bind_eq_ok, run_pure_eq_ok]
    exact ⟨e₁, _, he₁, _, _, ⟨e₂, _, he₂, [], _, ⟨rfl, rfl⟩, rfl, rfl⟩, rfl, rfl⟩
  have he := hcall hargs
  rw [← hhead.analyse_eq c.name_not_mem] at he
  have hvisible := hs.visible_comparison hv hc
  have heven : (Form.seq .list [.atom head hr, f, g] r).EvenMaps :=
    ⟨by rintro ⟨⟩, trivial, hf.evenMaps.2, hg.evenMaps.2, trivial⟩
  obtain ⟨d₁, hd₁, hderivation₁, hann₁⟩ := exists_derivation_of_computes hs hcomputes₁
  obtain ⟨d₂, hd₂, hderivation₂, hann₂⟩ := exists_derivation_of_computes hs hcomputes₂
  have hT : (Expr.callVar v [e₁, e₂] (plainNote r)).HasType .bool := by
    subst hd₁ hd₂
    refine ⟨.callVar v [d₁, d₂] ⟨r, .bool⟩, rfl, ⟨⟨hderivation₁, hderivation₂, trivial⟩, ?_⟩, rfl⟩
    intro u hu
    obtain rfl := Option.some.inj (hu.symm.trans hvisible)
    simp only [List.map_cons, List.map_nil, hann₁, hann₂]
    exact .refl _
  refine eval_of_derivations hs heven he hT ?_
  intro t herase ht
  cases t with
  | callVar w ts n =>
    simp only [Expr.erase, Expr.map, Expr.mapAll_eq_map, Expr.callVar.injEq,
      List.map_eq_cons_iff, List.map_eq_nil_iff] at herase
    obtain ⟨rfl, ⟨t₁, _, rfl, rfl, t₂, _, rfl, rfl, rfl⟩, -⟩ := herase
    obtain ⟨c₁, hc₁, hgives₁⟩ := exists_code_of_computes (.of_map hcomputes₁)
    obtain ⟨c₂, hc₂, hgives₂⟩ := exists_code_of_computes (.of_map hcomputes₂)
    obtain ⟨σ, hσ⟩ := ht.2 _ hvisible
    refine ⟨id, (Ty.fn.inj hσ).2.symm, .call (.load w.cell) [c₁, c₂],
      Expr.lower_callVar hc hc₁ hc₂ n, fun m hfault hstandard hserves => ?_⟩
    obtain ⟨depth, hdepth⟩ := Nat.exists_eq_add_one.2 hlimit
    have harity : c.builtin.arity = 2 := by cases c <;> rfl
    obtain ⟨p, q, m', hrun, hle, hfault', hp, hq⟩ := hgives₁.eval_call hgives₂ hv hc harity
      depth (ρ := ρ) hfault hserves (Covers.nil [])
    rw [hdepth, hrun, run_comparison hp hq]
    exact ⟨hfault', (hstandard.of_le hle.1).decode_boolAddr _⟩
  | _ => cases herase

/-- **Arithmetic is exact modulo `2 ^ 64`.** In every session, an expression of literals, names bound
by `let` and the core functions `+`, `-` and `*` evaluates to the integer from `-2 ^ 63` up to
`2 ^ 63` that is congruent to its value in the unbounded integers. So two expressions with values
that are congruent, as by the laws of rings, evaluate to the same; and a comparison of two such
expressions compares the integers that they evaluate to. -/
theorem arithmetic_exact (hs : s.Reachable) (hlimit : 0 < s.callLimit)
    (hf : f.Computes s.env s.ns [] [] a) (ρ : String → ℤ) :
    ∃ n : Int64, (eval f s).1 = .ok (.value (.int n) .int) ∧
      -2 ^ 63 ≤ n.toInt ∧ n.toInt < 2 ^ 63 ∧ n.toInt ≡ a.value ρ [ZMOD 2 ^ 64] ∧
      ∀ {g : Form} {b : Arith}, g.Computes s.env s.ns [] [] b →
        (a.value ρ ≡ b.value ρ [ZMOD 2 ^ 64] → (eval g s).1 = (eval f s).1) ∧
        ∃ m : Int64, (eval g s).1 = .ok (.value (.int m) .int) ∧
          ∀ {head : Atom} {c : Comparison}, s.env.Means s.ns [] head c.builtin → ∀ hr r : Range,
            (eval (.seq .list [.atom head hr, f, g] r) s).1 =
              .ok (.value (.bool (c.holds n.toInt m.toInt)) .bool) := by
  have hvalue := eval_of_computes hs hlimit hf ρ
  refine ⟨_, hvalue, Int64.le_toInt _, Int64.toInt_lt _, toInt_ofInt_modEq _, fun {g b} hg => ?_⟩
  refine ⟨fun hmod => ?_, _, eval_of_computes hs hlimit hg ρ, fun hhead hr r =>
    eval_of_comparison hs hlimit hf hg hhead hr r ρ⟩
  rw [eval_of_computes hs hlimit hg ρ, hvalue, ofInt_eq_of_modEq hmod]

/-- A symbol at some place. -/
def symbolForm (name : String) : Form := .atom (.symbol name) default

/-- The form `(let [a 9223372036854775807 b (* a a)] (- b (+ a a)))`, which overflows at every
operation. -/
def overflowing : Form :=
  .seq .list [symbolForm "let",
    .seq .vector [symbolForm "a", .atom (.int 9223372036854775807) default,
      symbolForm "b", .seq .list [symbolForm "*", symbolForm "a", symbolForm "a"] default] default,
    .seq .list [symbolForm "-", symbolForm "b",
      .seq .list [symbolForm "+", symbolForm "a", symbolForm "a"] default] default] default

/-- What it computes. -/
def overflow : Arith :=
  .letIn "a" (.lit 9223372036854775807) (.letIn "b" (.op .mul (.name "a") (.name "a"))
    (.op .sub (.name "b") (.op .add (.name "a") (.name "a"))))

theorem means_start {names : List String} (b : Builtin) (hb : b.name ∉ names) :
    (start 100).env.Means (start 100).ns names (.symbol b.name) b := by
  refine ⟨rfl, hb, ?_⟩
  have hvar : ((start 100).env.resolveVar (start 100).ns b.name).map
      (fun v => (v.name, v.kind)) = some (⟨coreNs, b.name⟩, .builtin b.arity) := by
    cases b <;> decide +kernel
  obtain ⟨v, hv, hname⟩ := Option.map_eq_some_iff.1 hvar
  exact ⟨v, hv, (Prod.mk.inj hname).1, (Prod.mk.inj hname).2⟩

theorem computes_overflowing :
    overflowing.Computes (start 100).env (start 100).ns [] [] overflow := by
  refine .letIn (.bind (by decide) _ (.lit _ _) (.bind (by decide) _ ?_ ?_)) _ _ _
  · exact .op (o := .mul) (means_start .mul (by decide)) (.name (by decide) _)
      (.name (by decide) _) _ _
  · exact .op (o := .sub) (means_start .sub (by decide)) (.name (by decide) _)
      (.op (o := .add) (means_start .add (by decide)) (.name (by decide) _) (.name (by decide) _) _ _)
      _ _

/-- With `a = 2 ^ 63 - 1`, the value `a * a - (a + a)` wraps to `3`. -/
theorem arithmetic_exact_overflowing :
    overflowing.Computes (start 100).env (start 100).ns [] [] overflow ∧
      (eval overflowing (start 100)).1 = .ok (.value (.int 3) .int) := by
  refine ⟨computes_overflowing, ?_⟩
  obtain ⟨n, heval, hlow, hhigh, hmod, -⟩ :=
    arithmetic_exact (.start 100) (by decide +kernel) computes_overflowing fun _ => 0
  have hn : n.toInt = (3 : Int64).toInt := by
    have hvalue : overflow.value (fun _ => 0) =
        9223372036854775807 * 9223372036854775807 - (9223372036854775807 + 9223372036854775807) :=
      by decide
    rw [hvalue] at hmod
    unfold Int.ModEq at hmod
    have hthree : (3 : Int64).toInt = 3 := by decide
    omega
  rw [heval, Int64.toInt_inj.1 hn]

end Session

end TypedLisp
