import Mathlib.Data.List.Basic
import Mathlib.Tactic.Common
import TypedLisp.Expr

/-!
# Expressions as trees

Induction on expressions, how `Expr.map` goes through them, and what it is for an expression to be
*scoped*: every local it refers to is bound around it, what it binds is new, and the items of a map
come in pairs. Definitions and declarations stand at top level only, so a scoped expression has
none. Neither that nor the vars an expression refers to depend on what its nodes carry
(`Expr.anns`).
-/

namespace TypedLisp

namespace Expr

variable {α β γ : Type}

@[induction_eliminator]
theorem ind {motive : Expr α → Prop} (literal : ∀ v n, motive (.literal v n))
    (collection : ∀ k es n, (∀ e ∈ es, motive e) → motive (.collection k es n))
    (localVar : ∀ x n, motive (.localVar x n)) (globalVar : ∀ v n, motive (.globalVar v n))
    (call : ∀ f es n, motive f → (∀ e ∈ es, motive e) → motive (.call f es n))
    (callVar : ∀ v es n, (∀ e ∈ es, motive e) → motive (.callVar v es n))
    (letIn : ∀ bs e n, (∀ b ∈ bs, motive b.2) → motive e → motive (.letIn bs e n))
    (ite : ∀ t a b n, motive t → motive a → motive b → motive (.ite t a b n))
    (fn : ∀ ps e n, motive e → motive (.fn ps e n))
    (define : ∀ g d e n, motive e → motive (.define g d e n))
    (declare : ∀ d n, motive (.declare d n)) (e : Expr α) : motive e :=
  @Expr.rec α motive (fun es => ∀ e ∈ es, motive e) (fun bs => ∀ b ∈ bs, motive b.2)
    (fun b => motive b.2)
    literal collection localVar globalVar call callVar letIn ite fn define declare
    (fun _ h => nomatch h)
    (fun e es he hes u hu => by
      rcases List.mem_cons.1 hu with rfl | hu
      · exact he
      · exact hes u hu)
    (fun _ h => nomatch h)
    (fun b bs hb hbs u hu => by
      rcases List.mem_cons.1 hu with rfl | hu
      · exact hb
      · exact hbs u hu)
    (fun _ _ he => he) e

/-! ## Formers -/

end Expr

/-- What puts expressions of one scope together to an expression. -/
inductive Former where
  | collection (kind : Collection)
  /-- A call of the first part with the others. -/
  | call
  | callVar (v : Var)
  /-- A test and two branches. -/
  | ite

namespace Former

variable {α : Type}

/-- Whether a former puts some number of parts together. -/
def Takes : Former → Nat → Prop
  | .call, n => 0 < n
  | .ite, n => n = 3
  | _, _ => True

/-- The expression that is put together from some parts. If their number is wrong it is a vector of
them. -/
def expr : Former → List (Expr α) → Note α → Expr α
  | .collection kind, es, n => .collection kind es n
  | .call, e :: es, n => .call e es n
  | .callVar v, es, n => .callVar v es n
  | .ite, [t, a, b], n => .ite t a b n
  | _, es, n => .collection .vector es n

/-- The vars that a former refers to itself. -/
def vars : Former → List Var
  | .callVar v => [v]
  | _ => []

end Former

namespace Expr

variable {α β γ : Type} {f : α → β} {bound : List Local} {es : List (Expr α)}
  {bs : List (Local × Expr α)}

/-- Induction on expressions in which everything that is put together in one scope is one case. -/
theorem indFormer {motive : Expr α → Prop} (literal : ∀ v n, motive (.literal v n))
    (localVar : ∀ x n, motive (.localVar x n)) (globalVar : ∀ v n, motive (.globalVar v n))
    (former : ∀ φ es n, Former.Takes φ es.length → (∀ e ∈ es, motive e) → motive (φ.expr es n))
    (letIn : ∀ bs e n, (∀ b ∈ bs, motive b.2) → motive e → motive (.letIn bs e n))
    (fn : ∀ ps e n, motive e → motive (.fn ps e n))
    (define : ∀ g d e n, motive e → motive (.define g d e n))
    (declare : ∀ d n, motive (.declare d n)) (e : Expr α) : motive e := by
  induction e with
  | literal v n => exact literal v n
  | collection kind es n ih => exact former (.collection kind) es n trivial ih
  | localVar x n => exact localVar x n
  | globalVar v n => exact globalVar v n
  | call e es n ihe ih =>
    exact former .call (e :: es) n (Nat.succ_pos _) (List.forall_mem_cons.2 ⟨ihe, ih⟩)
  | callVar v es n ih => exact former (.callVar v) es n trivial ih
  | letIn bs e n ihbs ihe => exact letIn bs e n ihbs ihe
  | ite t a b n iht iha ihb => exact former .ite [t, a, b] n rfl (by simp [iht, iha, ihb])
  | fn ps e n ih => exact fn ps e n ih
  | define g d e n ih => exact define g d e n ih
  | declare d n => exact declare d n

/-! ## Changing what nodes carry -/

@[simp] theorem mapAll_eq_map (f : α → β) (es : List (Expr α)) : mapAll f es = es.map (map f) := by
  induction es with
  | nil => rfl
  | cons e es ih => simp [mapAll, ih]

@[simp] theorem mapBindings_eq_map (f : α → β) (bs : List (Local × Expr α)) :
    mapBindings f bs = bs.map fun b => (b.1, b.2.map f) := by
  induction bs with
  | nil => rfl
  | cons b bs ih =>
    obtain ⟨x, e⟩ := b
    simp [mapBindings, ih]

@[simp] theorem ann_map (f : α → β) (e : Expr α) : (e.map f).ann = f e.ann := by
  cases e <;> rfl

@[simp] theorem map_former (f : α → β) (φ : Former) (es : List (Expr α)) (n : Note α) :
    (φ.expr es n).map f = φ.expr (es.map (map f)) (n.map f) := by
  cases φ <;> rcases es with _ | ⟨_, _ | ⟨_, _ | ⟨_, _ | _⟩⟩⟩ <;> simp [Former.expr, map]

@[simp] theorem ann_former (φ : Former) (es : List (Expr α)) (n : Note α) :
    (φ.expr es n).ann = n.ann := by
  cases φ <;> rcases es with _ | ⟨_, _ | ⟨_, _ | ⟨_, _ | _⟩⟩⟩ <;> rfl

theorem map_map (f : α → β) (g : β → γ) (e : Expr α) : (e.map f).map g = e.map (g ∘ f) := by
  induction e using indFormer with
  | literal | localVar | globalVar | declare => rfl
  | former φ es n _ ih =>
    rw [map_former, map_former, map_former, List.map_map]
    exact congrArg (φ.expr · (n.map (g ∘ f))) (List.map_congr_left ih)
  | letIn bs e n ihbs ihe =>
    simp only [map, mapBindings_eq_map, List.map_map, Expr.letIn.injEq, ihe, true_and]
    refine ⟨List.map_congr_left fun b hb => ?_, rfl⟩
    simp [ihbs b hb]
  | fn ps e n ih =>
    simp only [map, Expr.fn.injEq, ih, true_and]
    rfl
  | define g d e n ih =>
    simp only [map, Expr.define.injEq, ih, true_and]
    rfl

theorem map_id (e : Expr α) : e.map id = e := by
  induction e using indFormer with
  | literal | localVar | globalVar | declare => rfl
  | former φ es n _ ih =>
    rw [map_former, List.map_congr_left ih, List.map_id']
    rfl
  | letIn bs e n ihbs ihe =>
    have hbs : (bs.map fun b => (b.1, b.2.map id)) = bs := by
      rw [List.map_congr_left fun b hb => by rw [ihbs b hb], List.map_id']
    simp only [map, mapBindings_eq_map, hbs, ihe]
    rfl
  | fn ps e n ih =>
    simp only [map, ih]
    rfl
  | define g d e n ih =>
    simp only [map, ih]
    rfl

/-! ## What nodes carry -/

mutual

/-- What the nodes of an expression carry. -/
def anns : Expr α → List α
  | .literal _ n => [n.ann]
  | .collection _ items n => n.ann :: annsAll items
  | .localVar _ n => [n.ann]
  | .globalVar _ n => [n.ann]
  | .call callee args n => n.ann :: (anns callee ++ annsAll args)
  | .callVar _ args n => n.ann :: annsAll args
  | .letIn bindings body n => n.ann :: (annsLet bindings ++ anns body)
  | .ite test thenBranch elseBranch n =>
    n.ann :: (anns test ++ (anns thenBranch ++ anns elseBranch))
  | .fn _ body n => n.ann :: anns body
  | .define _ _ body n => n.ann :: anns body
  | .declare _ n => [n.ann]

/-- The same for several expressions. -/
def annsAll : List (Expr α) → List α
  | [] => []
  | e :: es => anns e ++ annsAll es

/-- The same for bindings. -/
def annsLet : List (Local × Expr α) → List α
  | [] => []
  | (_, e) :: bs => anns e ++ annsLet bs

end

@[simp] theorem annsAll_eq_flatMap (es : List (Expr α)) : annsAll es = es.flatMap anns := by
  induction es with
  | nil => rfl
  | cons e es ih => rw [annsAll, ih, List.flatMap_cons]

@[simp] theorem annsLet_eq_flatMap (bs : List (Local × Expr α)) :
    annsLet bs = bs.flatMap fun b => b.2.anns := by
  induction bs with
  | nil => rfl
  | cons b bs ih => rw [annsLet, ih, List.flatMap_cons]

theorem ann_mem_anns (e : Expr α) : e.ann ∈ e.anns := by
  cases e <;> simp [anns, ann, note]

@[simp] theorem anns_former (φ : Former) (es : List (Expr α)) (n : Note α) :
    (φ.expr es n).anns = n.ann :: es.flatMap anns := by
  cases φ <;> rcases es with _ | ⟨_, _ | ⟨_, _ | ⟨_, _ | _⟩⟩⟩ <;> simp [Former.expr, anns]

theorem anns_map (f : α → β) (e : Expr α) : (e.map f).anns = e.anns.map f := by
  induction e using indFormer with
  | literal | localVar | globalVar | declare => rfl
  | former φ es n _ ih =>
    simp only [map_former, anns_former, List.flatMap_map, List.map_cons, List.map_flatMap, Note.map]
    rw [List.flatMap_congr ih]
  | letIn bs e n ihbs ihe =>
    simp only [map, mapBindings_eq_map, anns, annsLet_eq_flatMap, List.flatMap_map, List.map_cons,
      List.map_append, List.map_flatMap, Note.map, ihe]
    rw [List.flatMap_congr ihbs]
  | fn ps e n ih | define g d e n ih => simp [map, anns, Note.map, ih]

/-- What becomes of an expression depends on what becomes of its annotations only. -/
theorem map_congr {g : α → β} {e : Expr α} (h : ∀ a ∈ e.anns, f a = g a) : e.map f = e.map g := by
  have hnote : ∀ n : Note α, f n.ann = g n.ann → n.map f = n.map g := fun n hn =>
    congrArg (Note.mk n.range) hn
  induction e using indFormer with
  | literal v n | localVar x n | globalVar v n | declare d n =>
    simp only [map, hnote n (h _ (List.mem_singleton_self _))]
  | former φ es n _ ih =>
    rw [anns_former] at h
    obtain ⟨hn, hes⟩ := List.forall_mem_cons.1 h
    rw [map_former, map_former, hnote n hn,
      List.map_congr_left fun e he => ih e he fun a ha => hes a (List.mem_flatMap.2 ⟨e, he, ha⟩)]
  | letIn bs e n ihbs ihe =>
    obtain ⟨hn, h⟩ := List.forall_mem_cons.1 h
    obtain ⟨hbs, he⟩ := List.forall_mem_append.1 h
    rw [annsLet_eq_flatMap] at hbs
    have hb : ∀ b ∈ bs, (b.1, b.2.map f) = (b.1, b.2.map g) := fun b hb =>
      congrArg (Prod.mk b.1) (ihbs b hb fun a ha => hbs a (List.mem_flatMap.2 ⟨b, hb, ha⟩))
    simp only [map, mapBindings_eq_map, hnote n hn, ihe he, List.map_congr_left hb]
  | fn ps e n ih | define _ _ e n ih =>
    obtain ⟨hn, he⟩ := List.forall_mem_cons.1 h
    simp only [map, hnote n hn, ih he]

/-! ## Scoped expressions -/

mutual

/-- Whether an expression is scoped where the locals `bound` are bound. -/
def Scoped (bound : List Local) : Expr α → Prop
  | .literal _ _ => True
  | .collection kind items _ => ScopedAll bound items ∧ (kind = .map → items.length % 2 = 0)
  | .localVar x _ => x ∈ bound
  | .globalVar _ _ => True
  | .call callee args _ => Scoped bound callee ∧ ScopedAll bound args
  | .callVar _ args _ => ScopedAll bound args
  | .letIn bindings body _ =>
    ScopedLet bound bindings ∧ Scoped ((bindings.map Prod.fst).reverse ++ bound) body
  | .ite test thenBranch elseBranch _ =>
    Scoped bound test ∧ Scoped bound thenBranch ∧ Scoped bound elseBranch
  | .fn params body _ => params.Nodup ∧ (∀ p ∈ params, p ∉ bound) ∧ Scoped (params ++ bound) body
  | .define _ _ _ _ => False
  | .declare _ _ => False

/-- The same for several expressions. -/
def ScopedAll (bound : List Local) : List (Expr α) → Prop
  | [] => True
  | e :: es => Scoped bound e ∧ ScopedAll bound es

/-- The same for bindings, each of which is bound in those after it. -/
def ScopedLet (bound : List Local) : List (Local × Expr α) → Prop
  | [] => True
  | (x, e) :: bs => x ∉ bound ∧ Scoped bound e ∧ ScopedLet (x :: bound) bs

end

theorem scopedAll_iff :
    ScopedAll bound es ↔ ∀ e ∈ es, e.Scoped bound := by
  induction es with
  | nil => simp [ScopedAll]
  | cons e es ih => simp [ScopedAll, ih]

theorem scoped_former {φ : Former} {n : Note α} :
    (φ.expr es n).Scoped bound ↔
      ScopedAll bound es ∧ (φ = .collection .map → es.length % 2 = 0) := by
  cases φ <;> rcases es with _ | ⟨_, _ | ⟨_, _ | ⟨_, _ | _⟩⟩⟩ <;>
    simp [Former.expr, Scoped, ScopedAll]

theorem scopedLet_map_of
    (h : ∀ b ∈ bs, ∀ bound, (b.2.map f).Scoped bound ↔ b.2.Scoped bound) (bound : List Local) :
    ScopedLet bound (bs.map fun b => (b.1, b.2.map f)) ↔ ScopedLet bound bs := by
  induction bs generalizing bound with
  | nil => exact Iff.rfl
  | cons b bs ih =>
    exact and_congr Iff.rfl (and_congr (h b (List.mem_cons_self ..) bound)
      (ih (fun d hd => h d (List.mem_cons_of_mem _ hd)) _))

theorem scoped_map (e : Expr α) (bound : List Local) :
    (e.map f).Scoped bound ↔ e.Scoped bound := by
  induction e using indFormer generalizing bound with
  | literal | localVar | globalVar | declare | define => exact Iff.rfl
  | former φ es n _ ih =>
    rw [map_former, scoped_former, scoped_former, scopedAll_iff, scopedAll_iff, List.forall_mem_map,
      List.length_map]
    exact and_congr_left fun _ => forall₂_congr fun e he => ih e he bound
  | letIn bs e n ihbs ihe =>
    have hnames : (bs.map fun b => (b.1, b.2.map f)).map Prod.fst = bs.map Prod.fst := by
      rw [List.map_map]
      rfl
    simp only [map, mapBindings_eq_map, Scoped, scopedLet_map_of ihbs, hnames, ihe]
  | fn ps e n ih => simp only [map, Scoped, ih]

theorem ScopedLet.not_mem
    (h : ScopedLet bound bs) {x : Local} (hx : x ∈ bs.map Prod.fst) : x ∉ bound := by
  induction bs generalizing bound with
  | nil => simp at hx
  | cons b bs ih =>
    obtain ⟨y, e⟩ := b
    obtain ⟨hy, -, hbs⟩ := h
    rcases List.mem_cons.1 hx with rfl | hx
    · exact hy
    · exact fun hb => ih hbs hx (List.mem_cons_of_mem _ hb)

theorem freeLocals_former (bound : List Local) (φ : Former) (es : List (Expr α)) (n : Note α) :
    (φ.expr es n).freeLocals bound = freeLocalsAll bound es := by
  cases φ <;> rcases es with _ | ⟨_, _ | ⟨_, _ | ⟨_, _ | _⟩⟩⟩ <;>
    simp [Former.expr, freeLocals, freeLocalsAll]

/-! ## Locals that an expression binds -/

mutual

/-- The locals that an expression binds, in the order in which analysis makes them. -/
def binders : Expr α → List Local
  | .literal _ _ => []
  | .collection _ es _ => bindersAll es
  | .localVar _ _ => []
  | .globalVar _ _ => []
  | .call c es _ => bindersAll es ++ binders c
  | .callVar _ es _ => bindersAll es
  | .letIn bs b _ => bindersLet bs ++ binders b
  | .ite t a b _ => binders t ++ (binders a ++ binders b)
  | .fn ps b _ => ps ++ binders b
  | .define _ _ b _ => binders b
  | .declare _ _ => []

/-- The same for several expressions. -/
def bindersAll : List (Expr α) → List Local
  | [] => []
  | e :: es => binders e ++ bindersAll es

/-- The same for bindings, each of which binds its local after its expression. -/
def bindersLet : List (Local × Expr α) → List Local
  | [] => []
  | (x, e) :: bs => binders e ++ x :: bindersLet bs

end

theorem mem_binders_former {x : Local} {φ : Former} {n : Note α} :
    x ∈ (φ.expr es n).binders ↔ ∃ e ∈ es, x ∈ e.binders := by
  have hall : ∀ es : List (Expr α), x ∈ bindersAll es ↔ ∃ e ∈ es, x ∈ e.binders := fun es => by
    induction es with
    | nil => simp [bindersAll]
    | cons e es ih => simp [bindersAll, ih]
  rw [← hall]
  cases φ <;> rcases es with _ | ⟨_, _ | ⟨_, _ | ⟨_, _ | _⟩⟩⟩ <;>
    simp [Former.expr, binders, bindersAll] <;> tauto

/-- More locals may be bound around bindings, as long as the bindings do not bind them. -/
theorem ScopedLet.widen_of {bound' : List Local}
    (h : ∀ b ∈ bs, ∀ {bound bound' : List Local}, b.2.Scoped bound → bound ⊆ bound' →
      (∀ x ∈ b.2.binders, x ∈ bound' → x ∈ bound) → b.2.Scoped bound')
    (hbs : ScopedLet bound bs) (hsub : bound ⊆ bound')
    (hnew : ∀ x ∈ bindersLet bs, x ∈ bound' → x ∈ bound) : ScopedLet bound' bs := by
  induction bs generalizing bound bound' with
  | nil => trivial
  | cons b bs ih =>
    obtain ⟨hx, he, hbs⟩ := hbs
    obtain ⟨hb, hrest⟩ := List.forall_mem_cons.1 h
    simp only [bindersLet, List.forall_mem_append, List.forall_mem_cons] at hnew
    obtain ⟨hnewe, hnewx, hnewbs⟩ := hnew
    refine ⟨fun hx' => hx (hnewx hx'), hb he hsub hnewe,
      ih hrest hbs (List.cons_subset_cons _ hsub) fun y hy hy' => ?_⟩
    exact List.mem_cons.2 ((List.mem_cons.1 hy').imp_right (hnewbs y hy))

/-- More locals may be bound around an expression, as long as it does not bind them. -/
theorem Scoped.widen {e : Expr α} {bound' : List Local} (h : e.Scoped bound)
    (hsub : bound ⊆ bound') (hnew : ∀ x ∈ e.binders, x ∈ bound' → x ∈ bound) :
    e.Scoped bound' := by
  induction e using indFormer generalizing bound bound' with
  | literal | globalVar => trivial
  | define | declare => exact h.elim
  | localVar x n => exact hsub h
  | former φ es n _ ih =>
    obtain ⟨hes, heven⟩ := scoped_former.1 h
    refine scoped_former.2 ⟨scopedAll_iff.2 fun e he => ?_, heven⟩
    exact ih e he (scopedAll_iff.1 hes e he) hsub fun x hx =>
      hnew x (mem_binders_former.2 ⟨e, he, hx⟩)
  | letIn bs e n ihbs ihe =>
    obtain ⟨hnewbs, hnewe⟩ := List.forall_mem_append.1 hnew
    refine ⟨.widen_of ihbs h.1 hsub hnewbs,
      ihe h.2 (List.append_subset.2 ⟨List.subset_append_left .., List.subset_append_of_subset_right _ hsub⟩)
        fun x hx hx' => ?_⟩
    exact List.mem_append.2 ((List.mem_append.1 hx').imp_right (hnewe x hx))
  | fn ps e n ih =>
    obtain ⟨hnewps, hnewe⟩ := List.forall_mem_append.1 hnew
    obtain ⟨hnodup, hps, he⟩ := h
    refine ⟨hnodup, fun p hp hp' => hps p hp (hnewps p hp hp'),
      ih he (List.append_subset.2 ⟨List.subset_append_left .., List.subset_append_of_subset_right _ hsub⟩)
        fun x hx hx' => ?_⟩
    exact List.mem_append.2 ((List.mem_append.1 hx').imp_right (hnewe x hx))

/-! ## The vars of an expression -/

mutual

/-- The vars that an expression refers to, as often as they occur. -/
def vars : Expr α → List Var
  | .literal _ _ => []
  | .collection _ items _ => varsAll items
  | .localVar _ _ => []
  | .globalVar v _ => [v]
  | .call callee args _ => vars callee ++ varsAll args
  | .callVar v args _ => v :: varsAll args
  | .letIn bindings body _ => varsLet bindings ++ vars body
  | .ite test thenBranch elseBranch _ => vars test ++ (vars thenBranch ++ vars elseBranch)
  | .fn _ body _ => vars body
  | .define _ _ body _ => vars body
  | .declare _ _ => []

/-- The same for several expressions. -/
def varsAll : List (Expr α) → List Var
  | [] => []
  | e :: es => vars e ++ varsAll es

/-- The same for bindings. -/
def varsLet : List (Local × Expr α) → List Var
  | [] => []
  | (_, e) :: bs => vars e ++ varsLet bs

end

theorem varsAll_eq_flatMap (es : List (Expr α)) : varsAll es = es.flatMap vars := by
  induction es with
  | nil => rfl
  | cons e es ih => rw [varsAll, ih, List.flatMap_cons]

theorem varsLet_eq_flatMap (bs : List (Local × Expr α)) :
    varsLet bs = bs.flatMap fun b => b.2.vars := by
  induction bs with
  | nil => rfl
  | cons b bs ih => rw [varsLet, ih, List.flatMap_cons]

theorem vars_former (φ : Former) (es : List (Expr α)) (n : Note α) :
    (φ.expr es n).vars = φ.vars ++ varsAll es := by
  cases φ <;> rcases es with _ | ⟨_, _ | ⟨_, _ | ⟨_, _ | _⟩⟩⟩ <;>
    simp [Former.expr, Former.vars, vars, varsAll]

@[simp] theorem vars_map (f : α → β) (e : Expr α) : (e.map f).vars = e.vars := by
  induction e using indFormer with
  | literal | localVar | globalVar | declare => rfl
  | former φ es n _ ih =>
    rw [map_former, vars_former, vars_former, varsAll_eq_flatMap, varsAll_eq_flatMap,
      List.flatMap_map, List.flatMap_congr ih]
  | letIn bs e n ihbs ihe =>
    simp only [map, mapBindings_eq_map, vars, varsLet_eq_flatMap, List.flatMap_map, ihe]
    rw [List.flatMap_congr ihbs]
  | fn ps e n ih => exact ih
  | define g d e n ih => exact ih

end Expr

end TypedLisp
