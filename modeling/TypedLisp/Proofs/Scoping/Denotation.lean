import Mathlib.Data.List.Nodup
import TypedLisp.Proofs.Runtime.Lowering
import TypedLisp.Proofs.Scoping.Places

/-!
# What the parts of a form denote

`Denotes` says which expression a part of a form stands for, from where the part is. A bare symbol
is the local of the innermost binder of its name around it, and only where there is none the var
that the environment gives. A list `M` of places gives the locals of the binders. A definition or a
declaration stands only at the top (`DenotesTop`).
-/

namespace TypedLisp

open Form (Step namesFrom targets)

/-! ## Calls and free locals -/

namespace Expr

variable {α : Type}

theorem binders_mkCall (callee : Expr Unit) (es : List (Expr Unit)) (r : Range) :
    (mkCall callee es r).binders = bindersAll es ++ callee.binders := by
  cases callee <;> simp [mkCall, binders]

theorem freeLocals_mkCall (callee : Expr Unit) (es : List (Expr Unit)) (r : Range)
    (bound : List Local) :
    (mkCall callee es r).freeLocals bound = callee.freeLocals bound ++ freeLocalsAll bound es := by
  cases callee <;> simp [mkCall, freeLocals]

theorem mem_freeLocalsAll {es : List (Expr α)} {x : Local} {bound : List Local}
    (h : x ∈ freeLocalsAll bound es) :
    ∃ (i : Nat) (e : Expr α), es[i]? = some e ∧ x ∈ e.freeLocals bound := by
  induction es with
  | nil => cases h
  | cons e es ih =>
    rcases List.mem_append.1 h with he | hes
    · exact ⟨0, e, rfl, he⟩
    · obtain ⟨i, e', hi, he'⟩ := ih hes
      exact ⟨i + 1, e', hi, he'⟩

/-- A local that is free in bindings is free in one of them and not bound before it. -/
theorem mem_freeLocalsLet {bs : List (Local × Expr α)} {x : Local} (h : x ∈ freeLocalsLet [] bs) :
    ∃ j e, (bs.map Prod.snd)[j]? = some e ∧ x ∈ e.freeLocals [] ∧
      x ∉ (bs.map Prod.fst).take j := by
  induction bs with
  | nil => cases h
  | cons b bs ih =>
    rcases List.mem_append.1 h with he | hbs
    · exact ⟨0, b.2, rfl, he, List.not_mem_nil⟩
    · obtain ⟨hne, hx⟩ := (mem_freeLocalsLet_of (fun b _ => mem_freeLocals b.2) [b.1]).1 hbs
      obtain ⟨j, e, hj, he, hbefore⟩ := ih hx
      refine ⟨j + 1, e, hj, he, ?_⟩
      rw [List.map_cons, List.take_succ_cons, List.mem_cons, not_or]
      exact ⟨fun heq => hne (List.mem_singleton.2 heq), hbefore⟩

end Expr

/-! ## Denotation -/

/-- The brackets of a kind of collection. -/
def Collection.bracket : Collection → Bracket
  | .vector => .vector
  | .set => .set
  | .map => .map

theorem Collection.bracket_ne_list (k : Collection) : k.bracket ≠ .list := by cases k <;> nofun

/-- The heads of lists that are not calls. -/
def specialHeads : List String := ["let", "if", "fn"] ++ topLevelHeads

theorem Form.binds_call {head : Form} {args : List Form} {r : Range}
    (h : ∀ x ∈ specialHeads, head.symbol? ≠ some x) (σ : Step) :
    (Form.seq .list (head :: args) r).binds σ = [] :=
  binds_of_head (fun x hx => h x ((by decide : ["fn", "def", "let"] ⊆ specialHeads) hx)) σ

/-- `Denotes env ns root M p f e`: the part `f` at the place `p` of the form `root` stands for the
expression `e` in a namespace, if `M` gives the locals of the binders of `root`. -/
inductive Denotes (env : Env) (ns : String) (root : Form) (M : Binders) :
    Form.Place → Form → Expr Unit → Prop where
  | bool {p : Form.Place} {b : Bool} {r : Range} :
      Denotes env ns root M p (.atom (.bool b) r) (.literal (.bool b) (plainNote r))
  | int {p : Form.Place} {n : Int64} {r : Range} :
      Denotes env ns root M p (.atom (.int n) r) (.literal (.int n) (plainNote r))
  | str {p : Form.Place} {s : String} {r : Range} :
      Denotes env ns root M p (.atom (.str s) r) (.literal (.str s) (plainNote r))
  /-- A bare symbol is the local of the innermost binder of its name. -/
  | localVar {p q : Form.Place} {x : String} {y : Local} {r : Range}
      (hbinder : root.binder? p x = some q) (hy : (q, y) ∈ M) :
      Denotes env ns root M p (.atom (.symbol x) r) (.localVar y (plainNote r))
  /-- Where no binder of its name is around it, it is a var. -/
  | globalVar {p : Form.Place} {x : String} {v : Var} {r : Range}
      (hbinder : root.binder? p x = none) (hv : env.resolveVar ns x = some v) :
      Denotes env ns root M p (.atom (.symbol x) r) (.globalVar v (plainNote r))
  | qualified {p : Form.Place} {qualifier x : String} {v : Var} {r : Range}
      (hv : env.resolveQualifiedVar ns qualifier x = some v) :
      Denotes env ns root M p (.atom (.qualified qualifier x) r) (.globalVar v (plainNote r))
  | collection {p : Form.Place} {k : Collection} {fs : List Form} {es : List (Expr Unit)}
      {r : Range} (hlen : es.length = fs.length)
      (hitems : ∀ i f e, fs[i]? = some f → es[i]? = some e →
        Denotes env ns root M (p ++ [.item i]) f e) :
      Denotes env ns root M p (.seq k.bracket fs r) (.collection k es (plainNote r))
  | call {p : Form.Place} {head : Form} {args : List Form} {callee : Expr Unit}
      {es : List (Expr Unit)} {r : Range} (hhead : ∀ x ∈ specialHeads, head.symbol? ≠ some x)
      (hlen : es.length = args.length)
      (hargs : ∀ i f e, args[i]? = some f → es[i]? = some e →
        Denotes env ns root M (p ++ [.item (i + 1)]) f e)
      (hcallee : Denotes env ns root M (p ++ [.item 0]) head callee) :
      Denotes env ns root M p (.seq .list (head :: args) r) (Expr.mkCall callee es r)
  | ite {p : Form.Place} {head test a b : Form} {et ea eb : Expr Unit} {r : Range}
      (hhead : head.symbol? = some "if") (htest : Denotes env ns root M (p ++ [.item 1]) test et)
      (hthen : Denotes env ns root M (p ++ [.item 2]) a ea)
      (helse : Denotes env ns root M (p ++ [.item 3]) b eb) :
      Denotes env ns root M p (.seq .list [head, test, a, b] r) (.ite et ea eb (plainNote r))
  | fn {p : Form.Place} {head body : Form} {bracket : Bracket} {params : List Form}
      {xs : List Local} {e : Expr Unit} {r pr : Range} (hhead : head.symbol? = some "fn")
      (hbracket : bracket ∈ [.list, .vector]) (hnames : Names params xs)
      (hbinders : bindersAt p 0 1 xs ⊆ M) (hbody : Denotes env ns root M (p ++ [.item 2]) body e) :
      Denotes env ns root M p (.seq .list [head, .seq bracket params pr, body] r)
        (.fn xs e (plainNote r))
  | letIn {p : Form.Place} {head body : Form} {items : List Form} {bs : List (Local × Expr Unit)}
      {e : Expr Unit} {r vr : Range} (hhead : head.symbol? = some "let")
      (hlen : items.length = 2 * bs.length) (hnames : Names (targets items) (bs.map Prod.fst))
      (hbinders : bindersAt p 0 2 (bs.map Prod.fst) ⊆ M)
      (hvalues : ∀ j v ev, items[2 * j + 1]? = some v → (bs.map Prod.snd)[j]? = some ev →
        Denotes env ns root M (p ++ [.binding (2 * j + 1)]) v ev)
      (hbody : Denotes env ns root M (p ++ [.item 2]) body e) :
      Denotes env ns root M p (.seq .list [head, .seq .vector items vr, body] r)
        (.letIn bs e (plainNote r))

/-- What a form at top level stands for. -/
inductive DenotesTop (env : Env) (ns : String) (M : Binders) :
    Form → Expr Unit → Prop where
  | define {head body : Form} {name : String} {e : Expr Unit} {r tr : Range}
      (hhead : head.symbol? = some "def")
      (hbody : Denotes env ns (.seq .list [head, .atom (.symbol name) tr, body] r) M [.item 2]
        body e) :
      DenotesTop env ns M (.seq .list [head, .atom (.symbol name) tr, body] r)
        (.define ⟨ns, name⟩ ((env.var? ⟨ns, name⟩).bind (·.declared)) e (plainNote r))
  /-- A definition with parameters, which are in scope in the body. -/
  | defineFn {head target body : Form} {params : List Form} {name : String} {xs : List Local}
      {e : Expr Unit} {r tr : Range} (hhead : head.symbol? = some "def")
      (htarget : target.symbol? = some name) (hnames : Names params xs)
      (hbinders : bindersAt [] 1 1 xs ⊆ M)
      (hbody : Denotes env ns (.seq .list [head, .seq .list (target :: params) tr, body] r) M
        [.item 2] body e) :
      DenotesTop env ns M (.seq .list [head, .seq .list (target :: params) tr, body] r)
        (.define ⟨ns, name⟩ ((env.var? ⟨ns, name⟩).bind (·.declared)) (.fn xs e (plainNote r))
          (plainNote r))
  | declare {head : Form} {args : List Form} {x : String} {d : Declaration} {r : Range}
      (hhead : head.symbol? = some x) (hx : x ∈ ["::", "defdata", "defj", "ns"]) :
      DenotesTop env ns M (.seq .list (head :: args) r) (.declare d (plainNote r))
  | expr {f : Form} {e : Expr Unit} (h : Denotes env ns f M [] f e) : DenotesTop env ns M f e

section

variable {env : Env} {ns : String} {root f : Form} {M M' : Binders} {p : Form.Place}
  {e : Expr Unit}

theorem Denotes.mono (h : Denotes env ns root M p f e) (hM : M ⊆ M') :
    Denotes env ns root M' p f e := by
  induction h with
  | bool => exact .bool
  | int => exact .int
  | str => exact .str
  | localVar hbinder hy => exact .localVar hbinder (hM hy)
  | globalVar hbinder hv => exact .globalVar hbinder hv
  | qualified hv => exact .qualified hv
  | collection hlen _ ih => exact .collection hlen ih
  | call hhead hlen _ _ ihargs ihcallee => exact .call hhead hlen ihargs ihcallee
  | ite hhead _ _ _ iht iha ihb => exact .ite hhead iht iha ihb
  | fn hhead hbracket hnames hbinders _ ih =>
    exact .fn hhead hbracket hnames (List.Subset.trans hbinders hM) ih
  | letIn hhead hlen hnames hbinders _ _ ihvalues ihbody =>
    exact .letIn hhead hlen hnames (List.Subset.trans hbinders hM) ihvalues ihbody

/-! ## Free locals are those of binders around -/

/-- A binder around a part is one around its form, or one of those that the form binds over it. -/
theorem mem_enclosing_inner {σ : Step} {fs : List Form} {xs : List Local} {k d : Nat} {y : Local}
    (hM : (M.map Prod.fst).Nodup) (hp : root.at? p = some f) (hb : f.binds σ = namesFrom k d fs)
    (hxs : Names fs xs) (hbinders : bindersAt p k d xs ⊆ M) (hy : y ∉ xs)
    (h : ∃ b ∈ root.enclosing (p ++ [σ]), (b.1, y) ∈ M) :
    ∃ b ∈ root.enclosing p, (b.1, y) ∈ M := by
  obtain ⟨b, hmem, hbM⟩ := h
  rw [Form.enclosing_concat hp, hb, List.map_reverse, hxs.bindersAt] at hmem
  refine (List.mem_append.1 hmem).elim (fun hnew => ?_) fun hout => ⟨b, hout, hbM⟩
  obtain ⟨m, hm, rfl⟩ := List.mem_map.1 (List.mem_reverse.1 hnew)
  obtain rfl : y = m.2 :=
    congrArg Prod.snd (List.inj_on_of_nodup_map hM hbM (hbinders hm) rfl)
  refine absurd ?_ hy
  rw [← bindersAt_map_snd p k d xs]
  exact List.mem_map_of_mem hm

theorem mem_enclosing_step {σ : Step} {y : Local} (hp : root.at? p = some f)
    (hb : f.binds σ = []) (h : ∃ b ∈ root.enclosing (p ++ [σ]), (b.1, y) ∈ M) :
    ∃ b ∈ root.enclosing p, (b.1, y) ∈ M := by
  rwa [Form.enclosing_concat hp, hb] at h

/-- **The free locals of an expression are those of binders around its form.** -/
theorem Denotes.mem_enclosing {x : Local} (h : Denotes env ns root M p f e)
    (hM : (M.map Prod.fst).Nodup) (hp : root.at? p = some f) (hx : x ∈ e.freeLocals []) :
    ∃ b ∈ root.enclosing p, (b.1, x) ∈ M := by
  induction h with
  | bool | int | str | globalVar | qualified => cases hx
  | localVar hbinder hy =>
    obtain rfl : x = _ := List.mem_singleton.1 hx
    obtain ⟨b, hb, rfl⟩ := Form.mem_enclosing_of_binder? hbinder
    exact ⟨b, hb, hy⟩
  | @collection p k fs es r hlen _ ih =>
    obtain ⟨i, e, hi, hxe⟩ := Expr.mem_freeLocalsAll hx
    have hlt : i < fs.length := hlen ▸ (List.getElem?_eq_some_iff.1 hi).1
    have hf := List.getElem?_eq_getElem hlt
    exact mem_enclosing_step hp (Form.binds_of_ne_list k.bracket_ne_list _)
      (ih i _ e hf hi (by rw [Form.at?_concat hp]; exact hf) hxe)
  | @call p head args callee es r hhead hlen _ _ ihargs ihcallee =>
    have hb : ∀ σ, (Form.seq .list (head :: args) r).binds σ = [] := Form.binds_call hhead
    rw [Expr.freeLocals_mkCall] at hx
    rcases List.mem_append.1 hx with hx | hx
    · exact mem_enclosing_step hp (hb _) (ihcallee (by rw [Form.at?_concat hp]; rfl) hx)
    · obtain ⟨i, e, hi, hxe⟩ := Expr.mem_freeLocalsAll hx
      have hlt : i < args.length := hlen ▸ (List.getElem?_eq_some_iff.1 hi).1
      have hf := List.getElem?_eq_getElem hlt
      exact mem_enclosing_step hp (hb _)
        (ihargs i _ e hf hi (by rw [Form.at?_concat hp]; exact hf) hxe)
  | ite hhead _ _ _ iht iha ihb =>
    have hpart := Form.at?_concat hp
    simp only [Expr.freeLocals, List.mem_append] at hx
    rcases hx with (hx | hx) | hx
    · exact mem_enclosing_step hp (Form.binds_if hhead _) (iht (by rw [hpart]; rfl) hx)
    · exact mem_enclosing_step hp (Form.binds_if hhead _) (iha (by rw [hpart]; rfl) hx)
    · exact mem_enclosing_step hp (Form.binds_if hhead _) (ihb (by rw [hpart]; rfl) hx)
  | fn hhead _ hnames hbinders _ ih =>
    rw [Expr.freeLocals] at hx
    obtain ⟨hne, hx⟩ := (Expr.mem_freeLocals _ _).1 hx
    rw [List.append_nil] at hne
    exact mem_enclosing_inner hM hp (Form.binds_fn hhead) hnames hbinders hne
      (ih (by rw [Form.at?_concat hp]; rfl) hx)
  | @letIn p head body items bs e r vr hhead hlen hnames hbinders _ _ ihvalues ihbody =>
    rcases List.mem_append.1 hx with hx | hx
    · obtain ⟨j, ev, hj, hxe, hne⟩ := Expr.mem_freeLocalsLet hx
      have hlt : 2 * j + 1 < items.length := by
        have := (List.getElem?_eq_some_iff.1 hj).1
        rw [List.length_map] at this
        omega
      have hv := List.getElem?_eq_getElem hlt
      refine mem_enclosing_inner hM hp (Form.binds_let_binding hhead j) (hnames.take j) ?_ hne
        (ihvalues j _ ev hv hj (by rw [Form.at?_concat hp]; exact hv) hxe)
      exact fun m hm => hbinders (bindersAt_take_subset p 0 2 j _ hm)
    · obtain ⟨hne, hx⟩ := (Expr.mem_freeLocals _ _).1 hx
      rw [List.append_nil] at hne
      exact mem_enclosing_inner hM hp (Form.binds_let hhead) hnames hbinders hne
        (ihbody (by rw [Form.at?_concat hp]; rfl) hx)

end

end TypedLisp
