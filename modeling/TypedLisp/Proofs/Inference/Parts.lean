import TypedLisp.Proofs.Inference.Soundness

/-!
# Inference at the parts of an analysed form

What inference returns for a part of an analysed form, in a scope of `let`s from around the part:
the part itself with types at its nodes, and demands on the locals that the part takes from outside
(`inferIn_faithful`). The demands are read off the uses by inference and the locals taken from
outside by closure analysis, two traversals that know nothing of each other.
-/

namespace TypedLisp

namespace Expr

variable {α : Type} {bound : List Local}

/-- The parts that a node is put together from. -/
def children : Expr α → List (Expr α)
  | .literal _ _ | .localVar _ _ | .globalVar _ _ | .declare _ _ => []
  | .collection _ es _ | .callVar _ es _ => es
  | .call callee args _ => callee :: args
  | .letIn bs body _ => bs.map Prod.snd ++ [body]
  | .ite t a b _ => [t, a, b]
  | .fn _ body _ | .define _ _ body _ => [body]

/-- `PartOf e r`: the expression `e` stands somewhere in `r`. -/
inductive PartOf : Expr α → Expr α → Prop
  | refl (e : Expr α) : PartOf e e
  | child {e c r : Expr α} (hc : c ∈ r.children) (h : PartOf e c) : PartOf e r

theorem ScopedLet.exists_scoped {bs : List (Local × Expr α)}
    (h : ScopedLet bound bs) {b : Local × Expr α} (hb : b ∈ bs) : ∃ bound', b.2.Scoped bound' := by
  induction bs generalizing bound with
  | nil => cases hb
  | cons c bs ih =>
    obtain ⟨-, hc, hbs⟩ := h
    rcases List.mem_cons.1 hb with rfl | hb
    · exact ⟨bound, hc⟩
    · exact ih hbs hb

theorem Scoped.exists_of_child {e c : Expr α} (h : e.Scoped bound)
    (hc : c ∈ e.children) : ∃ bound', c.Scoped bound' := by
  cases e with
  | literal | localVar | globalVar => cases hc
  | collection k es n => exact ⟨bound, scopedAll_iff.1 h.1 c hc⟩
  | callVar v es n => exact ⟨bound, scopedAll_iff.1 h c hc⟩
  | call f es n =>
    rcases List.mem_cons.1 hc with rfl | hc
    · exact ⟨bound, h.1⟩
    · exact ⟨bound, scopedAll_iff.1 h.2 c hc⟩
  | letIn bs body n =>
    rcases List.mem_append.1 hc with hc | hc
    · obtain ⟨b, hb, rfl⟩ := List.mem_map.1 hc
      exact h.1.exists_scoped hb
    · exact ⟨_, List.mem_singleton.1 hc ▸ h.2⟩
  | ite t a b n =>
    obtain ⟨ht, ha, hb⟩ := h
    simp only [children, List.mem_cons, List.not_mem_nil, or_false] at hc
    rcases hc with rfl | rfl | rfl
    exacts [⟨bound, ht⟩, ⟨bound, ha⟩, ⟨bound, hb⟩]
  | fn ps body n => exact ⟨_, List.mem_singleton.1 hc ▸ h.2.2⟩
  | define | declare => exact h.elim

theorem PartOf.exists_scoped {e r : Expr α} (h : PartOf e r)
    (hr : r.Scoped bound) : ∃ bound', e.Scoped bound' := by
  induction h generalizing bound with
  | refl => exact ⟨bound, hr⟩
  | child hc _ ih =>
    obtain ⟨bound', hc⟩ := hr.exists_of_child hc
    exact ih hc

end Expr

/-- Whether the `let`s in scope, and the locals of which their typings demand something, are not
bound inside an expression. -/
def LetScope.Around {α : Type} (scope : LetScope) (e : Expr α) : Prop :=
  ∀ y b, scope.lookup y = some b → y ∉ e.binders ∧ ∀ z ∈ b.demands.map Prod.fst, z ∉ e.binders

variable {α : Type} {order : α → JoinOrder} {scope : LetScope} {k k' : TyVar} {t : Typing}

theorem Demands.isOn_iff_mem {d : Demands} {z : Local} : d.IsOn z ↔ z ∈ d.map Prod.fst :=
  ⟨fun ⟨_, ht⟩ => mem_keys_of_lookup ht, exists_lookup_of_mem_keys⟩

/-- The `let`s in scope, and the locals of which their typings demand something. -/
def LetScope.locals (scope : LetScope) : List Local :=
  (scope.map Prod.fst).flatMap fun y =>
    y :: ((scope.lookup y).map (·.demands.map Prod.fst)).getD []

theorem LetScope.mem_locals {x : Local} : x ∈ scope.locals ↔
    ∃ y b, scope.lookup y = some b ∧ (x = y ∨ x ∈ b.demands.map Prod.fst) := by
  simp only [locals, List.mem_flatMap, List.mem_cons]
  constructor
  · rintro ⟨y, hy, hx⟩
    obtain ⟨b, hb⟩ := exists_lookup_of_mem_keys hy
    exact ⟨y, b, hb, by simpa [hb] using hx⟩
  · rintro ⟨y, b, hb, hx⟩
    exact ⟨y, mem_keys_of_lookup hb, by simpa [hb] using hx⟩

/-- The demands of a typing of an expression that is scoped somewhere, in a scope from around it:
all that the scope speaks of may be taken as bound around the expression. -/
theorem Expr.Scoped.isOn_iff {e : Expr α} {bound : List Local} (he : e.Scoped bound)
    (hscope : scope.Around e) (h : (inferInBy order scope e).run k = .ok (t, k')) (z : Local) :
    t.demands.IsOn z ↔ ∃ y ∈ e.freeLocals [], scope.LeadsTo y z := by
  have hinside : scope.Inside (scope.locals ++ bound) :=
    ⟨fun y b hb => List.mem_append_left _ (LetScope.mem_locals.2 ⟨y, b, hb, .inl rfl⟩),
      fun y b hb z hz => List.mem_append_left _
        (LetScope.mem_locals.2 ⟨y, b, hb, .inr (Demands.isOn_iff_mem.1 hz)⟩)⟩
  refine inferInBy_isOn_iff e h (he.widen (List.subset_append_right ..) fun x hx hx' => ?_) hinside z
  refine (List.mem_append.1 hx').resolve_left fun hnew => ?_
  obtain ⟨y, b, hb, rfl | hxb⟩ := LetScope.mem_locals.1 hnew
  · exact (hscope x b hb).1 hx
  · exact (hscope y b hb).2 x hxb hx

section TopLevel

variable {env : Env} {ns : String} {f : Form} {s s' : Supply} {root e : Expr Unit}

theorem isOn_iff_of_partOf (hf : f.EvenMaps) (ha : (analyse env ns f).run s = .ok (root, s'))
    (he : e.PartOf root) (hscope : scope.Around e)
    (h : (inferInBy (fun _ => .firstUse) scope e).run k = .ok (t, k')) (z : Local) :
    t.demands.IsOn z ↔ ∃ y ∈ e.freeLocals [], scope.LeadsTo y z := by
  obtain ⟨name, body, n, rfl, hbody⟩ | ⟨d, n, rfl, -⟩ | hroot := analyse_cases hf ha
  · cases he with
    | refl =>
      obtain ⟨u, hu, -, rfl⟩ := run_define.1 h
      exact hbody.isScoped.isOn_iff hscope hu z
    | child hc he =>
      obtain ⟨bound, he⟩ := he.exists_scoped (List.mem_singleton.1 hc ▸ hbody.isScoped)
      exact he.isOn_iff hscope h z
  · cases he with
    | refl =>
      obtain ⟨rfl, rfl⟩ := run_pure_eq_ok.1 h
      simp [Demands.IsOn, Expr.freeLocals]
    | child hc => cases hc
  · obtain ⟨bound, he⟩ := he.exists_scoped hroot.isScoped
    exact he.isOn_iff hscope h z

/-- **Inference tracks the locals taken from outside and leaves the program alone.** At every part of
an analysed form, in every scope from around it, the typed tree without its types is the part again.
The demands are on the locals that the part takes from outside and that are not in scope, and on those
that the typings in scope of the others make demands on; a part that takes nothing from outside
demands nothing. -/
theorem inferIn_faithful (hf : f.EvenMaps) (ha : (analyse env ns f).run s = .ok (root, s'))
    (he : e.PartOf root) (hscope : scope.Around e) (h : (inferIn scope e).run k = .ok (t, k')) :
    t.expr.erase = e ∧
    (∀ z, z ∈ t.demands.map Prod.fst ↔ (z ∈ e.closedOver [] ∧ scope.lookup z = none) ∨
      ∃ y ∈ e.closedOver [], ∃ b, scope.lookup y = some b ∧ z ∈ b.demands.map Prod.fst) ∧
    (e.closedOver [] = [] → t.demands = []) := by
  rw [inferIn_eq] at h
  have hdom : ∀ z, z ∈ t.demands.map Prod.fst ↔ (z ∈ e.closedOver [] ∧ scope.lookup z = none) ∨
      ∃ y ∈ e.closedOver [], ∃ b, scope.lookup y = some b ∧ z ∈ b.demands.map Prod.fst := by
    intro z
    rw [← Demands.isOn_iff_mem, isOn_iff_of_partOf hf ha he hscope h z]
    simp only [Expr.mem_closedOver, List.not_mem_nil, not_false_eq_true, true_and]
    constructor
    · rintro ⟨y, hy, hz⟩
      unfold LetScope.LeadsTo at hz
      split at hz
      · rename_i b hb
        exact .inr ⟨y, hy, b, hb, Demands.isOn_iff_mem.1 hz⟩
      · rename_i hnone
        exact .inl (hz ▸ ⟨hy, hnone⟩)
    · rintro (⟨hz, hnone⟩ | ⟨y, hy, b, hb, hz⟩)
      · exact ⟨z, hz, by simp [LetScope.LeadsTo, hnone]⟩
      · exact ⟨y, hy, by simpa [LetScope.LeadsTo, hb] using Demands.isOn_iff_mem.2 hz⟩
  refine ⟨?_, hdom, fun hclosed => ?_⟩
  · rw [(inferInBy_typedAs e h).erase, erase_self]
  · refine (List.map_eq_nil_iff (f := Prod.fst)).1 (List.eq_nil_iff_forall_not_mem.2 fun z hz => ?_)
    simpa [hclosed] using (hdom z).1 hz

end TopLevel

/-- The part `[(g true) (g 1)]` of `constantTwice`. -/
def constantUses : Expr Unit :=
  let use (v : Literal) : Expr Unit :=
    .call (.localVar ⟨"g", 3⟩ ⟨.nowhere, ()⟩) [.literal v ⟨.nowhere, ()⟩] ⟨.nowhere, ()⟩
  .collection .vector [use (.bool true), use (.int 1)] ⟨.nowhere, ()⟩

/-- The scope in which it stands: `g` is a function whose result is what `x` has to be. -/
def constantScope : LetScope := [(⟨"g", 3⟩, ⟨.fn [.var 0] (.var 1), [(⟨"x", 1⟩, .var 1)]⟩)]

/-- The part takes `g` from outside, and demands something of `x`. -/
theorem inferIn_faithful_constantTwice :
    constantUses.closedOver [] = [⟨"g", 3⟩] ∧
    ∃ t k, (inferIn constantScope constantUses).run 2 = .ok (t, k) ∧ t.expr.erase = constantUses ∧
      ∀ z, z ∈ t.demands.map Prod.fst ↔ z = ⟨"x", 1⟩ := by
  have ha : (analyse {} userNs constantTwice).run {} =
      .ok (.fn [⟨"x", 1⟩] (.letIn [(⟨"g", 3⟩, .fn [⟨"y", 2⟩] (.localVar ⟨"x", 1⟩ ⟨.nowhere, ()⟩)
        ⟨.nowhere, ()⟩)] constantUses ⟨.nowhere, ()⟩) ⟨.nowhere, ()⟩, ⟨0, 4⟩) := by cbv
  have hscope : constantScope.Around constantUses := fun y b _ => by
    simp [constantUses, Expr.binders, Expr.bindersAll]
  have hclosed : constantUses.closedOver [] = [⟨"g", 3⟩] := by cbv
  have hty : ((inferIn constantScope constantUses).run 2).map (·.1.ty) = .ok (.vector (.var 7)) := by
    cbv
  obtain ⟨t, k, ht⟩ : ∃ t k, (inferIn constantScope constantUses).run 2 = .ok (t, k) := by
    cases hrun : (inferIn constantScope constantUses).run 2 with
    | ok r => exact ⟨r.1, r.2, rfl⟩
    | error e => simp [hrun, Except.map] at hty
  obtain ⟨herase, hdom, -⟩ := inferIn_faithful evenMaps_constantTwice ha
    (.child (.head _) (.child (.tail _ (.head _)) (.refl constantUses))) hscope ht
  refine ⟨hclosed, t, k, ht, herase, fun z => ?_⟩
  rw [hdom z, hclosed]
  simp only [constantScope, List.mem_singleton, exists_eq_left, List.lookup_cons_self,
    Option.some.injEq, exists_eq_left', List.map_cons, List.map_nil]
  refine ⟨fun h => h.resolve_left ?_, .inr⟩
  rintro ⟨hz, hnone⟩
  simp [hz] at hnone

end TypedLisp
