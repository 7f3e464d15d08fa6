import TypedLisp.Code.Lower
import TypedLisp.Proofs.Expression
import TypedLisp.Proofs.Monads

/-!
# How expressions have code

An expression that has code consists of expressions that have code, each in a scope of its own. What
holds of the code of all expressions can be proved along these lines (`Expr.lower_induction`).
-/

namespace TypedLisp

theorem lookupLocal_eq_ok {scope : List Local} {x y : Local} :
    lookupLocal scope x = .ok y ↔ x ∈ scope ∧ y = x := by
  unfold lookupLocal
  split
  · rename_i hx
    exact ⟨fun h => ⟨hx, (Except.ok.inj h).symm⟩, fun h => by rw [h.2]⟩
  · rename_i hx
    exact ⟨nofun, fun h => absurd h.1 hx⟩

theorem mapM_lookupLocal_eq_ok {scope xs ys : List Local} :
    xs.mapM (lookupLocal scope) = .ok ys ↔ xs ⊆ scope ∧ ys = xs := by
  induction xs generalizing ys with
  | nil =>
    rw [List.mapM_nil]
    exact ⟨fun h => ⟨List.nil_subset _, (Except.ok.inj h).symm⟩, fun h => by rw [h.2]; rfl⟩
  | cons x xs ih =>
    simp only [List.mapM_cons, bind_eq_ok, lookupLocal_eq_ok, ih, List.cons_subset]
    constructor
    · rintro ⟨_, ⟨hx, rfl⟩, _, ⟨hxs, rfl⟩, h⟩
      exact ⟨⟨hx, hxs⟩, (Except.ok.inj h).symm⟩
    · rintro ⟨⟨hx, hxs⟩, rfl⟩
      exact ⟨x, ⟨hx, rfl⟩, xs, ⟨hxs, rfl⟩, rfl⟩

namespace Expr

variable {α : Type} {P : List Local → Expr α → Code → Prop} {scope : List Local}

/-- Bindings and their code, of which `P` holds in the scope of the bindings before. -/
inductive LetCode (P : List Local → Expr α → Code → Prop) :
    List Local → List (Local × Expr α) → List (Local × Code) → Prop where
  | nil {scope : List Local} : LetCode P scope [] []
  | cons {scope : List Local} {x : Local} {e : Expr α} {c : Code} {bs : List (Local × Expr α)}
      {cs : List (Local × Code)} (h : P scope e c) (hs : LetCode P (x :: scope) bs cs) :
      LetCode P scope ((x, e) :: bs) ((x, c) :: cs)

theorem forall₂_of_lowerAll {es : List (Expr α)}
    (h : ∀ e ∈ es, ∀ {scope c}, e.lower scope = .ok c → P scope e c) {cs : List Code}
    (hcs : lowerAll scope es = .ok cs) : List.Forall₂ (P scope) es cs := by
  induction es generalizing cs with
  | nil =>
    cases hcs
    exact .nil
  | cons e es ih =>
    obtain ⟨he, hes⟩ := List.forall_mem_cons.1 h
    simp only [lowerAll, bind_eq_ok] at hcs
    obtain ⟨c, hc, cs', hcs', hcs⟩ := hcs
    cases hcs
    exact .cons (he hc) (ih hes hcs')

theorem letCode_of_lowerBindings {bs : List (Local × Expr α)}
    (h : ∀ b ∈ bs, ∀ {scope c}, b.2.lower scope = .ok c → P scope b.2 c)
    {cs : List (Local × Code)} (hcs : lowerBindings scope bs = .ok cs) : LetCode P scope bs cs := by
  induction bs generalizing scope cs with
  | nil =>
    cases hcs
    exact .nil
  | cons b bs ih =>
    obtain ⟨x, e⟩ := b
    obtain ⟨he, hbs⟩ := List.forall_mem_cons.1 h
    simp only [lowerBindings, bind_eq_ok] at hcs
    obtain ⟨c, hc, cs', hcs', hcs⟩ := hcs
    cases hcs
    exact .cons (he hc) (ih hbs hcs')

/-- **What holds of the code of expressions** holds if every kind of expression keeps it. -/
theorem lower_induction (literal : ∀ {scope} v n, P scope (.literal v n) (.literal v))
    (collection : ∀ {scope es cs} k n, List.Forall₂ (P scope) es cs →
      P scope (.collection k es n) (.collection k cs))
    (localVar : ∀ {scope x} n, x ∈ scope → P scope (.localVar x n) (.slot x))
    (globalVar : ∀ {scope} v n, P scope (.globalVar v n) (.load v.cell))
    (call : ∀ {scope f c es cs} n, P scope f c → List.Forall₂ (P scope) es cs →
      P scope (.call f es n) (.call c cs))
    (callVar : ∀ {scope v es cs n}, checkConstructor v es.length n.range = .ok () →
      List.Forall₂ (P scope) es cs → P scope (.callVar v es n) (.call (.load v.cell) cs))
    (letIn : ∀ {scope bs cs e c} n, LetCode P scope bs cs → P (bs.map Prod.fst ++ scope) e c →
      P scope (.letIn bs e n) (.letIn cs c))
    (ite : ∀ {scope t a b ct ca cb} n, P scope t ct → P scope a ca → P scope b cb →
      P scope (.ite t a b n) (.ite ct ca cb))
    (fn : ∀ {scope ps e c} n, e.closedOver ps ⊆ scope → e.lower (ps ++ e.closedOver ps) = .ok c →
      P (ps ++ e.closedOver ps) e c → P scope (.fn ps e n) (.closure ps (e.closedOver ps) c))
    {e : Expr α} {code : Code} (h : e.lower scope = .ok code) : P scope e code := by
  induction e generalizing scope code with
  | literal v n =>
    cases h
    exact literal v n
  | globalVar v n =>
    cases h
    exact globalVar v n
  | define | declare => cases h
  | localVar x n =>
    simp only [lower, bind_eq_ok, lookupLocal_eq_ok] at h
    obtain ⟨_, ⟨hx, rfl⟩, h⟩ := h
    cases h
    exact localVar n hx
  | collection k es n ih =>
    simp only [lower, bind_eq_ok] at h
    obtain ⟨cs, hcs, h⟩ := h
    cases h
    exact collection k n (forall₂_of_lowerAll ih hcs)
  | call f es n ihf ih =>
    simp only [lower, bind_eq_ok] at h
    obtain ⟨c, hc, cs, hcs, h⟩ := h
    cases h
    exact call n (ihf hc) (forall₂_of_lowerAll ih hcs)
  | callVar v es n ih =>
    simp only [lower, bind_eq_ok] at h
    obtain ⟨_, hcheck, cs, hcs, h⟩ := h
    cases h
    exact callVar hcheck (forall₂_of_lowerAll ih hcs)
  | letIn bs e n ihbs ihe =>
    simp only [lower, bind_eq_ok] at h
    obtain ⟨cs, hcs, c, hc, h⟩ := h
    cases h
    exact letIn n (letCode_of_lowerBindings ihbs hcs) (ihe hc)
  | ite t a b n iht iha ihb =>
    simp only [lower, bind_eq_ok] at h
    obtain ⟨ct, ht, ca, ha, cb, hb, h⟩ := h
    cases h
    exact ite n (iht ht) (iha ha) (ihb hb)
  | fn ps e n ih =>
    simp only [lower, bind_eq_ok, mapM_lookupLocal_eq_ok] at h
    obtain ⟨_, ⟨hsub, rfl⟩, c, hc, h⟩ := h
    cases h
    exact fn n hsub hc (ih hc)

end Expr

end TypedLisp
