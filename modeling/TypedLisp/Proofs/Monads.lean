import Mathlib.Order.Defs.Unbundled
import Mathlib.Tactic.Common

/-!
# Computations that can fail

When a computation of several steps has succeeded, each of its steps has. The lemmas here take such
computations apart, with and without a state, and put those together whose state stays when they
fail.
-/

namespace TypedLisp

variable {ε σ α β : Type} {x : Except ε α} {a : α} {s s' : σ}

theorem bind_eq_ok {f : α → Except ε β} {b : β} :
    x >>= f = .ok b ↔ ∃ a, x = .ok a ∧ f a = .ok b := by
  cases x with
  | ok a =>
    constructor
    · exact fun h => ⟨a, rfl, h⟩
    · rintro ⟨_, ⟨⟩, h⟩
      exact h
  | error e =>
    constructor
    · exact fun h => nomatch h
    · rintro ⟨_, ⟨⟩, -⟩

theorem toOption_eq_some : x.toOption = some a ↔ x = .ok a := by
  cases x with
  | ok b => exact ⟨fun h => congrArg _ (Option.some.inj h), fun h => congrArg _ (Except.ok.inj h)⟩
  | error e => exact ⟨nofun, nofun⟩

theorem run_bind_eq_ok {x : StateT σ (Except ε) α} {f : α → StateT σ (Except ε) β}
    {b : β} : (x >>= f).run s = .ok (b, s') ↔
      ∃ a s₁, x.run s = .ok (a, s₁) ∧ (f a).run s₁ = .ok (b, s') := by
  rw [StateT.run_bind, bind_eq_ok]
  exact ⟨fun ⟨⟨a, s₁⟩, h⟩ => ⟨a, s₁, h⟩, fun ⟨a, s₁, h⟩ => ⟨(a, s₁), h⟩⟩

theorem run_pure_eq_ok {b : α} :
    (pure a : StateT σ (Except ε) α).run s = .ok (b, s') ↔ a = b ∧ s = s' := by
  rw [StateT.run_pure]
  constructor
  · rintro ⟨⟩
    exact ⟨rfl, rfl⟩
  · rintro ⟨rfl, rfl⟩
    rfl

theorem run_get_eq_ok {t : σ} :
    (get : StateT σ (Except ε) σ).run s = .ok (t, s') ↔ t = s ∧ s' = s := by
  rw [StateT.run_get]
  constructor
  · rintro ⟨⟩
    exact ⟨rfl, rfl⟩
  · rintro ⟨rfl, rfl⟩
    rfl

theorem run_set_eq_ok {t : σ} {u : PUnit} :
    (set t : StateT σ (Except ε) PUnit).run s = .ok (u, s') ↔ s' = t := by
  rw [StateT.run_set]
  constructor
  · rintro ⟨⟩
    rfl
  · rintro rfl
    rfl

theorem run_throw_ne_ok {e : ε} :
    ¬ (throw e : StateT σ (Except ε) α).run s = .ok (a, s') := nofun

theorem run_liftM_eq_ok :
    (liftM x : StateT σ (Except ε) α).run s = .ok (a, s') ↔ x = .ok a ∧ s' = s := by
  cases x with
  | ok b =>
    constructor
    · rintro ⟨⟩
      exact ⟨rfl, rfl⟩
    · rintro ⟨⟨⟩, rfl⟩
      rfl
  | error e =>
    constructor
    · exact fun h => nomatch h
    · rintro ⟨⟨⟩, -⟩

section Changed

variable {α' β' γ : Type} {r : α → α'} {q : β → β'} {h : ε → ε}

/-- The computation with its result and its error changed. -/
def changed (r : α → α') (h : ε → ε) (x : Except ε α) : Except ε α' := (x.map r).mapError h

theorem changed_bind {x : Except ε α} {k : α → Except ε β} {k' : α' → Except ε β'}
    (hk : ∀ a, k' (r a) = changed q h (k a)) : changed r h x >>= k' = changed q h (x >>= k) := by
  cases x with
  | ok a => exact hk a
  | error e => rfl

theorem changed_mapM {f : α → Except ε β} {f' : α' → Except ε β'} {l : List α}
    (hf : ∀ a ∈ l, f' (r a) = changed q h (f a)) :
    (l.map r).mapM f' = changed (List.map q) h (l.mapM f) := by
  induction l with
  | nil => rfl
  | cons a l ih =>
    obtain ⟨ha, hl⟩ := List.forall_mem_cons.1 hf
    rw [List.map_cons, List.mapM_cons, List.mapM_cons, ha, ih hl]
    exact changed_bind fun b => changed_bind fun bs => rfl

theorem changed_foldlM {f : β → α → Except ε β} {f' : β → α' → Except ε β}
    (hf : ∀ b a, f' b (r a) = changed id h (f b a)) (l : List α) (b : β) :
    (l.map r).foldlM f' b = changed id h (l.foldlM f b) := by
  induction l generalizing b with
  | nil => rfl
  | cons a l ih =>
    rw [List.map_cons, List.foldlM_cons, List.foldlM_cons, hf]
    exact changed_bind ih

end Changed

section StateKept

variable {act : ExceptT ε (StateM σ) α} {k : α → ExceptT ε (StateM σ) β} {s s' : σ}

theorem bind_ok {a : α} (h : act s = (.ok a, s')) : (act >>= k) s = k a s' := by
  show ExceptT.bindCont k (act s).1 (act s).2 = _
  rw [h]
  rfl

theorem bind_error {e : ε} (h : act s = (.error e, s')) : (act >>= k) s = (.error e, s') := by
  show ExceptT.bindCont k (act s).1 (act s).2 = _
  rw [h]
  rfl

end StateKept

/-! ## Where actions lead -/

/-- Whether an action leads from every state to one that is related to it, whether it fails or
not. -/
def Advances (R : σ → σ → Prop) (act : ExceptT ε (StateM σ) α) : Prop := ∀ s, R s (act s).2

namespace Advances

variable {R : σ → σ → Prop} [IsPreorder σ R]

theorem pure (a : α) : Advances R (Pure.pure a : ExceptT ε (StateM σ) α) := fun s => refl s

theorem throw (e : ε) : Advances R (MonadExcept.throw e : ExceptT ε (StateM σ) α) := fun s => refl s

theorem throw_bind (e : ε) (k : α → ExceptT ε (StateM σ) β) :
    Advances R ((MonadExcept.throw e : ExceptT ε (StateM σ) α) >>= k) := fun s => refl s

theorem get : Advances R (MonadState.get : ExceptT ε (StateM σ) σ) := fun s => refl s

/-- Where an action leads from one state, and what comes after it from every state. -/
theorem bind_of {act : ExceptT ε (StateM σ) α} {k : α → ExceptT ε (StateM σ) β} {s : σ}
    (h : R s (act s).2) (hk : ∀ a, Advances R (k a)) : R s ((act >>= k) s).2 := by
  cases hrun : act s with
  | mk r s₁ =>
    rw [hrun] at h
    cases r with
    | error e => rwa [bind_error hrun]
    | ok a =>
      rw [bind_ok hrun]
      exact IsTrans.trans _ _ _ h (hk a s₁)

theorem bind {act : ExceptT ε (StateM σ) α} {k : α → ExceptT ε (StateM σ) β} (h : Advances R act)
    (hk : ∀ a, Advances R (k a)) : Advances R (act >>= k) := fun s => bind_of (h s) hk

end Advances

end TypedLisp
