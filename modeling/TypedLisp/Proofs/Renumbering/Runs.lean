import TypedLisp.Proofs.Monads

/-!
# Computations that follow one another

A computation with a state *follows* another one if, started in a changed state, it gives the
changed result and ends in the changed state, or it fails with the changed error. That analysis and
inference do not depend on the numbers they take from a supply is said in this way.
-/

namespace TypedLisp

variable {σ ε α β α' β' : Type}

/-- How the states and the errors of a computation are changed, and for which states. -/
structure Change (σ ε : Type) where
  state : σ → σ
  error : ε → ε
  Good : σ → Prop

/-- Whether a computation follows another one from every good state, and leads to a good state. -/
def Follows (c : Change σ ε) (r : α → α') (act : StateT σ (Except ε) α)
    (act' : StateT σ (Except ε) α') : Prop :=
  ∀ s, c.Good s → match act.run s with
    | .ok (a, s') => act'.run (c.state s) = .ok (r a, c.state s') ∧ c.Good s'
    | .error e => act'.run (c.state s) = .error (c.error e)

namespace Follows

variable {c : Change σ ε} {r : α → α'} {q : β → β'}

theorem run_ok {act : StateT σ (Except ε) α} {act' : StateT σ (Except ε) α'} {s s' : σ} {a : α}
    (h : Follows c r act act') (hs : c.Good s) (hrun : act.run s = .ok (a, s')) :
    act'.run (c.state s) = .ok (r a, c.state s') ∧ c.Good s' := by
  have hact := h s hs
  rw [hrun] at hact
  exact hact

theorem run_error {act : StateT σ (Except ε) α} {act' : StateT σ (Except ε) α'} {s : σ} {e : ε}
    (h : Follows c r act act') (hs : c.Good s) (hrun : act.run s = .error e) :
    act'.run (c.state s) = .error (c.error e) := by
  have hact := h s hs
  rw [hrun] at hact
  exact hact

theorem run_eq {act : StateT σ (Except ε) α} {act' : StateT σ (Except ε) α'} {s : σ}
    (h : Follows c r act act') (hs : c.Good s) :
    act'.run (c.state s) = changed (Prod.map r c.state) c.error (act.run s) := by
  cases hrun : act.run s with
  | error e => exact h.run_error hs hrun
  | ok p => exact (h.run_ok hs hrun).1

theorem pure {a : α} {a' : α'} (h : r a = a') :
    Follows c r (Pure.pure a) (Pure.pure a') := fun s hs => by
  subst h
  exact ⟨rfl, hs⟩

theorem throw {e e' : ε} (h : c.error e = e') :
    Follows c r (MonadExcept.throw e) (MonadExcept.throw e') := fun s _ => by
  subst h
  exact rfl

theorem lift {x : Except ε α} {x' : Except ε α'} (h : x' = changed r c.error x) :
    Follows c r (liftM x) (liftM x') := fun s hs => by
  subst h
  cases x with
  | ok a => exact ⟨rfl, hs⟩
  | error e => exact rfl

theorem bind {act : StateT σ (Except ε) α} {act' : StateT σ (Except ε) α'}
    {k : α → StateT σ (Except ε) β} {k' : α' → StateT σ (Except ε) β'} (h : Follows c r act act')
    (hk : ∀ a, Follows c q (k a) (k' (r a))) : Follows c q (act >>= k) (act' >>= k') :=
  fun s hs => by
    rw [StateT.run_bind, StateT.run_bind]
    cases hrun : act.run s with
    | error e =>
      rw [h.run_error hs hrun]
      exact rfl
    | ok p =>
      obtain ⟨a, s₁⟩ := p
      obtain ⟨hact, hs₁⟩ := h.run_ok hs hrun
      rw [hact]
      exact hk a s₁ hs₁

theorem get_bind {k : σ → StateT σ (Except ε) β} {k' : σ → StateT σ (Except ε) β'}
    (hk : ∀ s, c.Good s → Follows c q (k s) (k' (c.state s))) :
    Follows c q (MonadState.get >>= k) (MonadState.get >>= k') := fun s hs => hk s hs s hs

theorem set {s s' : σ} (h : c.state s = s') (hs : c.Good s) :
    Follows c id (MonadStateOf.set s) (MonadStateOf.set s') := fun t _ => by
  subst h
  exact ⟨rfl, hs⟩

theorem mapM {f : α → StateT σ (Except ε) β} {f' : α' → StateT σ (Except ε) β'} {l : List α}
    (h : ∀ a ∈ l, Follows c q (f a) (f' (r a))) :
    Follows c (List.map q) (l.mapM f) ((l.map r).mapM f') := by
  induction l with
  | nil => exact .pure rfl
  | cons a l ih =>
    obtain ⟨ha, hl⟩ := List.forall_mem_cons.1 h
    rw [List.map_cons, List.mapM_cons, List.mapM_cons]
    exact ha.bind fun b => (ih hl).bind fun bs => .pure rfl

end Follows

end TypedLisp
