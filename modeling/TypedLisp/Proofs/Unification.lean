import Mathlib
import TypedLisp.Proofs.Substitution

/-!
# Unification finds the most general solution

A *solution* of a problem is a replacement of variables that makes both sides of the equations left
the same and to which the substitution found so far makes no difference. A step keeps the solutions,
and a step that fails shows that there are none. So `unify` succeeds exactly if the equations have a
solution, and then the solutions are the replacements that absorb its result (`solves_iff_absorbs`,
`exists_unify`). The invariant of the run (`Resolved`) says which variables are bound and which are
left. What `unify` returns is an idempotent most general unifier (`unify_mostGeneral`), and an error
names two types that no replacement makes the same (`unify_error_justified`).
-/

namespace TypedLisp

namespace Unify

variable {f : TyVar → Ty} {es : List Equation} {s : Subst} {v w : TyVar} {t u : Ty} {p q : Problem}
  {e : UnifyError} {vs : List TyVar}

/-- Whether a replacement makes both sides of every equation the same. -/
def Solves (f : TyVar → Ty) (es : List Equation) : Prop := ∀ e ∈ es, e.1.bind f = e.2.bind f

/-- Whether it makes no difference to a replacement that a substitution comes first. -/
def Absorbs (f : TyVar → Ty) (s : Subst) : Prop := ∀ v, (s.toFun v).bind f = f v

/-- Whether a replacement agrees with what is solved and solves what is left. -/
def Problem.Solution (p : Problem) (f : TyVar → Ty) : Prop := Absorbs f p.solved ∧ Solves f p.todo

@[simp] theorem solves_nil (f : TyVar → Ty) : Solves f [] := by simp [Solves]

@[simp] theorem solves_cons {e : Equation} :
    Solves f (e :: es) ↔ e.1.bind f = e.2.bind f ∧ Solves f es := by simp [Solves]

@[simp] theorem solves_append {es' : List Equation} :
    Solves f (es ++ es') ↔ Solves f es ∧ Solves f es' := by
  simp only [Solves, List.mem_append]
  exact ⟨fun h => ⟨fun e he => h e (.inl he), fun e he => h e (.inr he)⟩,
    fun h e he => he.elim (h.1 e) (h.2 e)⟩

theorem absorbs_nil (f : TyVar → Ty) : Absorbs f [] := fun _ => rfl

/-- To a replacement that absorbs a substitution the substitution makes no difference. -/
theorem Absorbs.bind_apply (h : Absorbs f s) (t : Ty) : (t.apply s).bind f = t.bind f := by
  rw [Ty.apply_eq_bind, Ty.bind_bind]
  exact Ty.bind_congr fun v _ => h v

theorem Absorbs.compose {u : Subst} (hs : Absorbs f s) (hu : Absorbs f u) :
    Absorbs f (s.compose u) := fun v => by
  rw [Subst.toFun_compose, hu.bind_apply, hs v]

theorem absorbs_single : Absorbs f [(v, t)] ↔ f v = t.bind f := by
  constructor
  · intro h
    rw [← h v, Subst.toFun_single_self]
  · intro h w
    by_cases hw : w = v
    · subst hw
      rw [Subst.toFun_single_self, h]
    · rw [Subst.toFun_single_of_ne t hw, Ty.bind]

theorem solves_map_replace (h : Absorbs f [(v, t)]) (es : List Equation) :
    Solves f (es.map (Equation.replace v t)) ↔ Solves f es := by
  simp only [Solves, List.mem_map, forall_exists_index, and_imp, forall_apply_eq_imp_iff₂,
    Equation.replace, h.bind_apply]

/-! ## Parts -/

theorem solves_zip {as bs : List Ty} (h : as.length = bs.length) :
    Solves f (as.zip bs) ↔ as.map (Ty.bind f) = bs.map (Ty.bind f) := by
  induction as generalizing bs with
  | nil => cases bs with
    | nil => simp
    | cons b bs => simp at h
  | cons a as ih => cases bs with
    | nil => simp at h
    | cons b bs => simp [ih (by simpa using h)]

/-- Two types with the same head are made the same exactly if their parts are. -/
theorem solves_parts (h : parts? t u = some es) (f : TyVar → Ty) :
    Solves f es ↔ t.bind f = u.bind f := by
  unfold parts? at h
  split at h
  · cases h; simp
  · cases h; simp
  · cases h; simp
  · split at h
    · rename_i hlen
      cases h
      simp [solves_zip hlen]
    · cases h
  · split at h
    · rename_i hlen
      cases h
      simp [solves_zip hlen, and_comm]
    · cases h
  · cases h

theorem bind_ne_of_parts_none (h : parts? t u = none) (hne : t ≠ u) (ht : ∀ v, t ≠ .var v)
    (hu : ∀ v, u ≠ .var v) (f : TyVar → Ty) : t.bind f ≠ u.bind f := by
  intro hb
  cases t with
  | var v => exact ht v rfl
  | fn ps r =>
    cases u with
    | var v => exact hu v rfl
    | fn ps' r' =>
      simp only [Ty.bind, Ty.bindAll_eq_map, Ty.fn.injEq] at hb
      have hlen : ps.length = ps'.length := by simpa using congrArg List.length hb.1
      simp [parts?, hlen] at h
    | _ => simp at hb
  | applied b as =>
    cases u with
    | var v => exact hu v rfl
    | applied b' as' =>
      simp only [Ty.bind, Ty.bindAll_eq_map, Ty.applied.injEq] at hb
      have hlen : as.length = as'.length := by simpa using congrArg List.length hb.2
      simp [parts?, hlen] at h
    | _ => simp at hb
  | data n =>
    cases u with
    | var v => exact hu v rfl
    | data n' => exact hne (by simpa using hb)
    | _ => simp at hb
  | _ =>
    cases u with
    | var v => exact hu v rfl
    | _ => simp_all [parts?]

/-! ## What a step does -/

/-- A step that leaves something to do drops an equation of equal types, solves for a variable,
turns an equation round, or goes on to the parts of two types. -/
theorem step_next (h : step p = .next q) :
    (∃ t rest, p.todo = (t, t) :: rest ∧ q = ⟨p.solved, rest⟩) ∨
    (∃ v t rest, v ∉ t.vars ∧ p.todo = (.var v, t) :: rest ∧
      q = ⟨p.solved.compose [(v, t)], rest.map (Equation.replace v t)⟩) ∨
    (∃ v t rest, p.todo = (t, .var v) :: rest ∧ q = ⟨p.solved, (.var v, t) :: rest⟩) ∨
    ∃ t u es rest, parts? t u = some es ∧ p.todo = (t, u) :: rest ∧ q = ⟨p.solved, es ++ rest⟩ := by
  unfold step at h
  split at h
  · cases h
  · rename_i s left right rest
    split at h
    · rename_i heq
      subst heq
      cases h
      exact .inl ⟨left, rest, rfl, rfl⟩
    · split at h
      · rename_i v _
        split at h
        · cases h
        · rename_i hocc
          cases h
          exact .inr (.inl ⟨v, right, rest, fun hv => hocc (Ty.occurs_iff.2 hv), rfl, rfl⟩)
      · rename_i v _ _
        cases h
        exact .inr (.inr (.inl ⟨v, left, rest, rfl, rfl⟩))
      · split at h
        · rename_i es hes
          cases h
          exact .inr (.inr (.inr ⟨left, right, es, rest, hes, rfl, rfl⟩))
        · cases h

/-- A step fails at a variable that should be a larger type in which it occurs, or at two types with
different heads. -/
theorem step_failed (h : step p = .failed e) :
    (∃ v t rest, p.todo = (.var v, t) :: rest ∧ v ∈ t.vars ∧ t ≠ .var v ∧ e = .circular v t) ∨
    ∃ t u rest, p.todo = (t, u) :: rest ∧ parts? t u = none ∧ t ≠ u ∧ (∀ v, t ≠ .var v) ∧
      (∀ v, u ≠ .var v) ∧ e = .mismatch t u := by
  unfold step at h
  split at h
  · cases h
  · rename_i s left right rest
    split at h
    · cases h
    · rename_i hne
      split at h
      · rename_i v
        split at h
        · rename_i hocc
          cases h
          exact .inl ⟨v, right, rest, rfl, Ty.occurs_iff.1 hocc, Ne.symm hne, rfl⟩
        · cases h
      · cases h
      · rename_i hl hr
        split at h
        · cases h
        · rename_i hparts
          cases h
          exact .inr ⟨left, right, rest, rfl, hparts, hne, hl, hr, rfl⟩

theorem step_done (h : step p = .done s) : p = ⟨s, []⟩ := by
  unfold step at h
  split at h
  · cases h; rfl
  · split at h
    · cases h
    · split at h
      · split at h <;> cases h
      · cases h
      · split at h <;> cases h

/-! ## Every run ends -/

/-- `Steps n p q`: `n` steps lead from `p` to `q`, each of them leaving something to do. -/
inductive Steps : Nat → Problem → Problem → Prop
  | refl (p : Problem) : Steps 0 p p
  | next {n : Nat} {p q r : Problem} (h : step p = .next q) (hs : Steps n q r) : Steps (n + 1) p r

theorem Steps.eq_zero {n : Nat} (hs : Steps n p q) (h : ∀ r, step p ≠ .next r) : n = 0 := by
  cases hs with
  | refl => rfl
  | next hn hs => exact absurd hn (h _)

/-- From every problem some number of steps leads to one that is settled, and no run is longer. The
induction is on the number of distinct variables and then on the weight of the equations, which is
how the recursion of `solve` ends (`step_smaller`). -/
theorem exists_steps (p : Problem) : ∃ n q, Steps n p q ∧
    ((∃ s, step q = .done s ∧ solve p = .ok s) ∨ ∃ e, step q = .failed e ∧ solve p = .error e) ∧
    ∀ m r, Steps m p r → m ≤ n := by
  fun_induction solve p with
  | case1 p s hstep =>
    exact ⟨0, p, .refl p, .inl ⟨s, hstep, rfl⟩, fun m r hs =>
      Nat.le_of_eq (hs.eq_zero (by simp [hstep]))⟩
  | case2 p e hstep =>
    exact ⟨0, p, .refl p, .inr ⟨e, hstep, rfl⟩, fun m r hs =>
      Nat.le_of_eq (hs.eq_zero (by simp [hstep]))⟩
  | case3 p q hstep ih =>
    obtain ⟨n, r, hs, hr, hmax⟩ := ih
    refine ⟨n + 1, r, .next hstep hs, hr, fun m r' hs' => ?_⟩
    cases hs' with
    | refl => exact Nat.zero_le _
    | next h hs' =>
      obtain rfl : q = _ := Step.next.inj (hstep.symm.trans h)
      exact Nat.succ_le_succ (hmax _ _ hs')

/-- **The worklist of every list of equations runs out.** Some number of steps leads to a problem
with nothing left to do, whose substitution is the answer, or to one that cannot be solved, whose
reason is the answer; no run makes more steps. -/
theorem unify_terminates (es : List Equation) : ∃ n q, Steps n ⟨[], es⟩ q ∧
    ((∃ s, q = ⟨s, []⟩ ∧ unify es = .ok s) ∨ ∃ e, step q = .failed e ∧ unify es = .error e) ∧
    ∀ m r, Steps m ⟨[], es⟩ r → m ≤ n := by
  obtain ⟨n, q, hs, hq, hmax⟩ := exists_steps ⟨[], es⟩
  exact ⟨n, q, hs, hq.imp_left fun ⟨s, hdone, hok⟩ => ⟨s, step_done hdone, hok⟩, hmax⟩

/-! ## Variables along a run -/

/-- Every variable is bound at most once; a bound variable is gone from the equations left and from
the types bound to; and all variables are among `vs`. -/
structure Resolved (vs : List TyVar) (p : Problem) : Prop where
  nodup : (p.solved.map Prod.fst).Nodup
  bound : ∀ v ∈ p.solved.map Prod.fst, v ∈ vs ∧ v ∉ vars p.todo
  range : ∀ b ∈ p.solved, ∀ w ∈ b.2.vars, w ∈ vs ∧ w ∉ p.solved.map Prod.fst
  todo : ∀ v ∈ vars p.todo, v ∈ vs

theorem Resolved.start (es : List Equation) : Resolved (vars es) ⟨[], es⟩ :=
  ⟨List.nodup_nil, by simp, by simp, fun _ h => h⟩

/-- A problem with the same bindings and no other variables in the equations left. -/
theorem Resolved.of_subset (hp : Resolved vs p) (h : vars es ⊆ vars p.todo) :
    Resolved vs ⟨p.solved, es⟩ where
  nodup := hp.nodup
  bound := fun v hv => ⟨(hp.bound v hv).1, fun hm => (hp.bound v hv).2 (h hm)⟩
  range := hp.range
  todo := fun v hv => hp.todo v (h hv)

/-- Composition with a binding of a variable that is not bound yet adds that binding at the end. -/
theorem compose_single (hv : v ∉ s.map Prod.fst) (t : Ty) :
    s.compose [(v, t)] = s.map (fun b => (b.1, b.2.apply [(v, t)])) ++ [(v, t)] := by
  have hlook : s.lookup v = none := lookup_eq_none_of_not_mem hv
  simp [Subst.compose_eq, hlook]

theorem Resolved.solve_var (hp : Resolved vs p) {rest : List Equation}
    (hvt : v ∉ t.vars) (htodo : p.todo = (.var v, t) :: rest) :
    Resolved vs ⟨p.solved.compose [(v, t)], rest.map (Equation.replace v t)⟩ := by
  have hleft : ∀ x, x = v ∨ x ∈ t.vars ∨ x ∈ vars rest → x ∈ vars p.todo := fun x hx => by
    simp only [htodo, vars, Ty.vars, List.mem_append, List.mem_singleton]
    tauto
  have hfree : v ∉ p.solved.map Prod.fst := fun hm => (hp.bound v hm).2 (hleft v (.inl rfl))
  have hkeys : (p.solved.compose [(v, t)]).map Prod.fst = p.solved.map Prod.fst ++ [v] := by
    simp [compose_single hfree]
  -- the variables of `t` are still in the equations, so none of them is bound
  have ht : ∀ w ∈ t.vars, w ∈ vs ∧ w ∉ p.solved.map Prod.fst ++ [v] := by
    intro w hw
    have hwt : w ∈ vars p.todo := hleft w (.inr (.inl hw))
    refine ⟨hp.todo w hwt, fun hm => ?_⟩
    rcases List.mem_append.1 hm with hm | hm
    · exact (hp.bound w hm).2 hwt
    · exact hvt (List.mem_singleton.1 hm ▸ hw)
  have hold : ∀ b ∈ p.solved, ∀ w ∈ (b.2.apply [(v, t)]).vars,
      w ∈ vs ∧ w ∉ p.solved.map Prod.fst ++ [v] := by
    intro b hb w hw
    rcases Ty.mem_vars_apply_single b.2 hw with hw | ⟨hwv, hw⟩
    · exact ht w hw
    · obtain ⟨hwvs, hwfree⟩ := hp.range b hb w hw
      exact ⟨hwvs, by simp only [List.mem_append, List.mem_singleton]; tauto⟩
  refine ⟨?_, fun w hw => ?_, fun b hb w hw => ?_, fun w hw => ?_⟩
  · rw [hkeys]
    exact List.nodup_append.2 ⟨hp.nodup, by simp, fun x hx y hy =>
      fun hxy => hfree (List.mem_singleton.1 hy ▸ hxy ▸ hx)⟩
  · rw [hkeys] at hw
    have hwvs : w ∈ vs := by
      rcases List.mem_append.1 hw with hw | hw
      · exact (hp.bound w hw).1
      · exact hp.todo w (hleft w (.inl (List.mem_singleton.1 hw)))
    refine ⟨hwvs, fun hm => ?_⟩
    rcases mem_vars_replace rest hm with hm | ⟨hwv, hm⟩
    · exact (ht w hm).2 hw
    · rcases List.mem_append.1 hw with hw | hw
      · exact (hp.bound w hw).2 (hleft w (.inr (.inr hm)))
      · exact hwv (List.mem_singleton.1 hw)
  · rw [hkeys]
    rw [compose_single hfree, List.mem_append, List.mem_map, List.mem_singleton] at hb
    rcases hb with ⟨c, hc, rfl⟩ | rfl
    · exact hold c hc w hw
    · exact ht w hw
  · rcases mem_vars_replace rest hw with hw | ⟨-, hw⟩
    · exact (ht w hw).1
    · exact hp.todo w (hleft w (.inr (.inr hw)))

theorem Resolved.next (hp : Resolved vs p) (h : step p = .next q) : Resolved vs q := by
  obtain ⟨t, rest, hpt, rfl⟩ | ⟨v, t, rest, hv, hpt, rfl⟩ | ⟨v, t, rest, hpt, rfl⟩ |
    ⟨t, u, es, rest, hes, hpt, rfl⟩ := step_next h
  · exact hp.of_subset fun x hx => by simp [hpt, vars, hx]
  · exact hp.solve_var hv hpt
  · refine hp.of_subset fun x hx => ?_
    simp only [hpt, vars, List.mem_append] at hx ⊢
    tauto
  · refine hp.of_subset fun x hx => ?_
    have hparts := vars_parts? hes (a := x)
    simp only [hpt, vars, vars_append, List.mem_append] at hx hparts ⊢
    tauto

theorem toFun_of_not_mem (hv : v ∉ s.map Prod.fst) :
    s.toFun v = .var v := by
  rw [Subst.toFun, lookup_eq_none_of_not_mem hv, Option.getD_none]

/-- What takes the place of a variable has only variables that are not bound. -/
theorem Resolved.mem_vars_toFun (hp : Resolved vs p)
    (hw : w ∈ (p.solved.toFun v).vars) :
    (w = v ∨ w ∈ vs) ∧ w ∉ p.solved.map Prod.fst := by
  by_cases hv : v ∈ p.solved.map Prod.fst
  · obtain ⟨u, hu⟩ := exists_lookup_of_mem_keys hv
    rw [Subst.toFun, hu] at hw
    obtain ⟨hwvs, hfree⟩ := hp.range _ (mem_of_lookup hu) w hw
    exact ⟨.inr hwvs, hfree⟩
  · rw [toFun_of_not_mem hv] at hw
    obtain rfl : w = v := by simpa [Ty.vars] using hw
    exact ⟨.inl rfl, hv⟩

/-! ## Solutions along a run -/

theorem solution_of_next (hp : Resolved vs p) (h : step p = .next q) (f : TyVar → Ty) :
    q.Solution f ↔ p.Solution f := by
  obtain ⟨t, rest, hpt, rfl⟩ | ⟨v, t, rest, hv, hpt, rfl⟩ | ⟨v, t, rest, hpt, rfl⟩ |
    ⟨t, u, es, rest, hes, hpt, rfl⟩ := step_next h
  · simp [Problem.Solution, hpt]
  · simp only [Problem.Solution, hpt, solves_cons, Ty.bind]
    constructor
    · rintro ⟨hs, hrest⟩
      -- `v` is not solved for yet, so the composition puts `t` in its place
      have hpv : p.solved.toFun v = .var v := toFun_of_not_mem fun hm =>
        (hp.bound v hm).2 (by simp [hpt, vars, Ty.vars])
      have hvt : f v = t.bind f := by
        rw [← hs v, Subst.toFun_compose, hpv, Ty.apply_eq_bind, Ty.bind, Subst.toFun_single_self]
      have habs : Absorbs f [(v, t)] := absorbs_single.2 hvt
      refine ⟨fun w => ?_, hvt, (solves_map_replace habs rest).1 hrest⟩
      rw [← hs w, Subst.toFun_compose, habs.bind_apply]
    · rintro ⟨hs, hvt, hrest⟩
      have habs : Absorbs f [(v, t)] := absorbs_single.2 hvt
      exact ⟨hs.compose habs, (solves_map_replace habs rest).2 hrest⟩
  · simp [Problem.Solution, hpt, eq_comm]
  · simp [Problem.Solution, hpt, solves_parts hes f]

theorem not_solution_of_failed (h : step p = .failed e) (f : TyVar → Ty) : ¬ p.Solution f := by
  rintro ⟨-, hf⟩
  obtain ⟨v, t, rest, hpt, hv, hne, -⟩ | ⟨t, u, rest, hpt, hparts, hne, ht, hu, -⟩ := step_failed h
  · rw [hpt, solves_cons] at hf
    exact Ty.bind_ne_of_mem_vars hv hne hf.1
  · rw [hpt, solves_cons] at hf
    exact bind_ne_of_parts_none hparts hne ht hu f hf.1

theorem solve_ok (h : solve p = .ok m) (hp : Resolved vs p) :
    (∀ f, p.Solution f ↔ Absorbs f m) ∧ Resolved vs ⟨m, []⟩ := by
  fun_induction solve p with
  | case1 p s hstep =>
    cases h
    obtain rfl := step_done hstep
    exact ⟨fun f => by simp [Problem.Solution], hp⟩
  | case2 p e hstep => cases h
  | case3 p q hstep ih =>
    obtain ⟨hsol, hm⟩ := ih h (hp.next hstep)
    exact ⟨fun f => (solution_of_next hp hstep f).symm.trans (hsol f), hm⟩

theorem solve_error (h : solve p = .error e) (hp : Resolved vs p) (f : TyVar → Ty) :
    ¬ p.Solution f := by
  fun_induction solve p with
  | case1 p s hstep => cases h
  | case2 p e' hstep => exact not_solution_of_failed hstep f
  | case3 p q hstep ih =>
    intro hf
    exact ih h (hp.next hstep) ((solution_of_next hp hstep f).2 hf)

end Unify

open Unify

/-! ## The result of unification -/

variable {es : List Equation} {m : Subst}

/-- The solutions of the equations are the replacements that absorb the result. -/
theorem solves_iff_absorbs (h : unify es = .ok m) (f : TyVar → Ty) : Solves f es ↔ Absorbs f m := by
  rw [← (solve_ok h (.start es)).1 f]
  exact ⟨fun hf => ⟨absorbs_nil f, hf⟩, fun hf => hf.2⟩

theorem solves_unify (h : unify es = .ok m) : Solves m.toFun es := by
  rw [solves_iff_absorbs h]
  exact fun v => Ty.bind_eq_self_iff.2 fun w hw =>
    toFun_of_not_mem ((solve_ok h (.start es)).2.mem_vars_toFun hw).2

theorem apply_unify (h : unify es = .ok m) {e : Equation} (he : e ∈ es) :
    e.1.apply m = e.2.apply m := by
  rw [Ty.apply_eq_bind, Ty.apply_eq_bind]
  exact solves_unify h e he

theorem exists_unify {f : TyVar → Ty} (h : Solves f es) : ∃ m, unify es = .ok m ∧ Absorbs f m := by
  cases hu : unify es with
  | ok m => exact ⟨m, rfl, (solves_iff_absorbs hu f).1 h⟩
  | error e => exact absurd ⟨absorbs_nil f, h⟩ (solve_error hu (.start es) f)

theorem toFun_unify_of_not_mem (h : unify es = .ok m) {v : TyVar} (hv : v ∉ vars es) :
    m.toFun v = .var v :=
  toFun_of_not_mem fun hm => hv ((solve_ok h (.start es)).2.bound v hm).1

theorem mem_vars_toFun_unify (h : unify es = .ok m) {v w : TyVar} (hw : w ∈ (m.toFun v).vars) :
    w = v ∨ w ∈ vars es :=
  ((solve_ok h (.start es)).2.mem_vars_toFun hw).1

/-! ## What is returned -/

variable {p : Problem} {e : UnifyError}

open Unify

theorem Unify.Resolved.apply_apply {vs : List TyVar} (hp : Resolved vs p) (t : Ty) :
    (t.apply p.solved).apply p.solved = t.apply p.solved := by
  rw [Ty.apply_eq_bind, Ty.apply_eq_bind, Ty.bind_eq_self_iff]
  intro w hw
  obtain ⟨v, -, hw⟩ := Ty.mem_vars_bind.1 hw
  exact toFun_of_not_mem (hp.mem_vars_toFun hw).2

/-- **Unification returns an idempotent most general unifier.** The substitution makes both sides of
every equation the same; it binds each variable once and binds no variable that is in a type bound
to, so that applying it twice is applying it once; it mentions only variables of the equations; and
it makes no difference to any other solution that it comes first. -/
theorem unify_mostGeneral {es : List Equation} {m : Subst} (h : unify es = .ok m) :
    (∀ e ∈ es, e.1.apply m = e.2.apply m) ∧
    (m.map Prod.fst).Nodup ∧
    (∀ b ∈ m, ∀ w ∈ b.2.vars, w ∉ m.map Prod.fst) ∧
    (∀ t : Ty, (t.apply m).apply m = t.apply m) ∧
    (∀ b ∈ m, b.1 ∈ Unify.vars es ∧ ∀ w ∈ b.2.vars, w ∈ Unify.vars es) ∧
    ∀ s : Subst, (∀ e ∈ es, e.1.apply s = e.2.apply s) →
      ∀ t : Ty, (t.apply m).apply s = t.apply s := by
  have hm : Resolved (Unify.vars es) ⟨m, []⟩ := (solve_ok h (.start es)).2
  refine ⟨fun e he => apply_unify h he, hm.nodup, fun b hb w hw => (hm.range b hb w hw).2,
    hm.apply_apply, fun b hb => ⟨(hm.bound b.1 (List.mem_map_of_mem hb)).1,
      fun w hw => (hm.range b hb w hw).1⟩, fun s hs t => ?_⟩
  have habs : Absorbs s.toFun m := (solves_iff_absorbs h s.toFun).1 fun e he => by
    simpa only [Ty.apply_eq_bind] using hs e he
  rw [Ty.apply_eq_bind s, Ty.apply_eq_bind s]
  exact habs.bind_apply t

/-- Equations that pass a variable along and solve for a vector on the way. -/
def Unify.chain : List Equation :=
  [(.fn [.var 0, .vector (.var 1)] (.var 2), .fn [.var 1, .var 3] (.var 0))]

/-- The chain is solved in terms of the variable at its end, and its solution at `Int` is an
instance of that. -/
theorem unify_mostGeneral_chain :
    unify Unify.chain = .ok [(0, .var 1), (3, .vector (.var 1)), (2, .var 1)] ∧
    ∀ t : Ty, (t.apply [(0, .var 1), (3, .vector (.var 1)), (2, .var 1)]).apply
        [(0, .int), (1, .int), (2, .int), (3, .vector .int)] =
      t.apply [(0, .int), (1, .int), (2, .int), (3, .vector .int)] := by
  have h : unify Unify.chain = .ok [(0, .var 1), (3, .vector (.var 1)), (2, .var 1)] := by cbv
  exact ⟨h, (unify_mostGeneral h).2.2.2.2.2 _ (by decide)⟩

/-! ## Failures -/

/-- The outermost part of a type that is not a variable, with the name of a data type and the number
of parameters or arguments. -/
inductive Ty.Head where
  | bool
  | str
  | int
  | effect
  | vector
  | set
  | map
  | fn (arity : Nat)
  | data (name : String)
  | applied (arity : Nat)
deriving DecidableEq, Repr

/-- The head of a type, unless it is a variable. -/
def Ty.head? : Ty → Option Ty.Head
  | .bool => some .bool
  | .str => some .str
  | .int => some .int
  | .effect => some .effect
  | .vector _ => some .vector
  | .set _ => some .set
  | .map _ _ => some .map
  | .fn ps _ => some (.fn ps.length)
  | .var _ => none
  | .data n => some (.data n)
  | .applied _ as => some (.applied as.length)

theorem Ty.head?_eq_none {t : Ty} : t.head? = none ↔ ∃ v, t = .var v := by
  cases t <;> simp [Ty.head?]

/-- Different types that are not variables and have the same head have parts to go on with. -/
theorem Unify.exists_parts_of_head {t u : Ty} (hne : t ≠ u) (ht : ∀ v, t ≠ .var v)
    (hhead : t.head? = u.head?) : ∃ es, parts? t u = some es := by
  cases t with
  | var v => exact absurd rfl (ht v)
  | _ => cases u <;> simp_all [Ty.head?, parts?]

/-- What an error says of the equation at which unification stopped: the variable occurs in a type
that is not that variable, or the two types are no variables and have different heads. -/
def UnifyError.Justified : UnifyError → Prop
  | .circular v t => v ∈ t.vars ∧ t ≠ .var v
  | .mismatch l r => ∃ a b, l.head? = some a ∧ r.head? = some b ∧ a ≠ b

theorem Unify.justified_of_failed (h : step p = .failed e) : e.Justified := by
  obtain ⟨v, t, rest, -, hv, hne, rfl⟩ | ⟨t, u, rest, -, hparts, hne, ht, hu, rfl⟩ := step_failed h
  · exact ⟨hv, hne⟩
  · obtain ⟨a, ha⟩ := Option.ne_none_iff_exists'.1 fun hn => (Ty.head?_eq_none.1 hn).elim ht
    obtain ⟨b, hb⟩ := Option.ne_none_iff_exists'.1 fun hn => (Ty.head?_eq_none.1 hn).elim hu
    refine ⟨a, b, ha, hb, fun hab => ?_⟩
    obtain ⟨es, hes⟩ := exists_parts_of_head hne ht (by rw [ha, hb, hab])
    simp [hparts] at hes

theorem Unify.justified_of_solve (h : solve p = .error e) : e.Justified := by
  fun_induction solve p with
  | case1 p s hstep => cases h
  | case2 p e' hstep =>
    cases h
    exact justified_of_failed hstep
  | case3 p q hstep ih => exact ih h

/-- **Unification fails only if there is no solution.** If it returns an error, no replacement of
the variables, finite or not, makes both sides of all the equations the same; and the error names a
variable with a larger type in which it occurs, or two types that are no variables and whose heads,
names or numbers of parts differ. -/
theorem unify_error_justified {es : List Equation} {err : UnifyError} (h : unify es = .error err) :
    (∀ f : TyVar → Ty, ¬ ∀ e ∈ es, e.1.bind f = e.2.bind f) ∧ err.Justified :=
  ⟨fun f hf => solve_error h (.start es) f ⟨absorbs_nil f, hf⟩, justified_of_solve h⟩

/-- A variable that has to be a vector of itself once another variable is solved for, and functions
that differ in the number of parameters once a variable is solved for. -/
theorem unify_error_justified_self :
    (unify [(.var 0, .var 1), (.vector (.var 0), .var 1)] = .error (.circular 1 (.vector (.var 1))) ∧
      ∀ f : TyVar → Ty, ¬ ∀ e ∈ [((.var 0 : Ty), (.var 1 : Ty)), (.vector (.var 0), .var 1)],
        e.1.bind f = e.2.bind f) ∧
    unify [(.var 0, .fn [] .int), (.set (.var 0), .set (.fn [.str] .int))] =
      .error (.mismatch (.fn [] .int) (.fn [.str] .int)) ∧
    UnifyError.Justified (.mismatch (.fn [] .int) (.fn [.str] .int)) := by
  have hcirc : unify [(.var 0, .var 1), (.vector (.var 0), .var 1)] =
      .error (.circular 1 (.vector (.var 1))) := by cbv
  have hfn : unify [(.var 0, .fn [] .int), (.set (.var 0), .set (.fn [.str] .int))] =
      .error (.mismatch (.fn [] .int) (.fn [.str] .int)) := by cbv
  exact ⟨⟨hcirc, (unify_error_justified hcirc).1⟩, hfn, (unify_error_justified hfn).2⟩

end TypedLisp
