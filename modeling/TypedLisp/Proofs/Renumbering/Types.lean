import Mathlib.Order.Monotone.Basic
import TypedLisp.Proofs.Renaming

/-!
# Types under other numbers for their variables

What is done with types does not depend on the numbers of their variables: unification, instances
and alpha-equivalence commute with every one-to-one change of numbers, and the text of a type stays
the same. Where variables are put in order, or new ones counted up, the change has to keep the order
(`StrictMono`) and to move all new numbers alike (`Shifts`).
-/

namespace TypedLisp

variable {f : TyVar → TyVar} {n cut : Nat}

/-! ## Changes of numbers -/

/-- Whether a change of numbers moves all numbers from `n` on alike. -/
def Shifts (f : Nat → Nat) (n : Nat) : Prop := ∀ i, f (n + i) = f n + i

theorem Shifts.add {f : Nat → Nat} (h : Shifts f n) (i : Nat) : Shifts f (n + i) :=
  fun j => by rw [Nat.add_assoc, h, h, Nat.add_assoc]

theorem Shifts.mono {f : Nat → Nat} {m : Nat} (h : Shifts f n) (hle : n ≤ m) : Shifts f m := by
  obtain ⟨i, rfl⟩ := Nat.exists_eq_add_of_le hle
  exact h.add i

/-- The change that moves the numbers from `cut` on up by `gap`. -/
def shift (cut gap n : Nat) : Nat := if n < cut then n else n + gap

theorem shift_of_lt (h : n < cut) (gap : Nat) : shift cut gap n = n := if_pos h

theorem shift_of_le (h : cut ≤ n) (gap : Nat) : shift cut gap n = n + gap :=
  if_neg (Nat.not_lt.2 h)

theorem strictMono_shift (cut gap : Nat) : StrictMono (shift cut gap) := fun a b hab => by
  unfold shift
  split <;> split <;> omega

theorem shifts_shift (h : cut ≤ n) (gap : Nat) : Shifts (shift cut gap) n :=
  fun i => by rw [shift_of_le h, shift_of_le (Nat.le_add_right_of_le h)]; omega

section Lists

variable {α β γ δ : Type} [DecidableEq α] [DecidableEq β] {f : α → β}

theorem lookup_map_of_injective (hf : f.Injective) (g : γ → δ) (l : List (α × γ)) (a : α) :
    (l.map fun e => (f e.1, g e.2)).lookup (f a) = (l.lookup a).map g := by
  induction l with
  | nil => rfl
  | cons e l ih =>
    obtain ⟨b, c⟩ := e
    by_cases ha : a = b
    · subst ha
      simp
    · rw [List.map_cons, lookup_cons_of_ne (hf.ne ha), ih, lookup_cons_of_ne ha]

theorem eraseDups_map {l : List α} (hf : {a | a ∈ l}.InjOn f) :
    (l.map f).eraseDups = l.eraseDups.map f := by
  induction hn : l.length using Nat.strong_induction_on generalizing l with
  | _ n ih =>
    cases l with
    | nil => rfl
    | cons a l =>
      have hfilter : (l.map f).filter (fun b => !b == f a) =
          (l.filter fun b => !b == a).map f := by
        rw [List.filter_map]
        congr 1
        refine List.filter_congr fun b hb => ?_
        simp [hf.eq_iff (List.mem_cons_of_mem a hb) List.mem_cons_self]
      have hlen : (l.filter fun b => !b == a).length < n := by
        rw [← hn]
        exact Nat.lt_succ_of_le (List.length_filter_le _ _)
      have hrest : {b | b ∈ l.filter fun b => !b == a}.InjOn f :=
        hf.mono fun b hb => List.mem_cons_of_mem a (List.mem_of_mem_filter hb)
      rw [List.map_cons, List.eraseDups_cons, List.eraseDups_cons, hfilter, ih _ hlen hrest rfl,
        List.map_cons]

theorem idxOf_map {l : List α} {a : α} (hf : ∀ b ∈ l, f b = f a → b = a) :
    (l.map f).idxOf (f a) = l.idxOf a := by
  induction l with
  | nil => rfl
  | cons b l ih =>
    obtain ⟨hb, hl⟩ := List.forall_mem_cons.1 hf
    have hbeq : (f b == f a) = (b == a) := by
      rw [Bool.eq_iff_iff, beq_iff_eq, beq_iff_eq]
      exact ⟨hb, congrArg f⟩
    rw [List.map_cons, List.idxOf_cons, List.idxOf_cons, ih hl, hbeq]

end Lists

/-! ## Types -/

namespace Ty

/-- The type with other numbers for its variables. -/
def rename (f : TyVar → TyVar) (t : Ty) : Ty := t.bind fun v => .var (f v)

section Rename

variable (f : TyVar → TyVar)

@[simp] theorem rename_bool : rename f .bool = .bool := rfl
@[simp] theorem rename_str : rename f .str = .str := rfl
@[simp] theorem rename_int : rename f .int = .int := rfl
@[simp] theorem rename_effect : rename f .effect = .effect := rfl
@[simp] theorem rename_vector (e : Ty) : rename f (.vector e) = .vector (e.rename f) := rfl
@[simp] theorem rename_set (e : Ty) : rename f (.set e) = .set (e.rename f) := rfl
@[simp] theorem rename_map (k v : Ty) : rename f (.map k v) = .map (k.rename f) (v.rename f) := rfl
@[simp] theorem rename_var (v : TyVar) : rename f (.var v) = .var (f v) := rfl
@[simp] theorem rename_data (n : String) : rename f (.data n) = .data n := rfl

@[simp] theorem rename_fn (ps : List Ty) (r : Ty) :
    rename f (.fn ps r) = .fn (ps.map (rename f)) (r.rename f) := by
  simp only [rename, bind, bindAll_eq_map]
  rfl

@[simp] theorem rename_applied (b : Ty) (as : List Ty) :
    rename f (.applied b as) = .applied (b.rename f) (as.map (rename f)) := by
  simp only [rename, bind, bindAll_eq_map]
  rfl

end Rename

variable {f : TyVar → TyVar}

theorem rename_rename (f g : TyVar → TyVar) (t : Ty) :
    (t.rename f).rename g = t.rename (g ∘ f) := bind_bind _ _ t

theorem rename_eq_self {t : Ty} (h : ∀ v ∈ t.vars, f v = v) : t.rename f = t :=
  bind_eq_self_iff.2 fun v hv => by rw [h v hv]

theorem rename_injective (hf : f.Injective) : (rename f).Injective := by
  have hleft : Function.LeftInverse (rename (Function.invFun f)) (rename f) := fun t => by
    rw [rename_rename]
    exact rename_eq_self fun v _ => Function.leftInverse_invFun hf v
  exact hleft.injective

@[simp] theorem vars_rename (f : TyVar → TyVar) (t : Ty) : (t.rename f).vars = t.vars.map f := by
  induction t using indParts with
  | var v => rfl
  | node t ht ih =>
    rw [rename, vars_node (bind_ne_var ht), parts_bind ht, vars_node ht, List.flatMap_map,
      List.map_flatMap]
    exact List.flatMap_congr ih

theorem occurs_rename (hf : f.Injective) (v : TyVar) (t : Ty) :
    (t.rename f).occurs (f v) = t.occurs v := by
  rw [Bool.eq_iff_iff, occurs_iff, occurs_iff, vars_rename, List.mem_map_of_injective hf]

end Ty

/-- The substitution with other numbers for its variables. -/
def Subst.rename (f : TyVar → TyVar) (s : Subst) : Subst :=
  s.map fun b => (f b.1, b.2.rename f)

theorem Subst.toFun_rename (hf : f.Injective) (s : Subst) (v : TyVar) :
    (s.rename f).toFun (f v) = (s.toFun v).rename f := by
  rw [toFun, rename, lookup_map_of_injective hf, toFun]
  cases s.lookup v <;> rfl

theorem Ty.apply_rename (hf : f.Injective) (s : Subst) (t : Ty) :
    (t.rename f).apply (s.rename f) = (t.apply s).rename f := by
  rw [apply_eq_bind, apply_eq_bind, rename, bind_bind, rename, bind_bind]
  exact bind_congr fun v _ => Subst.toFun_rename hf s v

theorem Subst.compose_rename (hf : f.Injective) (s u : Subst) :
    (s.rename f).compose (u.rename f) = (s.compose u).rename f := by
  have hkept : ∀ b : TyVar × Ty, ((s.rename f).lookup (f b.1)).isNone = (s.lookup b.1).isNone :=
    fun b => by rw [rename, lookup_map_of_injective hf, Option.isNone_map]
  simp only [compose_eq, rename, List.map_append, List.map_map, List.filter_map]
  congr 1
  · refine List.map_congr_left fun b _ => ?_
    exact congrArg (f b.1, ·) (Ty.apply_rename hf u b.2)
  · exact congrArg (List.map _) (List.filter_congr fun b _ => hkept b)

/-! ## Unification -/

/-- The equation with other numbers for its variables. -/
def Equation.rename (f : TyVar → TyVar) (e : Equation) : Equation := (e.1.rename f, e.2.rename f)

/-- The error with other numbers for its variables. -/
def UnifyError.rename (f : TyVar → TyVar) : UnifyError → UnifyError
  | .mismatch l r => .mismatch (l.rename f) (r.rename f)
  | .circular v t => .circular (f v) (t.rename f)

namespace Unify

/-- The problem with other numbers for its variables. -/
def Problem.rename (f : TyVar → TyVar) (p : Problem) : Problem :=
  ⟨p.solved.rename f, p.todo.map (Equation.rename f)⟩

/-- What becomes of a problem, with other numbers for its variables. -/
def Step.rename (f : TyVar → TyVar) : Step → Step
  | .done s => .done (s.rename f)
  | .failed e => .failed (e.rename f)
  | .next p => .next (p.rename f)

section Steps

variable {s : Subst} {t u : Ty} {v : TyVar} {rest : List Equation}

theorem step_same (s : Subst) (t : Ty) (rest : List Equation) :
    step ⟨s, (t, t) :: rest⟩ = .next ⟨s, rest⟩ := if_pos rfl

theorem step_var (h : Ty.var v ≠ t) : step ⟨s, (.var v, t) :: rest⟩ =
    if t.occurs v then .failed (.circular v t)
    else .next ⟨s.compose [(v, t)], rest.map (Equation.replace v t)⟩ := if_neg h

theorem step_turn (ht : ∀ w, t ≠ .var w) :
    step ⟨s, (t, .var v) :: rest⟩ = .next ⟨s, (.var v, t) :: rest⟩ := by
  rw [step, if_neg (ht v)]
  exact ht

theorem step_parts (h : t ≠ u) (ht : ∀ w, t ≠ .var w) (hu : ∀ w, u ≠ .var w) :
    step ⟨s, (t, u) :: rest⟩ = match parts? t u with
      | some es => .next ⟨s, es ++ rest⟩
      | none => .failed (.mismatch t u) := by
  rw [step, if_neg h] <;> first | rfl | assumption

end Steps

variable {f : TyVar → TyVar}

theorem parts?_rename (f : TyVar → TyVar) (t u : Ty) :
    parts? (t.rename f) (u.rename f) = (parts? t u).map (List.map (Equation.rename f)) := by
  have hzip : ∀ as bs : List Ty, (as.map (Ty.rename f)).zip (bs.map (Ty.rename f)) =
      (as.zip bs).map (Equation.rename f) := fun as bs => List.zip_map ..
  cases t <;> cases u <;>
    first
    | rfl
    | simp only [Ty.rename_fn, Ty.rename_applied, parts?, List.length_map, hzip]
      split <;> simp [Equation.rename]

theorem replace_rename (hf : f.Injective) (v : TyVar) (t : Ty) (e : Equation) :
    Equation.replace (f v) (t.rename f) (Equation.rename f e) =
      Equation.rename f (Equation.replace v t e) :=
  Prod.ext (Ty.apply_rename hf [(v, t)] e.1) (Ty.apply_rename hf [(v, t)] e.2)

theorem ne_var_rename {t : Ty} (h : ∀ w, t ≠ .var w) (w : TyVar) : t.rename f ≠ .var w := by
  cases t with
  | var v => exact absurd rfl (h v)
  | _ => simp

theorem step_rename (hf : f.Injective) (p : Problem) : step (p.rename f) = (step p).rename f := by
  obtain ⟨s, todo⟩ := p
  cases todo with
  | nil => rfl
  | cons e rest =>
    obtain ⟨t, u⟩ := e
    show step ⟨s.rename f, (t.rename f, u.rename f) :: rest.map (Equation.rename f)⟩ = _
    by_cases htu : t = u
    · subst htu
      rw [step_same, step_same]
      rfl
    have htu' : t.rename f ≠ u.rename f := (Ty.rename_injective hf).ne htu
    by_cases ht : ∃ v, t = .var v
    · obtain ⟨v, rfl⟩ := ht
      rw [step_var htu, Ty.rename_var, step_var htu', Ty.occurs_rename hf]
      have hcompose := Subst.compose_rename hf s [(v, u)]
      have hrest : (rest.map (Equation.rename f)).map (Equation.replace (f v) (u.rename f)) =
          (rest.map (Equation.replace v u)).map (Equation.rename f) := by
        rw [List.map_map, List.map_map]
        exact List.map_congr_left fun e _ => replace_rename hf v u e
      split
      · rfl
      · exact congrArg₂ (fun s es => Step.next ⟨s, es⟩) hcompose hrest
    have ht : ∀ w, t ≠ .var w := fun w hw => ht ⟨w, hw⟩
    by_cases hu : ∃ v, u = .var v
    · obtain ⟨v, rfl⟩ := hu
      rw [step_turn ht, Ty.rename_var, step_turn (ne_var_rename ht)]
      rfl
    have hu : ∀ w, u ≠ .var w := fun w hw => hu ⟨w, hw⟩
    rw [step_parts htu ht hu, step_parts htu' (ne_var_rename ht) (ne_var_rename hu), parts?_rename]
    cases parts? t u with
    | none => rfl
    | some es => simp [Step.rename, Problem.rename]

/-- What comes of equations, with other numbers for their variables. -/
def renameResult (f : TyVar → TyVar) : Except UnifyError Subst → Except UnifyError Subst
  | .ok s => .ok (s.rename f)
  | .error e => .error (e.rename f)

theorem solve_rename (hf : f.Injective) (p : Problem) :
    solve (p.rename f) = renameResult f (solve p) := by
  fun_induction solve p with
  | case1 p s hstep =>
    rw [solve]
    split <;> simp_all [step_rename hf, Step.rename, renameResult]
  | case2 p e hstep =>
    rw [solve]
    split <;> simp_all [step_rename hf, Step.rename, renameResult]
  | case3 p q hstep ih =>
    rw [solve]
    split <;> simp_all [step_rename hf, Step.rename]

end Unify

/-- **Unification commutes with a change of numbers.** -/
theorem unify_rename (hf : f.Injective) (es : List Equation) :
    unify (es.map (Equation.rename f)) = Unify.renameResult f (unify es) :=
  Unify.solve_rename hf ⟨[], es⟩

/-! ## Alpha-equivalence and instances -/

namespace Ty

variable {f : TyVar → TyVar}

theorem alphaEquivalent_rename (hf : f.Injective) (a b : Ty) :
    (a.rename f).alphaEquivalent (b.rename f) = a.alphaEquivalent b := by
  have hback : ∀ t : Ty, (t.rename f).rename (Function.invFun f) = t := fun t => by
    rw [rename_rename]
    exact rename_eq_self fun v _ => Function.leftInverse_invFun hf v
  rw [Bool.eq_iff_iff, alphaEquivalent_iff, alphaEquivalent_iff]
  constructor
  · rintro ⟨g, hg, hgb⟩
    have hgb : (a.rename f).rename g = b.rename f := hgb
    refine ⟨Function.invFun f ∘ g ∘ f, fun x hx y hy hxy => hf ?_, ?_⟩
    · have hx' : f x ∈ (a.rename f).vars := by simpa [hf.eq_iff] using hx
      have hy' : f y ∈ (a.rename f).vars := by simpa [hf.eq_iff] using hy
      refine hg hx' hy' ?_
      -- what `g` makes of a variable is a variable of the second type
      have himage : ∀ v ∈ (a.rename f).vars, f (Function.invFun f (g v)) = g v := fun v hv => by
        have hgv : g v ∈ (b.rename f).vars := by
          rw [← hgb, vars_rename]
          exact List.mem_map_of_mem hv
        obtain ⟨w, -, hw⟩ := List.mem_map.1 (vars_rename f b ▸ hgv)
        rw [← hw, Function.leftInverse_invFun hf]
      rw [← himage _ hx', ← himage _ hy']
      exact congrArg f hxy
    · show a.rename (Function.invFun f ∘ g ∘ f) = b
      rw [← hback b, ← hgb, rename_rename, rename_rename]
      rfl
  · rintro ⟨g, hg, rfl⟩
    refine ⟨f ∘ g ∘ Function.invFun f, fun x hx y hy hxy => ?_, ?_⟩
    · obtain ⟨x, hxa, rfl⟩ := List.mem_map.1 (vars_rename f a ▸ hx)
      obtain ⟨y, hya, rfl⟩ := List.mem_map.1 (vars_rename f a ▸ hy)
      simp only [Function.comp_apply, Function.leftInverse_invFun hf x,
        Function.leftInverse_invFun hf y] at hxy
      rw [hg hxa hya (hf hxy)]
    · show (a.rename f).rename (f ∘ g ∘ Function.invFun f) = (a.rename g).rename f
      rw [← rename_rename, ← rename_rename, hback]

theorem subtypeOf_rename (hf : f.Injective) (t u : Ty) :
    (t.rename f).subtypeOf (u.rename f) = t.subtypeOf u := by
  have hunify := unify_rename hf [(t, u)]
  simp only [List.map_cons, List.map_nil, Equation.rename] at hunify
  rw [subtypeOf, subtypeOf, hunify]
  cases unify [(t, u)] with
  | error e => rfl
  | ok s =>
    show (t.rename f).alphaEquivalent ((u.rename f).apply (s.rename f)) = _
    rw [apply_rename hf, alphaEquivalent_rename hf]

end Ty

/-! ## New variables -/

section Ascending

variable {f : TyVar → TyVar}

theorem insertVar_map (hf : StrictMono f) (v : TyVar) (ws : List TyVar) :
    insertVar (f v) (ws.map f) = (insertVar v ws).map f := by
  induction ws with
  | nil => rfl
  | cons w ws ih =>
    simp only [List.map_cons, insertVar, hf.lt_iff_lt, hf.injective.eq_iff, ih]
    split
    · rfl
    · split <;> rfl

theorem sortVars_map (hf : StrictMono f) (vs : List TyVar) :
    sortVars (vs.map f) = (sortVars vs).map f := by
  induction vs with
  | nil => rfl
  | cons v vs ih =>
    show insertVar (f v) (sortVars (vs.map f)) = (insertVar v (sortVars vs)).map f
    rw [ih, insertVar_map hf]

end Ascending

theorem Subst.fresh_rename {next : TyVar} (hnext : Shifts f next) (vs : List TyVar) :
    fresh (vs.map f) (f next) = (fresh vs next).rename f := by
  induction vs generalizing next with
  | nil => rfl
  | cons v vs ih =>
    have hsucc : f (next + 1) = f next + 1 := hnext 1
    rw [List.map_cons, fresh_cons, fresh_cons, ← hsucc, ih (hnext.add 1)]
    rfl

/-- **Instantiation commutes with a change of numbers** that keeps their order and moves all new
ones alike. -/
theorem Ty.instantiate_rename (hf : StrictMono f) {next : TyVar} (hnext : Shifts f next) (t : Ty) :
    (t.rename f).instantiate (f next) =
      ((t.instantiate next).1.rename f, f (t.instantiate next).2) := by
  have hfree : (t.rename f).freeVars = t.freeVars.map f := by
    rw [freeVars, freeVars, vars_rename, sortVars_map hf]
  rw [instantiate, instantiate, hfree, Subst.fresh_rename hnext, apply_rename hf.injective,
    List.length_map, hnext]

/-! ## Texts -/

namespace Ty

variable {f : TyVar → TyVar}
variable {name name' : TyVar → String}

theorem textsWith_rename_of {ts : List Ty}
    (h : ∀ t ∈ ts, (t.rename f).textWith name = t.textWith (name ∘ f)) :
    textsWith name (ts.map (rename f)) = textsWith (name ∘ f) ts ∧
      argsWith name (ts.map (rename f)) = argsWith (name ∘ f) ts := by
  induction ts with
  | nil => exact ⟨rfl, rfl⟩
  | cons t ts ih =>
    obtain ⟨ht, hts⟩ := List.forall_mem_cons.1 h
    simp only [List.map_cons, textsWith, argsWith, ht, ih hts, and_self]

theorem textWith_rename (name : TyVar → String) (t : Ty) :
    (t.rename f).textWith name = t.textWith (name ∘ f) := by
  induction t with
  | bool | str | int | effect | data | var => rfl
  | vector e ih | set e ih => simp only [rename_vector, rename_set, textWith, ih]
  | map k v ihk ihv => simp only [rename_map, textWith, ihk, ihv]
  | fn ps r ihps ihr => simp only [rename_fn, textWith, (textsWith_rename_of ihps).1, ihr]
  | applied b as ihb ihas =>
    simp only [rename_applied, textWith, (textsWith_rename_of ihas).2, ihb]

theorem textsWith_congr_of {ts : List Ty} (h : ∀ t ∈ ts, t.textWith name = t.textWith name') :
    textsWith name ts = textsWith name' ts ∧ argsWith name ts = argsWith name' ts := by
  induction ts with
  | nil => exact ⟨rfl, rfl⟩
  | cons t ts ih =>
    obtain ⟨ht, hts⟩ := List.forall_mem_cons.1 h
    simp only [textsWith, argsWith, ht, ih hts, and_self]

theorem textWith_congr {t : Ty} (h : ∀ v ∈ t.vars, name v = name' v) :
    t.textWith name = t.textWith name' := by
  induction t with
  | bool | str | int | effect | data => rfl
  | var v => exact h v (List.mem_singleton_self v)
  | vector e ih | set e ih => simp only [textWith, ih h]
  | map k v ihk ihv =>
    obtain ⟨hk, hv⟩ := List.forall_mem_append.1 h
    simp only [textWith, ihk hk, ihv hv]
  | fn ps r ihps ihr =>
    obtain ⟨hps, hr⟩ := List.forall_mem_append.1 h
    have htexts := (textsWith_congr_of fun p hp =>
      ihps p hp fun v hv => hps v (mem_varsAll.2 ⟨p, hp, hv⟩)).1
    simp only [textWith, htexts, ihr hr]
  | applied b as ihb ihas =>
    obtain ⟨hb, has⟩ := List.forall_mem_append.1 h
    have hargs := (textsWith_congr_of fun a ha =>
      ihas a ha fun v hv => has v (mem_varsAll.2 ⟨a, ha, hv⟩)).2
    simp only [textWith, ihb hb, hargs]

/-- **The text of a type does not depend on the numbers of its variables.** -/
theorem text_rename {t : Ty} (hf : {v | v ∈ t.vars}.InjOn f) : (t.rename f).text = t.text := by
  have hsee : Naming.see [] (t.rename f) = (Naming.see [] t).map f := by
    rw [Naming.see, Naming.see, vars_rename, List.nil_append, List.nil_append, eraseDups_map hf]
  have hseen : ∀ v, v ∈ Naming.see [] t ↔ v ∈ t.vars := fun v => by simp [Naming.see]
  show (Naming.see [] (t.rename f)).text (t.rename f) = (Naming.see [] t).text t
  rw [hsee, Naming.text, Naming.text, textWith_rename]
  refine textWith_congr fun v hv => congrArg varName (idxOf_map fun w hw => ?_)
  exact hf ((hseen w).1 hw) hv

end Ty

end TypedLisp
