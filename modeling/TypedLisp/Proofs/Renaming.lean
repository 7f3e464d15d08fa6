import Mathlib.Data.Set.Function
import TypedLisp.Proofs.Unification

/-!
# Renaming of variables

`Ty.alphaEquivalent` finds a one-to-one renaming of the variables of a type that gives another type,
if there is one (`alphaEquivalent_iff`). So alpha-equivalence is an equivalence, and types that are
alpha-equivalent are instances of each other. `Ty.subtypeOf` tests whether a type is an instance of
a type with other variables (`subtypeOf_iff`).
-/

namespace TypedLisp

namespace Renaming

variable {r r' : Renaming}

/-- Whether the two directions of a renaming are inverse to each other. -/
def Inverse (r : Renaming) : Prop :=
  ∀ a b, r.forward.lookup a = some b ↔ r.backward.lookup b = some a

/-- Whether a renaming has all pairs of another. -/
def Extends (r' r : Renaming) : Prop :=
  ∀ a b, r.forward.lookup a = some b → r'.forward.lookup a = some b

/-- What a renaming makes of a variable. -/
def toFun (r : Renaming) (v : TyVar) : Ty := .var ((r.forward.lookup v).getD v)

/-- Whether a renaming has all the variables of a type and makes it another type. -/
def Renames (r : Renaming) (t u : Ty) : Prop :=
  (∀ v ∈ t.vars, ∃ w, r.forward.lookup v = some w) ∧ t.bind r.toFun = u

theorem Extends.trans {r'' : Renaming} (h : r'.Extends r) (h' : r''.Extends r') :
    r''.Extends r := fun a b hab => h' a b (h a b hab)

theorem Renames.mono {t u : Ty} (h : r.Renames t u) (hr : r'.Extends r) : r'.Renames t u := by
  refine ⟨fun v hv => ?_, ?_⟩
  · obtain ⟨w, hw⟩ := h.1 v hv
    exact ⟨w, hr v w hw⟩
  · rw [← h.2]
    refine Ty.bind_congr fun v hv => ?_
    obtain ⟨w, hw⟩ := h.1 v hv
    rw [toFun, toFun, hw, hr v w hw]

theorem pair_eq_true {a b : TyVar} (hr : r.Inverse) (h : r.pair a b = (true, r')) :
    r'.Inverse ∧ r'.Extends r ∧ r'.forward.lookup a = some b := by
  unfold pair at h
  split at h
  · rename_i ha hb
    obtain ⟨-, rfl⟩ := Prod.mk.inj h
    refine ⟨fun x y => ?_, fun x y hxy => ?_, by simp⟩
    · show ((a, b) :: r.forward).lookup x = some y ↔ ((b, a) :: r.backward).lookup y = some x
      by_cases hx : x = a
      · subst hx
        by_cases hy : y = b
        · simp [hy]
        · simp [Ne.symm hy, lookup_cons_of_ne hy, ← hr x y, ha]
      · by_cases hy : y = b
        · subst hy
          simp [Ne.symm hx, lookup_cons_of_ne hx, hr x y, hb]
        · rw [lookup_cons_of_ne hx, lookup_cons_of_ne hy]
          exact hr x y
    · have hx : x ≠ a := fun hx => by simp [hx, ha] at hxy
      exact (lookup_cons_of_ne hx _ _).trans hxy
  · rename_i b' a' ha hb
    obtain ⟨heq, rfl⟩ := Prod.mk.inj h
    obtain ⟨rfl, -⟩ : b' = b ∧ a' = a := by simpa using heq
    exact ⟨hr, fun _ _ h => h, ha⟩
  · cases h

/-- Whether a renaming has only pairs of a function, from a set on which the function is
one-to-one. -/
structure Within (r : Renaming) (f : TyVar → TyVar) (S : Set TyVar) : Prop where
  inverse : r.Inverse
  pairs : ∀ a b, r.forward.lookup a = some b → a ∈ S ∧ b = f a

theorem Within.pair {f : TyVar → TyVar} {S : Set TyVar} (h : r.Within f S) (hf : S.InjOn f)
    {a : TyVar} (ha : a ∈ S) : ∃ r', r.pair a (f a) = (true, r') ∧ r'.Within f S := by
  have done : ∀ r', r.pair a (f a) = (true, r') → (∀ x y, r'.forward.lookup x = some y →
      x = a ∧ y = f a ∨ r.forward.lookup x = some y) →
      ∃ r', r.pair a (f a) = (true, r') ∧ r'.Within f S := by
    intro r' hp hx
    refine ⟨r', hp, (pair_eq_true h.inverse hp).1, fun x y hxy => ?_⟩
    rcases hx x y hxy with ⟨rfl, rfl⟩ | hxy
    · exact ⟨ha, rfl⟩
    · exact h.pairs x y hxy
  cases hfw : r.forward.lookup a with
  | some b =>
    obtain ⟨-, rfl⟩ := h.pairs a b hfw
    have hbw := (h.inverse a (f a)).1 hfw
    exact done r (by simp [Renaming.pair, hfw, hbw]) fun x y hxy => .inr hxy
  | none =>
    have hbw : r.backward.lookup (f a) = none := by
      cases hbw : r.backward.lookup (f a) with
      | none => rfl
      | some a' =>
        have ha' := (h.inverse a' (f a)).2 hbw
        obtain ⟨hS, heq⟩ := h.pairs a' (f a) ha'
        rw [hf ha hS heq, ha'] at hfw
        cases hfw
    refine done _ (by simp [Renaming.pair, hfw, hbw]; rfl) fun x y hxy => ?_
    obtain ⟨rfl, rfl⟩ | ⟨-, hxy⟩ := lookup_cons_eq_some.1 hxy
    · exact .inl ⟨rfl, rfl⟩
    · exact .inr hxy

end Renaming

namespace Ty

open Renaming

variable {f : TyVar → TyVar} {a b t u : Ty} {ts : List Ty}

/-- What it means that two types have been paired up. -/
def PairsUp (t : Ty) : Prop :=
  ∀ {r r' : Renaming} {u : Ty}, r.Inverse → pairUp r t u = (true, r') →
    r'.Inverse ∧ r'.Extends r ∧ r'.Renames t u

theorem pairUpAll_eq_true (h : ∀ t ∈ ts, PairsUp t) {r r' : Renaming}
    {us : List Ty} (hr : r.Inverse) (hp : pairUpAll r ts us = (true, r')) :
    r'.Inverse ∧ r'.Extends r ∧ (∀ t ∈ ts, ∀ v ∈ t.vars, ∃ w, r'.forward.lookup v = some w) ∧
      ts.map (bind r'.toFun) = us := by
  induction ts generalizing r us with
  | nil =>
    cases us with
    | nil =>
      obtain ⟨-, rfl⟩ := Prod.mk.inj hp
      exact ⟨hr, fun _ _ h => h, by simp, rfl⟩
    | cons u us => cases hp
  | cons t ts ih =>
    obtain ⟨ht, hts⟩ := List.forall_mem_cons.1 h
    cases us with
    | nil => cases hp
    | cons u us =>
      rw [pairUpAll] at hp
      split at hp
      · rename_i r₁ h₁
        obtain ⟨hr₁, hext₁, hren₁⟩ := ht hr h₁
        obtain ⟨hr', hext, hvars, hmap⟩ := ih hts hr₁ hp
        have hren := hren₁.mono hext
        exact ⟨hr', hext₁.trans hext, List.forall_mem_cons.2 ⟨hren.1, hvars⟩,
          by rw [List.map_cons, hren.2, hmap]⟩
      · cases hp

theorem pairUp_eq_true (t : Ty) : PairsUp t := by
  induction t with
  | bool | str | int | effect =>
    intro r r' u hr h
    cases u <;> simp only [pairUp, Prod.mk.injEq, Bool.false_eq_true, false_and, true_and] at h
    subst h
    exact ⟨hr, fun _ _ h => h, by simp [Renames, vars]⟩
  | vector e ih | set e ih =>
    intro r r' u hr h
    cases u <;> simp only [pairUp, Prod.mk.injEq, Bool.false_eq_true, false_and] at h
    obtain ⟨hr', hext, hvars, hbind⟩ := ih hr h
    exact ⟨hr', hext, by simpa [vars] using hvars, by simp [hbind]⟩
  | map k v ihk ihv =>
    intro r r' u hr h
    cases u <;> simp only [pairUp, Prod.mk.injEq, Bool.false_eq_true, false_and] at h
    split at h
    · rename_i r₁ h₁
      obtain ⟨hr₁, hext₁, hk⟩ := ihk hr h₁
      obtain ⟨hr', hext, hvars, hbind⟩ := ihv hr₁ h
      obtain ⟨hkvars, hkbind⟩ := hk.mono hext
      refine ⟨hr', hext₁.trans hext, fun x hx => ?_, by simp [hkbind, hbind]⟩
      rcases List.mem_append.1 hx with hx | hx
      · exact hkvars x hx
      · exact hvars x hx
    · cases h
  | fn ps t ihps iht =>
    intro r r' u hr h
    cases u <;> simp only [pairUp, Prod.mk.injEq, Bool.false_eq_true, false_and] at h
    split at h
    · split at h
      · rename_i r₁ h₁
        obtain ⟨hr₁, hext₁, hpvars, hpbind⟩ := pairUpAll_eq_true ihps hr h₁
        obtain ⟨hr', hext, hvars, hbind⟩ := iht hr₁ h
        have hps : ∀ p ∈ ps, r'.Renames p (p.bind r₁.toFun) := fun p hp =>
          Renames.mono ⟨hpvars p hp, rfl⟩ hext
        refine ⟨hr', hext₁.trans hext, fun x hx => ?_, ?_⟩
        · rcases List.mem_append.1 hx with hx | hx
          · obtain ⟨p, hp, hx⟩ := mem_varsAll.1 hx
            exact (hps p hp).1 x hx
          · exact hvars x hx
        · rw [bind, bindAll_eq_map, hbind, ← hpbind]
          exact congrArg (Ty.fn · _) (List.map_congr_left fun p hp => (hps p hp).2)
      · cases h
    · cases h
  | var v =>
    intro r r' u hr h
    cases u <;> simp only [pairUp, Prod.mk.injEq, Bool.false_eq_true, false_and] at h
    obtain ⟨hr', hext, hv⟩ := pair_eq_true hr h
    exact ⟨hr', hext, by simp [vars, hv], by simp [toFun, hv]⟩
  | data n =>
    intro r r' u hr h
    cases u <;> simp only [pairUp, Prod.mk.injEq, Bool.false_eq_true, false_and] at h
    obtain ⟨hn, rfl⟩ := h
    obtain rfl := eq_of_beq hn
    exact ⟨hr, fun _ _ h => h, by simp [Renames, vars]⟩
  | applied b as ihb ihas =>
    intro r r' u hr h
    cases u <;> simp only [pairUp, Prod.mk.injEq, Bool.false_eq_true, false_and] at h
    split at h
    · split at h
      · rename_i r₁ h₁
        obtain ⟨hr₁, hext₁, hb⟩ := ihb hr h₁
        obtain ⟨hr', hext, havars, habind⟩ := pairUpAll_eq_true ihas hr₁ h
        obtain ⟨hbvars, hbbind⟩ := hb.mono hext
        refine ⟨hr', hext₁.trans hext, fun x hx => ?_, by simp [hbbind, habind]⟩
        rcases List.mem_append.1 hx with hx | hx
        · exact hbvars x hx
        · obtain ⟨a, ha, hx⟩ := mem_varsAll.1 hx
          exact havars a ha x hx
      · cases h
    · cases h

/-- What it means that a type can be paired up with what a one-to-one renaming makes of it. -/
def CanPairUp (f : TyVar → TyVar) (S : Set TyVar) (t : Ty) : Prop :=
  ∀ {r : Renaming}, r.Within f S → (∀ v ∈ t.vars, v ∈ S) →
    ∃ r', pairUp r t (t.bind fun v => .var (f v)) = (true, r') ∧ r'.Within f S

theorem exists_pairUpAll {S : Set TyVar} (h : ∀ t ∈ ts, CanPairUp f S t)
    {r : Renaming} (hr : r.Within f S) (hS : ∀ t ∈ ts, ∀ v ∈ t.vars, v ∈ S) :
    ∃ r', pairUpAll r ts (ts.map (bind fun v => .var (f v))) = (true, r') ∧ r'.Within f S := by
  induction ts generalizing r with
  | nil => exact ⟨r, rfl, hr⟩
  | cons t ts ih =>
    obtain ⟨ht, hts⟩ := List.forall_mem_cons.1 h
    obtain ⟨hSt, hSts⟩ := List.forall_mem_cons.1 hS
    obtain ⟨r₁, h₁, hr₁⟩ := ht hr hSt
    obtain ⟨r', h', hr'⟩ := ih hts hr₁ hSts
    exact ⟨r', by simp only [List.map_cons, pairUpAll, h₁, h'], hr'⟩

theorem exists_pairUp {S : Set TyVar} (hf : S.InjOn f) (t : Ty) : CanPairUp f S t := by
  induction t with
  | bool | str | int | effect => exact fun hr _ => ⟨_, rfl, hr⟩
  | vector e ih | set e ih => exact fun hr hS => ih hr hS
  | map k v ihk ihv =>
    intro r hr hS
    simp only [vars, List.mem_append] at hS
    obtain ⟨r₁, h₁, hr₁⟩ := ihk hr fun x hx => hS x (.inl hx)
    obtain ⟨r', h', hr'⟩ := ihv hr₁ fun x hx => hS x (.inr hx)
    exact ⟨r', by simp only [bind, pairUp, h₁, h'], hr'⟩
  | fn ps t ihps iht =>
    intro r hr hS
    simp only [vars, List.mem_append, mem_varsAll] at hS
    obtain ⟨r₁, h₁, hr₁⟩ := exists_pairUpAll ihps hr fun p hp x hx => hS x (.inl ⟨p, hp, hx⟩)
    obtain ⟨r', h', hr'⟩ := iht hr₁ fun x hx => hS x (.inr hx)
    refine ⟨r', ?_, hr'⟩
    simp only [bind, bindAll_eq_map, pairUp, List.length_map, if_true, h₁, h']
  | var v =>
    intro r hr hS
    exact hr.pair hf (hS v (by simp [vars]))
  | data n => exact fun hr _ => ⟨_, by simp [pairUp], hr⟩
  | applied b as ihb ihas =>
    intro r hr hS
    simp only [vars, List.mem_append, mem_varsAll] at hS
    obtain ⟨r₁, h₁, hr₁⟩ := ihb hr fun x hx => hS x (.inl hx)
    obtain ⟨r', h', hr'⟩ := exists_pairUpAll ihas hr₁ fun a ha x hx => hS x (.inr ⟨a, ha, hx⟩)
    refine ⟨r', ?_, hr'⟩
    simp only [bind, bindAll_eq_map, pairUp, List.length_map, if_true, h₁, h']

/-- The pairs that a function makes right sides of the left sides of agree if it is one-to-one. -/
theorem pairUpAll_of_injOn (hf : {v | ∃ t ∈ ts, v ∈ t.vars}.InjOn f) :
    (pairUpAll {} ts (ts.map (bind fun v => .var (f v)))).1 = true := by
  obtain ⟨r, hr, -⟩ := exists_pairUpAll (r := {}) (fun t _ => exists_pairUp hf t)
    ⟨fun x y => by simp, by simp⟩ fun t ht v hv => ⟨t, ht, hv⟩
  rw [hr]

/-- If all pairs agree then the pairs of variables found are a one-to-one function. -/
theorem exists_injOn_of_pairUpAll {us : List Ty} (h : (pairUpAll {} ts us).1 = true) :
    ∃ f : TyVar → TyVar, {v | ∃ t ∈ ts, v ∈ t.vars}.InjOn f ∧
      ts.map (bind fun v => .var (f v)) = us := by
  set r := (pairUpAll {} ts us).2
  have hpair : pairUpAll {} ts us = (true, r) := Prod.ext h rfl
  obtain ⟨hr, -, hvars, hmap⟩ :=
    pairUpAll_eq_true (fun t _ => pairUp_eq_true t) (fun x y => by simp) hpair
  refine ⟨fun v => (r.forward.lookup v).getD v, ?_, hmap⟩
  rintro x ⟨t, ht, hx⟩ y ⟨u, hu, hy⟩ hxy
  obtain ⟨x', hx'⟩ := hvars t ht x hx
  obtain ⟨y', hy'⟩ := hvars u hu y hy
  obtain rfl : x' = y' := by simpa [hx', hy'] using hxy
  exact Option.some.inj (((hr x x').1 hx').symm.trans ((hr y x').1 hy'))

/-- **Types are alpha-equivalent exactly if a one-to-one renaming makes one of the other.** -/
theorem alphaEquivalent_iff : a.alphaEquivalent b = true ↔
    ∃ f : TyVar → TyVar, {v | v ∈ a.vars}.InjOn f ∧ a.bind (fun v => .var (f v)) = b := by
  have hone : a.alphaEquivalent b = (pairUpAll {} [a] [b]).1 := by
    rw [alphaEquivalent, pairUpAll]
    split <;> simp_all [pairUpAll]
  rw [hone]
  constructor
  · intro h
    simpa using exists_injOn_of_pairUpAll h
  · rintro ⟨f, hf, rfl⟩
    have hall : {v | ∃ t ∈ [a], v ∈ t.vars}.InjOn f := by simpa using hf
    exact pairUpAll_of_injOn hall

theorem alphaEquivalent_refl (a : Ty) : a.alphaEquivalent a = true :=
  alphaEquivalent_iff.2 ⟨id, Set.injOn_id _, bind_eq_self_iff.2 fun _ _ => rfl⟩

theorem alphaEquivalent_symm (h : a.alphaEquivalent b = true) : b.alphaEquivalent a = true := by
  obtain ⟨f, hf, rfl⟩ := alphaEquivalent_iff.1 h
  -- the variables of the second type are those of the first one under the renaming
  let back := Function.invFunOn f {v | v ∈ a.vars}
  have hback : ∀ v ∈ a.vars, back (f v) = v := fun v hv => hf.leftInvOn_invFunOn hv
  have hvars : ∀ w ∈ (a.bind fun v => .var (f v)).vars, ∃ v ∈ a.vars, f v = w := fun w hw => by
    obtain ⟨v, hv, hw⟩ := mem_vars_bind.1 hw
    exact ⟨v, hv, (List.mem_singleton.1 hw).symm⟩
  refine alphaEquivalent_iff.2 ⟨back, fun w hw w' hw' heq => ?_, ?_⟩
  · obtain ⟨v, hv, rfl⟩ := hvars w hw
    obtain ⟨v', hv', rfl⟩ := hvars w' hw'
    rw [hback v hv, hback v' hv'] at heq
    rw [heq]
  · rw [bind_bind, bind_eq_self_iff]
    exact fun v hv => congrArg Ty.var (hback v hv)

theorem alphaEquivalent_trans {c : Ty} (h : a.alphaEquivalent b = true)
    (h' : b.alphaEquivalent c = true) : a.alphaEquivalent c = true := by
  obtain ⟨f, hf, rfl⟩ := alphaEquivalent_iff.1 h
  obtain ⟨g, hg, rfl⟩ := alphaEquivalent_iff.1 h'
  have hvars : ∀ v ∈ a.vars, f v ∈ (a.bind fun v => .var (f v)).vars := fun v hv =>
    mem_vars_bind.2 ⟨v, hv, List.mem_singleton_self _⟩
  refine alphaEquivalent_iff.2 ⟨g ∘ f, fun v hv v' hv' heq => ?_, ?_⟩
  · exact hf hv hv' (hg (hvars v hv) (hvars v' hv') heq)
  · rw [bind_bind]
    rfl

theorem alphaEquivalent_comm (a b : Ty) : a.alphaEquivalent b = b.alphaEquivalent a :=
  Bool.eq_iff_iff.2 ⟨alphaEquivalent_symm, alphaEquivalent_symm⟩

theorem instanceOf_of_alphaEquivalent (h : a.alphaEquivalent b = true) :
    a.InstanceOf b ∧ b.InstanceOf a := by
  have hinst : ∀ {a b : Ty}, a.alphaEquivalent b = true → b.InstanceOf a := fun h => by
    obtain ⟨f, -, rfl⟩ := alphaEquivalent_iff.1 h
    exact instanceOf_bind _ _
  exact ⟨hinst (alphaEquivalent_symm h), hinst h⟩

theorem instanceOf_of_subtypeOf (h : t.subtypeOf u = true) : t.InstanceOf u := by
  unfold subtypeOf at h
  split at h
  · rename_i s hs
    exact (instanceOf_of_alphaEquivalent h).1.trans ⟨s, rfl⟩
  · cases h

/-- The variable that a type is, or else a given one. -/
def varOr : Ty → TyVar → TyVar
  | .var w, _ => w
  | _, v => v

/-- **The test for instances is exact on types without common variables.** -/
theorem subtypeOf_iff (h : ∀ v ∈ t.vars, v ∉ u.vars) : t.subtypeOf u = true ↔ t.InstanceOf u := by
  refine ⟨instanceOf_of_subtypeOf, ?_⟩
  rintro ⟨s, hs⟩
  -- `t` on its own variables, and what `s` makes of the others, solves the equation
  set f : TyVar → Ty := fun v => if v ∈ t.vars then .var v else s.toFun v
  have ht : t.bind f = t := bind_eq_self_iff.2 fun v hv => if_pos hv
  have hu : u.bind f = t := by
    rw [← hs, apply_eq_bind]
    exact bind_congr fun v hv => if_neg fun hvt => h v hvt hv
  have hsolves : Unify.Solves f [(t, u)] := by simp [ht, hu]
  obtain ⟨m, hm, hfm⟩ := exists_unify hsolves
  have hvar : ∀ v ∈ t.vars, ∃ w, m.toFun v = .var w ∧ f w = .var v := fun v hv => by
    have hv' : (m.toFun v).bind f = .var v := (hfm v).trans (if_pos hv)
    cases hmv : m.toFun v with
    | var w => exact ⟨w, rfl, by rwa [hmv, bind] at hv'⟩
    | _ => simp [hmv] at hv'
  have hsub : t.subtypeOf u = t.alphaEquivalent (u.apply m) := by simp [subtypeOf, hm]
  rw [hsub, alphaEquivalent_iff]
  refine ⟨fun v => (m.toFun v).varOr v, fun x hx y hy hxy => ?_, ?_⟩
  · obtain ⟨x', hx', hfx⟩ := hvar x hx
    obtain ⟨y', hy', hfy⟩ := hvar y hy
    obtain rfl : x' = y' := by simpa [hx', hy', varOr] using hxy
    exact Ty.var.inj (hfx.symm.trans hfy)
  · have heq : t.apply m = u.apply m := apply_unify hm (e := (t, u)) (by simp)
    rw [← heq, apply_eq_bind]
    refine bind_congr fun v hv => ?_
    obtain ⟨w, hw, -⟩ := hvar v hv
    simp only [hw, varOr]

end Ty

end TypedLisp
