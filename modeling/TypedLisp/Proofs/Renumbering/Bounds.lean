import TypedLisp.Proofs.Renumbering.Sessions

/-!
# The numbers that a session has used

The numbers of a session come from its supply, which never goes back
(`Session.supply_le_of_analyse`), so every type variable of the environment lies below it. A
renumbering that moves only what the supply gives next therefore leaves the environment of every
session that can be reached as it is
(`Session.Reachable.bounded`).
-/

namespace TypedLisp

namespace Renumbering

variable {ρ : Renumbering} {k k' : TyVar}

/-- Whether a renumbering leaves the type variables below `k` as they are. -/
def Fixes (ρ : Renumbering) (k : TyVar) : Prop := ∀ v < k, ρ.tyVar v = v

namespace Fixes

theorem mono (h : ρ.Fixes k') (hle : k ≤ k') : ρ.Fixes k :=
  fun v hv => h v (Nat.lt_of_lt_of_le hv hle)

theorem onTy (h : ρ.Fixes k) {t : Ty} (ht : ∀ v ∈ t.vars, v < k) : ρ.onTy t = t :=
  Ty.rename_eq_self fun v hv => h v (ht v hv)

theorem onTy_option (h : ρ.Fixes k) {o : Option Ty} (ho : ∀ t, o = some t → ∀ v ∈ t.vars, v < k) :
    o.map ρ.onTy = o := by
  cases o with
  | none => rfl
  | some t => rw [Option.map_some, h.onTy (ho t rfl)]

theorem onTy_all (h : ρ.Fixes k) {ts : List Ty} (hts : ∀ v ∈ Ty.varsAll ts, v < k) :
    ts.map ρ.onTy = ts := by
  induction ts with
  | nil => rfl
  | cons t ts ih =>
    obtain ⟨ht, hts⟩ := List.forall_mem_append.1 hts
    rw [List.map_cons, h.onTy ht, ih hts]

theorem onConstructor (h : ρ.Fixes k) {c : Constructor} (hc : ∀ v ∈ c.vars, v < k) :
    ρ.onConstructor c = c := by
  obtain ⟨name, fields⟩ := c
  cases fields with
  | none => rfl
  | some ts => exact congrArg (fun ts => Constructor.mk name (some ts)) (h.onTy_all hc)

theorem onDataType (h : ρ.Fixes k) {d : DataType} (hd : ∀ v ∈ d.vars, v < k) :
    ρ.onDataType d = d := by
  obtain ⟨hparams, hfields⟩ := List.forall_mem_append.1 hd
  have hconstructors : d.constructors.map ρ.onConstructor = d.constructors :=
    (List.map_congr_left fun c hc => h.onConstructor fun v hv =>
      hfields v (List.mem_flatMap.2 ⟨c, hc, hv⟩)).trans (List.map_id _)
  have hparams' : d.params.map ρ.tyVar = d.params :=
    (List.map_congr_left fun v hv => h v (hparams v hv)).trans (List.map_id _)
  rw [Renumbering.onDataType, hparams', hconstructors]

end Fixes

/-- The renumbering that moves up what a supply gives next. -/
def above (s : Supply) (tyVars locals : Nat) : Renumbering where
  tyVar := shift s.tyVar tyVars
  localId := shift s.localId locals
  tyVar_mono := strictMono_shift _ _
  localId_mono := strictMono_shift _ _

variable (s : Supply) (tyVars locals : Nat)

theorem fixes_above : (above s tyVars locals).Fixes s.tyVar := fun _ hv => shift_of_lt hv _

theorem good_above : (above s tyVars locals).analysing.Good s :=
  ⟨shifts_shift (Nat.le_refl _) _, shifts_shift (Nat.le_refl _) _⟩

theorem onSupply_above :
    (above s tyVars locals).onSupply s = ⟨s.tyVar + tyVars, s.localId + locals⟩ :=
  congrArg₂ Supply.mk (shift_of_le (Nat.le_refl _) _) (shift_of_le (Nat.le_refl _) _)

end Renumbering

/-! ## Supplies -/

namespace Session

end Session

/-! ## Environments -/

/-- Whether the type variables of an environment are below `k`. -/
def Env.Bounded (env : Env) (k : TyVar) : Prop :=
  ∀ ρ : Renumbering, ρ.Fixes k → ρ.onEnv env = env

namespace Env.Bounded

variable {env : Env} {k k' : TyVar}

theorem mono (h : env.Bounded k) (hle : k ≤ k') : env.Bounded k' := fun ρ hρ => h ρ (hρ.mono hle)

theorem onVar (h : env.Bounded k) {g : GlobalName} {v : Var} (hv : env.var? g = some v)
    {ρ : Renumbering} (hρ : ρ.Fixes k) : ρ.onVar v = v := by
  have hvar := ρ.var?_onEnv env g
  rw [h ρ hρ, hv] at hvar
  exact (Option.some.inj hvar).symm

theorem withVar (h : env.Bounded k) {v : Var} (hv : ∀ ρ : Renumbering, ρ.Fixes k → ρ.onVar v = v) :
    (env.withVar v).Bounded k := fun ρ hρ => by
  rw [← ρ.onEnv_withVar, h ρ hρ, hv ρ hρ]

theorem withDataType (h : env.Bounded k) {d : DataType} (hd : ∀ v ∈ d.vars, v < k) {vs : List Var}
    (hvs : ∀ ρ : Renumbering, ρ.Fixes k → vs.map ρ.onVar = vs) :
    (env.withDataType d vs).Bounded k := fun ρ hρ => by
  have henv := ρ.onEnv_withDataType env d vs
  rw [h ρ hρ, hρ.onDataType hd, hvs ρ hρ] at henv
  exact henv.symm

theorem withNs (h : env.Bounded k) (d : NsDecl) : (env.withNs d).Bounded k := fun ρ hρ =>
  congrArg (Env.withNs · d) (h ρ hρ)

end Env.Bounded

namespace Session

variable {s s' : Session} {k : TyVar} {ρ : Renumbering}

theorem ConstructorVars.map_onVar {d : DataType} {cs : List (Constructor × Nat)} {vs : List Var}
    (h : ConstructorVars d cs s vs s') (hd : ρ.onDataType d = d)
    (hcs : ∀ c ∈ cs, ρ.onConstructor c.1 = c.1) : vs.map ρ.onVar = vs := by
  induction h with
  | nil => rfl
  | @cons c tag cs s s' cell cells vs _ _ ih =>
    obtain ⟨hc, hcs⟩ := List.forall_mem_cons.1 hcs
    have hty := ρ.constructorTy_onDataType d c
    rw [hd, hc] at hty
    rw [List.map_cons, ih hcs, show ρ.onVar (varOf d c cell) = varOf d c cell from
      congrArg (fun t => { varOf d c cell with inferred := some t }) hty.symm]

/-- **What a form enters into the environment has type variables below the supply.** -/
theorem Enters.bounded {t : Expr Ty} (h : s.Enters t s') (hs : s.env.Bounded k)
    (ht : Formed k t) : s'.env.Bounded k := by
  cases h with
  | @define name declared body n a kind closures s₁ cell cells ho =>
    have hquiet := quiet_of_definedObject ho
    obtain ⟨hdeclared, hann⟩ := ht
    refine Env.Bounded.withVar (hquiet.env_eq ▸ hs) fun ρ hρ => ?_
    rw [Renumbering.onVar, hρ.onTy_option hdeclared, Option.map_some, hρ.onTy hann]
  | ns d n => exact hs.withNs d
  | ascribe hv =>
    cases ht with
    | ascribe _ hty =>
      refine hs.withVar fun ρ hρ => ?_
      cases hv with
      | @kept w u hw =>
        have hinferred := congrArg Var.inferred (hs.onVar hw hρ)
        rw [Renumbering.onVar] at hinferred ⊢
        simp only at hinferred
        rw [Option.map_some, hρ.onTy hty, hinferred]
      | new => rw [Renumbering.onVar, Option.map_some, hρ.onTy hty]; rfl
  | @data d n units vs s' hvs =>
    cases ht with
    | data _ hvars =>
      have henv : s'.env = s.env := hvs.env_eq
      rw [henv]
      refine hs.withDataType hvars fun ρ hρ => hvs.map_onVar (hρ.onDataType hvars) fun c hc => ?_
      refine hρ.onConstructor fun v hv => hvars v (List.mem_append_right _ ?_)
      exact List.mem_flatMap.2 ⟨c.1, (List.mem_zipIdx' hc).2 ▸ List.getElem_mem _, hv⟩
  | host =>
    cases ht with
    | host _ _ hty =>
      refine hs.withVar fun ρ hρ => ?_
      rw [Renumbering.onVar, Option.map_some, hρ.onTy hty]
      rfl

theorem ConstructorVars.supply_eq {d : DataType} {cs : List (Constructor × Nat)} {vs : List Var}
    (h : ConstructorVars d cs s vs s') : s'.supply = s.supply := by
  induction h with
  | nil => rfl
  | cons _ _ ih => exact ih

theorem Enters.supply_eq {t : Expr Ty} (h : s.Enters t s') : s'.supply = s.supply := by
  cases h with
  | @define name declared body n a kind closures s₁ cell cells ho =>
    have hquiet := quiet_of_definedObject ho
    exact hquiet.supply_eq
  | data hvs => exact hvs.supply_eq
  | ns | ascribe | host => rfl

theorem bounded_defineBuiltin (hs : s.env.Bounded s.supply.tyVar) (b : Builtin) :
    (s.defineBuiltin b).env.Bounded (s.defineBuiltin b).supply.tyVar := by
  rw [defineBuiltin_eq]
  refine (hs.mono (Nat.le_succ _)).withVar fun ρ hρ => ?_
  have hty : ρ.onTy (b.ty s.supply.tyVar) = b.ty s.supply.tyVar := by
    refine hρ.onTy fun v hv => Nat.lt_succ_of_le (Nat.le_of_eq ?_)
    cases b <;> simp_all [Builtin.ty, Ty.vars, Ty.varsAll]
  exact congrArg (fun t => { s.builtinVar b with inferred := some t }) hty

theorem bounded_start (limit : Nat) :
    (Session.start limit).env.Bounded (Session.start limit).supply.tyVar :=
  start_induction (P := fun s => s.env.Bounded s.supply.tyVar) (fun _ _ => rfl)
    fun _ b hs => bounded_defineBuiltin hs b

/-- **The environment of every session that can be reached has type variables below its supply.** -/
theorem Reachable.bounded (h : s.Reachable) : s.env.Bounded s.supply.tyVar := by
  refine h.invariant (P := fun s => s.env.Bounded s.supply.tyVar) (fun hs hle => hs.mono hle)
    (fun {s s'} hs hq => ?_) id bounded_start fun hr hs hf ha ht henters => ?_
  · show s'.env.Bounded s'.supply.tyVar
    rwa [hq.env_eq, hq.supply_eq]
  · obtain ⟨hle, hformed⟩ := formed_of_infer hr.coherent hf ha ht
    have hsupply := congrArg Supply.tyVar henters.supply_eq
    exact (henters.bounded (hs.mono hle) hformed).mono (Nat.le_of_eq hsupply.symm)

end Session

end TypedLisp
