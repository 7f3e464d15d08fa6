import TypedLisp.Proofs.Namespaces.Declarations
import TypedLisp.Proofs.Session.Reachable

/-!
# Referential integrity of the environment

Declarations are checked against the environment in which they are made. What they were found to
refer to stays: an environment only ever knows more names (`Env.Extends`). So in every session that
can be reached the tables of all namespaces lead to something, and vars and data types stand under
their own names in namespaces that there are (`Env.Consistent`).
-/

namespace TypedLisp

/-! ## Tables -/

namespace Table

variable {κ α : Type} [DecidableEq κ] {t : Table κ α} {k k' : κ} {a b : α}

theorem exists_get?_insert (h : ∃ b, t.get? k' = some b) :
    ∃ b, (t.insert k a).get? k' = some b := by
  by_cases hk : k' = k
  · subst hk
    exact ⟨a, get?_insert_self t k' a⟩
  · rwa [get?_insert_of_ne hk]

theorem mem_of_get?_ofList {es : List (κ × α)} (h : (ofList es).get? k = some a) : (k, a) ∈ es := by
  rcases get?_foldl_insert_eq_some h with ⟨e, he, rfl, rfl⟩ | hnone
  · exact he
  · exact absurd hnone nofun

end Table

/-! ## Environments that know more -/

namespace Env

/-- Whether an environment knows all the namespaces, vars and data types that another one knows.
What it knows of them may be something else. -/
structure Extends (e e' : Env) : Prop where
  hasNs : ∀ ns, e.hasNs ns = true → e'.hasNs ns = true
  var : ∀ g, (∃ v, e.var? g = some v) → ∃ v, e'.var? g = some v
  dataType : ∀ g, (∃ d, e.dataType? g = some d) → ∃ d, e'.dataType? g = some d

theorem Extends.refl (e : Env) : e.Extends e := ⟨fun _ => id, fun _ => id, fun _ => id⟩

theorem Extends.trans {e e₁ e' : Env} (h : e.Extends e₁) (h' : e₁.Extends e') : e.Extends e' :=
  ⟨fun ns hns => h'.hasNs ns (h.hasNs ns hns), fun g hg => h'.var g (h.var g hg),
    fun g hg => h'.dataType g (h.dataType g hg)⟩

variable {e : Env}

theorem hasNs_iff {ns : String} : e.hasNs ns = true ↔ ∃ T, e.tables? ns = some T :=
  Option.isSome_iff_exists

theorem hasNs_ensureNs (ns : String) : (e.ensureNs ns).hasNs ns = true := by
  unfold ensureNs
  split
  · assumption
  · exact hasNs_iff.2 ⟨_, Table.get?_insert_self ..⟩

theorem hasNs_ensureNs_of_hasNs {ns ns' : String} (h : e.hasNs ns' = true) :
    (e.ensureNs ns).hasNs ns' = true := by
  unfold ensureNs
  split
  · exact h
  · exact hasNs_iff.2 (Table.exists_get?_insert (hasNs_iff.1 h))

theorem tables?_ensureNs {ns ns' : String} {T : NsTables}
    (h : (e.ensureNs ns).tables? ns' = some T) : T = {} ∨ e.tables? ns' = some T := by
  unfold ensureNs at h
  split at h
  · exact .inr h
  · exact (Table.get?_insert_eq_some h).imp And.right And.right

theorem exists_get?_foldl_insert {vars : Table GlobalName Var} {g : GlobalName} (vs : List Var)
    (h : ∃ v, vars.get? g = some v) :
    ∃ v, (vs.foldl (fun vars v => vars.insert v.name v) vars).get? g = some v := by
  induction vs generalizing vars with
  | nil => exact h
  | cons v vs ih => exact ih (Table.exists_get?_insert h)

theorem extends_withVar (e : Env) (v : Var) : e.Extends (e.withVar v) :=
  ⟨fun _ => hasNs_ensureNs_of_hasNs, fun _ => Table.exists_get?_insert,
    fun g h => by unfold withVar ensureNs; split <;> exact h⟩

theorem extends_withDataType (e : Env) (d : DataType) (vs : List Var) :
    e.Extends (e.withDataType d vs) :=
  ⟨fun _ => hasNs_ensureNs_of_hasNs, fun _ => exists_get?_foldl_insert vs,
    fun _ => Table.exists_get?_insert⟩

theorem extends_withNs (e : Env) (d : NsDecl) : e.Extends (e.withNs d) :=
  ⟨fun _ h => hasNs_iff.2 (Table.exists_get?_insert (hasNs_iff.1 h)), fun _ => id, fun _ => id⟩

end Env

/-! ## Consistent environments -/

/-- Whether what a namespace takes from elsewhere is there: the target of every alias is a
namespace; every name that is referred to is that of a var; every import names a module of the
host. -/
structure NsTables.Grounded (env : Env) (T : NsTables) : Prop where
  aliases : ∀ a target, T.aliases.get? a = some target → env.hasNs target = true
  refers : ∀ sym g, T.refers.get? sym = some g → g.name = sym ∧ ∃ v, env.var? g = some v
  imports : ∀ sym g, T.imports.get? sym = some g → ∃ m, hostModule? g = some m

theorem NsTables.Grounded.empty (env : Env) : ({} : NsTables).Grounded env :=
  ⟨fun _ _ h => absurd h nofun, fun _ _ h => absurd h nofun, fun _ _ h => absurd h nofun⟩

theorem NsTables.Grounded.mono {env env' : Env} {T : NsTables} (h : T.Grounded env)
    (hext : env.Extends env') : T.Grounded env' :=
  ⟨fun a target ha => hext.hasNs _ (h.aliases a target ha),
    fun sym g hg => (h.refers sym g hg).imp_right (hext.var g), h.imports⟩

theorem NsDecl.Grounded.tables {env : Env} {d : NsDecl} (h : d.Grounded env) :
    (NsTables.ofDecl d).Grounded env :=
  ⟨fun _ _ ha => (h.aliases _ (Table.mem_of_get?_ofList ha)).1,
    fun _ _ hg => h.refers _ (Table.mem_of_get?_ofList hg),
    fun _ _ hg => h.imports _ (Table.mem_of_get?_ofList hg)⟩

/-- Whether all that an environment refers to is there, under its own name. -/
structure Env.Consistent (e : Env) : Prop where
  var_name : ∀ g v, e.var? g = some v → v.name = g
  var_ns : ∀ g v, e.var? g = some v → e.hasNs g.ns = true
  var_visible : ∀ g v, e.var? g = some v → ∃ t, v.visible = some t
  dataType_name : ∀ g d, e.dataType? g = some d → d.name = g
  dataType_ns : ∀ g d, e.dataType? g = some d → e.hasNs g.ns = true
  tables : ∀ ns T, e.tables? ns = some T → T.Grounded e

namespace Env.Consistent

variable {e : Env}

theorem empty : ({} : Env).Consistent where
  var_name _ _ h := absurd h nofun
  var_ns _ _ h := absurd h nofun
  var_visible _ _ h := absurd h nofun
  dataType_name _ _ h := absurd h nofun
  dataType_ns _ _ h := absurd h nofun
  tables ns T h := by
    have hinsert : (Table.insert [] userNs ({} : NsTables)).get? ns = some T := h
    rcases Table.get?_insert_eq_some hinsert with ⟨-, rfl⟩ | ⟨-, h⟩
    · exact .empty _
    · exact absurd h nofun

theorem withVar (h : e.Consistent) {v : Var} (hv : ∃ t, v.visible = some t) :
    (e.withVar v).Consistent := by
  have hext := e.extends_withVar v
  have hvars : ∀ g w, (e.withVar v).var? g = some w → (g = v.name ∧ w = v) ∨ e.var? g = some w :=
    fun g w hw => (Table.get?_insert_eq_some hw).imp_right And.right
  have hdataTypes : ∀ g d, (e.withVar v).dataType? g = some d → e.dataType? g = some d :=
    fun g d hd => by unfold Env.withVar ensureNs at hd; split at hd <;> exact hd
  refine ⟨fun g w hw => ?_, fun g w hw => ?_, fun g w hw => ?_,
    fun g d hd => h.dataType_name g d (hdataTypes g d hd),
    fun g d hd => hext.hasNs _ (h.dataType_ns g d (hdataTypes g d hd)), fun ns T hT => ?_⟩
  · rcases hvars g w hw with ⟨rfl, rfl⟩ | hw
    · rfl
    · exact h.var_name g w hw
  · rcases hvars g w hw with ⟨rfl, rfl⟩ | hw
    · exact hasNs_ensureNs _
    · exact hext.hasNs _ (h.var_ns g w hw)
  · rcases hvars g w hw with ⟨rfl, rfl⟩ | hw
    · exact hv
    · exact h.var_visible g w hw
  · rcases tables?_ensureNs hT with rfl | hT
    · exact .empty _
    · exact (h.tables ns T hT).mono hext

/-- The constructors of a data type are in its namespace, which is added if need be. -/
theorem withDataType (h : e.Consistent) {d : DataType} {vs : List Var}
    (hvs : ∀ v ∈ vs, v.name.ns = d.name.ns ∧ ∃ t, v.visible = some t) :
    (e.withDataType d vs).Consistent := by
  have hext := e.extends_withDataType d vs
  have hvars : ∀ g w, (e.withDataType d vs).var? g = some w →
      (w ∈ vs ∧ w.name = g) ∨ e.var? g = some w := fun g w hw => by
    rcases Table.get?_foldl_insert_eq_some hw with ⟨v, hv, hg, rfl⟩ | hw
    · exact .inl ⟨hv, hg⟩
    · exact .inr hw
  have hdataTypes : ∀ g d', (e.withDataType d vs).dataType? g = some d' →
      (g = d.name ∧ d' = d) ∨ e.dataType? g = some d' :=
    fun g d' hd => (Table.get?_insert_eq_some hd).imp_right And.right
  refine ⟨fun g w hw => ?_, fun g w hw => ?_, fun g w hw => ?_, fun g d' hd => ?_,
    fun g d' hd => ?_, fun ns T hT => ?_⟩
  · rcases hvars g w hw with ⟨-, hg⟩ | hw
    · exact hg
    · exact h.var_name g w hw
  · rcases hvars g w hw with ⟨hmem, rfl⟩ | hw
    · rw [(hvs w hmem).1]
      exact hasNs_ensureNs _
    · exact hext.hasNs _ (h.var_ns g w hw)
  · rcases hvars g w hw with ⟨hmem, -⟩ | hw
    · exact (hvs w hmem).2
    · exact h.var_visible g w hw
  · rcases hdataTypes g d' hd with ⟨rfl, rfl⟩ | hd
    · rfl
    · exact h.dataType_name g d' hd
  · rcases hdataTypes g d' hd with ⟨rfl, rfl⟩ | hd
    · exact hasNs_ensureNs _
    · exact hext.hasNs _ (h.dataType_ns g d' hd)
  · rcases tables?_ensureNs hT with rfl | hT
    · exact .empty _
    · exact (h.tables ns T hT).mono hext

theorem withNs (h : e.Consistent) {d : NsDecl} (hd : d.Grounded e) : (e.withNs d).Consistent := by
  have hext := e.extends_withNs d
  refine ⟨h.var_name, fun g v hv => hext.hasNs _ (h.var_ns g v hv), h.var_visible, h.dataType_name,
    fun g d' hd' => hext.hasNs _ (h.dataType_ns g d' hd'), fun ns T hT => ?_⟩
  rcases Table.get?_insert_eq_some hT with ⟨-, rfl⟩ | ⟨-, hT⟩
  · exact hd.tables.mono hext
  · exact (h.tables ns T hT).mono hext

end Env.Consistent

/-! ## Sessions -/

namespace Session

variable {s s' : Session} {t : Expr Ty}

theorem ConstructorVars.exists_eq_varOf {d : DataType} {cs : List (Constructor × Nat)}
    {vs : List Var} (h : ConstructorVars d cs s vs s') :
    ∀ v ∈ vs, ∃ c ∈ cs, ∃ cell, v = varOf d c.1 cell := by
  induction h with
  | nil => exact nofun
  | @cons c tag cs s s' cell cells vs _ _ ih =>
    refine List.forall_mem_cons.2 ⟨⟨(c, tag), List.mem_cons_self, cell, rfl⟩, fun v hv => ?_⟩
    obtain ⟨c', hc', hv⟩ := ih v hv
    exact ⟨c', List.mem_cons_of_mem _ hc', hv⟩

/-- The vars of the constructors of a data type have the names and the types of the constructors. -/
theorem ConstructorVars.forall_mem {d : DataType} {vs : List Var} {ns : String}
    (h : ConstructorVars d d.constructors.zipIdx s vs s')
    (hns : ∀ c ∈ d.constructors, c.name.ns = ns) :
    ∀ v ∈ vs, v.name.ns = ns ∧ ∃ t, v.visible = some t := by
  intro v hv
  obtain ⟨⟨c, i⟩, hc, cell, rfl⟩ := h.exists_eq_varOf v hv
  exact ⟨hns c (List.fst_mem_of_mem_zipIdx hc), _, rfl⟩

/-- **What a form enters is added to what was known.** -/
theorem Enters.extends (h : s.Enters t s') : s.env.Extends s'.env := by
  cases h with
  | @define name declared body n a kind closures s₁ cell cells ho hcell =>
    have hquiet := quiet_of_definedObject ho
    rw [← hquiet.env_eq]
    exact Env.extends_withVar _ _
  | ns d n => exact Env.extends_withNs _ _
  | ascribe hv => exact Env.extends_withVar _ _
  | data hvs =>
    have henv := hvs.env_eq
    show s.env.Extends (Env.withDataType _ _ _)
    rw [henv]
    exact Env.extends_withDataType _ _ _
  | host harity hcell => exact Env.extends_withVar _ _

/-- **A form that names what it should keeps the environment consistent.** -/
theorem Enters.consistent (h : s.Enters t s') (hs : s.env.Consistent)
    (ht : t.Placed s.env s.ns) : s'.env.Consistent := by
  cases h with
  | @define name declared body n a kind closures s₁ cell cells ho hcell =>
    have hquiet := quiet_of_definedObject ho
    rw [← hquiet.env_eq] at hs
    refine hs.withVar ?_
    cases declared with
    | none => exact ⟨_, rfl⟩
    | some ty => exact ⟨ty, rfl⟩
  | ns d n => exact hs.withNs ht
  | @ascribe name ty n v cells hv =>
    refine hs.withVar ⟨ty, ?_⟩
    cases hv <;> rfl
  | @data d n units vs s' hvs =>
    have henv : s'.env = s.env := hvs.env_eq
    rw [← henv] at hs
    obtain ⟨hd, hconstructors⟩ := ht
    exact hs.withDataType (hvs.forall_mem (by rwa [hd]))
  | host harity hcell => exact hs.withVar ⟨_, rfl⟩

/-- What evaluation of a form does to the environment: nothing, or what the typed form enters. -/
theorem eval_enters (f : Form) (s : Session) :
    ((Session.eval f s).2.env = s.env ∧ (Session.eval f s).2.ns = s.ns) ∨
    ∃ e supply t k s', s.Analyses f e supply ∧ e.Infers supply t k ∧
      (s.inferred supply k).Enters t s' ∧
      (Session.eval f s).2 = s'.collected := by
  obtain ⟨e, -, heval⟩ | ⟨e, supply, err, ha, -, heval⟩ | ⟨e, supply, t, k, ha, ht, heval⟩ :=
    eval_cases f s
  · exact .inl (by rw [heval]; exact ⟨rfl, rfl⟩)
  · exact .inl (by rw [heval]; exact ⟨rfl, rfl⟩)
  · rw [heval, run_eq]
    obtain ⟨r, s', hrun, henters⟩ | ⟨hquiet, -⟩ := runForm_cases t (s.inferred supply k)
    · exact .inr ⟨e, supply, t, k, s', ha, ht, henters, by rw [hrun]⟩
    · exact .inl ⟨hquiet.env_eq, hquiet.ns_eq⟩

theorem invoke_env (sym : String) (args : List Value) (s : Session) :
    (Session.invoke sym args s).2.env = s.env := by
  obtain hsame | ⟨s₁, hquiet, hinvoke⟩ := invoke_cases sym args s
  · rw [hsame]
  · rw [hinvoke]
    exact hquiet.env_eq

theorem extends_answer (s : Session) (r : Request) : s.env.Extends (s.answer r).2.env := by
  cases r with
  | form f =>
    obtain ⟨henv, -⟩ | ⟨e, supply, t, k, s', -, -, henters, heval⟩ := eval_enters f s
    · show s.env.Extends (Session.eval f s).2.env
      rw [henv]
      exact .refl _
    · show s.env.Extends (Session.eval f s).2.env
      rw [heval]
      exact henters.extends
  | call sym args =>
    show s.env.Extends (Session.invoke sym args s).2.env
    rw [invoke_env]
    exact .refl _

theorem extends_after (s : Session) (rs : List Request) : s.env.Extends (s.after rs).env := by
  induction rs generalizing s with
  | nil => exact .refl _
  | cons r rs ih => exact (extends_answer s r).trans (ih _)

theorem consistent_start (limit : Nat) : (Session.start limit).env.Consistent :=
  start_induction (P := fun s => s.env.Consistent) .empty fun s b hs => by
    rw [defineBuiltin_eq]
    exact hs.withVar ⟨_, rfl⟩

theorem Reachable.consistent (h : s.Reachable) : s.env.Consistent := by
  induction h with
  | start limit => exact consistent_start limit
  | @eval s _ f hf ih =>
    obtain ⟨henv, -⟩ | ⟨e, supply, t, k, s', ha, ht, henters, heval⟩ := eval_enters f s
    · rwa [henv]
    · rw [heval]
      have hplaced := analyse_placed hf ha
      rw [← erase_of_infer ht] at hplaced
      exact henters.consistent ih hplaced.of_map
  | @invoke s _ sym args ih => rwa [invoke_env]

/-- **Referential integrity.** In a session that can be reached, all that the environment refers to
is there, and nothing that it knows is ever unknown later. -/
theorem Reachable.env_integrity (hs : s.Reachable) :
    s.env.Consistent ∧ ∀ rs, s.env.Extends (s.after rs).env :=
  ⟨hs.consistent, s.extends_after⟩

/-! ### A namespace that takes names from everywhere -/

/-- The forms `(def one 1)`, then `(ns app {aliases {u user} refers {user [one]} imports {brj.host
[Math]}})`, then `(defdata T One)` in `app`. -/
def declaresApp : List Form :=
  let symbol (s : String) : Form := .atom (.symbol s) .nowhere
  let list (fs : List Form) : Form := .seq .list fs .nowhere
  let vector (fs : List Form) : Form := .seq .vector fs .nowhere
  let map (fs : List Form) : Form := .seq .map fs .nowhere
  [list [symbol "def", symbol "one", .atom (.int 1) .nowhere],
    list [symbol "ns", symbol "app", map [
      symbol "aliases", map [symbol "u", symbol "user"],
      symbol "refers", map [symbol "user", vector [symbol "one"]],
      symbol "imports", map [symbol "brj.host", vector [symbol "Math"]]]],
    list [symbol "defdata", symbol "T", symbol "One"]]

/-- The session after `(def one 1)` and the declaration of `app`. -/
def inApp : Session := (Session.start 100).after ((declaresApp.take 2).map .form)

theorem tables_inApp : inApp.env.tables? "app" =
    some ⟨[("u", "user")], [("one", ⟨"user", "one"⟩)], [("Math", ⟨"brj.host", "Math"⟩)]⟩ := by
  cbv

theorem reachable_inApp : inApp.Reachable := by
  refine Reachable.after (.start 100) ?_
  simp [declaresApp, Request.EvenMaps, Form.EvenMaps, Form.EvenMapsAll]

/-- The tables of `app` lead to what is there, and still do when its own names have come. -/
theorem env_integrity_inApp :
    inApp.Reachable ∧
      (∃ T, inApp.env.tables? "app" = some T ∧ T.Grounded inApp.env ∧ T.aliases ≠ [] ∧
        T.refers ≠ [] ∧ T.imports ≠ []) ∧
      ∃ v, (inApp.after ((declaresApp.drop 2).map .form)).env.var? ⟨"user", "one"⟩ = some v := by
  obtain ⟨hconsistent, hextends⟩ := reachable_inApp.env_integrity
  have hgrounded := hconsistent.tables "app" _ tables_inApp
  refine ⟨reachable_inApp, ⟨_, tables_inApp, hgrounded, by simp, by simp, by simp⟩, ?_⟩
  exact (hextends _).var _ (hgrounded.refers "one" _ rfl).2

end Session

end TypedLisp
