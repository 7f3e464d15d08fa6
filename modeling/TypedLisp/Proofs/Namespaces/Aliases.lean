import TypedLisp.Proofs.Namespaces.Integrity

/-!
# Namespaces and the aliases of others

An alias comes before the namespace of the same name when a qualifier is resolved, so it must not be
the name of another namespace, which is checked when the alias is declared. But a namespace whose
name is already an alias can still be made; then it is hidden from the start (`NsDecl.Clashes`).
There is no other way for a namespace to be hidden (`Session.unhidden_iff_no_clash`).
-/

namespace TypedLisp

namespace Env

variable {e : Env}

/-- Whether the name of a namespace, if it is one, is nowhere an alias of another one. -/
def Unhidden (e : Env) (ns : String) : Prop :=
  e.hasNs ns = true → ∀ n T target, e.tables? n = some T → T.aliases.get? ns = some target →
    target = ns

theorem Unhidden.resolveQualifier {ns : String} (h : e.Unhidden ns)
    (hns : e.hasNs ns = true) (n : String) : e.resolveQualifier n ns = some ns := by
  unfold Env.resolveQualifier
  split
  · rename_i target htarget
    obtain ⟨T, hT, htarget⟩ := Option.bind_eq_some_iff.1 htarget
    rw [h hns n T target hT htarget]
  · rw [if_pos hns]

theorem resolveQualifiedVar_of_alias {n qualifier target : String} {T : NsTables}
    (hT : e.tables? n = some T) (h : T.aliases.get? qualifier = some target) (sym : String) :
    e.resolveQualifiedVar n qualifier sym = e.var? ⟨target, sym⟩ := by
  unfold resolveQualifiedVar Env.resolveQualifier
  rw [hT, Option.bind_some, h]
  rfl

theorem unhidden_congr {e' : Env} (h : e'.namespaces = e.namespaces) (ns : String) :
    e'.Unhidden ns ↔ e.Unhidden ns := by
  simp only [Unhidden, hasNs, tables?, h]

theorem ensureNs_of_hasNs {ns : String} (h : e.hasNs ns = true) : e.ensureNs ns = e :=
  if_pos h

theorem namespaces_withVar {v : Var} (h : e.hasNs v.name.ns = true) :
    (e.withVar v).namespaces = e.namespaces := by
  show (e.ensureNs v.name.ns).namespaces = _
  rw [ensureNs_of_hasNs h]

theorem namespaces_withDataType {d : DataType} (h : e.hasNs d.name.ns = true)
    (vs : List Var) : (e.withDataType d vs).namespaces = e.namespaces := by
  show (e.ensureNs d.name.ns).namespaces = _
  rw [ensureNs_of_hasNs h]

end Env

/-- Whether a declaration makes a new namespace under a name that is already an alias, be it in the
environment or in the declaration itself. -/
def NsDecl.Clashes (env : Env) (d : NsDecl) : Prop :=
  env.hasNs d.ns = false ∧
    ((∃ n T target, env.tables? n = some T ∧ T.aliases.get? d.ns = some target) ∨
      ∃ target, (NsTables.ofDecl d).aliases.get? d.ns = some target)

namespace Env

variable {e : Env} {d : NsDecl} {ns : String}

theorem Unhidden.withNs (h : e.Unhidden ns) (hns : e.hasNs ns = true) (hd : d.Grounded e) :
    (e.withNs d).Unhidden ns := by
  intro _ n T target hT htarget
  rcases Table.get?_insert_eq_some hT with ⟨-, rfl⟩ | ⟨-, hT⟩
  · rcases (hd.aliases _ (Table.mem_of_get?_ofList htarget)).2 with heq | hnone
    · exact heq.symm
    · exact absurd hns (by simp [hnone])
  · exact h hns n T target hT htarget

/-- A namespace is hidden when it is made if and only if its name is an alias then, since the target
of an alias is there before the namespace. -/
theorem unhidden_withNs_self_iff (he : e.Consistent) (hd : d.Grounded e)
    (hnew : e.hasNs d.ns = false) : (e.withNs d).Unhidden d.ns ↔ ¬ d.Clashes e := by
  have hne : ∀ ns, e.hasNs ns = true → ns ≠ d.ns := by
    rintro ns hns rfl
    exact absurd hns (by simp [hnew])
  have htables : (e.withNs d).tables? d.ns = some (.ofDecl d) := Table.get?_insert_self ..
  constructor
  · rintro h ⟨-, ⟨n, T, target, hT, htarget⟩ | ⟨target, htarget⟩⟩
    · have hT' : (e.withNs d).tables? n = some T :=
        (Table.get?_insert_of_ne (hne n (hasNs_iff.2 ⟨T, hT⟩))).trans hT
      exact hne target ((he.tables n T hT).aliases _ _ htarget)
        (h (hasNs_iff.2 ⟨_, htables⟩) n T target hT' htarget)
    · exact hne target (hd.tables.aliases _ _ htarget)
        (h (hasNs_iff.2 ⟨_, htables⟩) d.ns _ target htables htarget)
  · intro h _ n T target hT htarget
    refine absurd ⟨hnew, ?_⟩ h
    rcases Table.get?_insert_eq_some hT with ⟨-, rfl⟩ | ⟨-, hT⟩
    · exact .inr ⟨target, htarget⟩
    · exact .inl ⟨n, T, target, hT, htarget⟩

/-- **One declaration** leaves a namespace in sight unless it makes that namespace and clashes. -/
theorem Unhidden.withNs_iff (he : e.Consistent) (hd : d.Grounded e) (h : e.Unhidden ns) :
    (e.withNs d).Unhidden ns ↔ (d.ns = ns → ¬ d.Clashes e) := by
  by_cases hns : e.hasNs ns = true
  · refine iff_of_true (h.withNs hns hd) ?_
    rintro rfl ⟨hnew, -⟩
    exact absurd hns (by simp [hnew])
  · rw [Bool.not_eq_true] at hns
    by_cases hname : d.ns = ns
    · subst hname
      rw [unhidden_withNs_self_iff he hd hns]
      exact ⟨fun h _ => h, fun h => h rfl⟩
    · -- it is still no namespace
      refine iff_of_true (fun hns' => ?_) fun heq => absurd heq hname
      obtain ⟨T, hT⟩ := hasNs_iff.1 hns'
      have hold : e.tables? ns = some T := by
        rcases Table.get?_insert_eq_some hT with ⟨heq, -⟩ | ⟨-, hT⟩
        · exact absurd heq.symm hname
        · exact hT
      exact absurd (hasNs_iff.2 ⟨T, hold⟩) (by simp [hns])

end Env

namespace Session

variable {s s' : Session}

/-! ## Forms -/

theorem ConstructorVars.ns_eq {d : DataType} {cs : List (Constructor × Nat)} {vs : List Var}
    (h : ConstructorVars d cs s vs s') : s'.ns = s.ns := by
  induction h with
  | nil => rfl
  | cons _ _ ih => exact ih

/-- A form that is no namespace declaration makes no namespace and stays in the current one, which
has to be there. -/
theorem Enters.namespaces_eq {t : Expr Ty} (h : s.Enters t s') (hs : s.env.Consistent)
    (hns : s.env.hasNs s.ns = true) (ht : t.Placed s.env s.ns)
    (hother : ∀ d n, t ≠ .declare (.ns d) n) :
    s'.env.namespaces = s.env.namespaces ∧ s'.ns = s.ns := by
  cases h with
  | @define name declared body n a kind closures s₁ cell cells ho hcell =>
    have hquiet := quiet_of_definedObject ho
    have hname : name.ns = s.ns := ht
    refine ⟨?_, hquiet.ns_eq⟩
    rw [← hquiet.env_eq] at hns ⊢
    exact Env.namespaces_withVar (by rwa [hname])
  | ns d n => exact absurd rfl (hother d n)
  | @ascribe name ty n v cells hv =>
    have hname : name.ns = s.ns := ht
    refine ⟨Env.namespaces_withVar ?_, rfl⟩
    cases hv with
    | @kept w u hw hu halpha =>
      show s.env.hasNs w.name.ns = true
      rwa [hs.var_name _ _ hw, hname]
    | new => rwa [hname]
  | @data d n units vs s' hvs =>
    have henv : s'.env = s.env := hvs.env_eq
    refine ⟨?_, hvs.ns_eq⟩
    show (Env.withDataType s'.env d vs).namespaces = _
    rw [henv]
    exact Env.namespaces_withDataType (by rwa [ht.1]) vs
  | @host name ref ty n fn cell cells harity hcell =>
    exact ⟨Env.namespaces_withVar (by rwa [ht.1]), rfl⟩

/-- Whether a request is the form of a namespace declaration that analysis accepts. -/
def DeclaresNs (s : Session) (r : Request) (d : NsDecl) : Prop :=
  ∃ f n supply, r = .form f ∧
    (TypedLisp.analyse s.env s.ns f).run s.supply = .ok (.declare (.ns d) n, supply)

theorem DeclaresNs.eval_eq {f : Form} {d : NsDecl} (h : s.DeclaresNs (.form f) d) :
    (Session.eval f s).2.env = s.env.withNs d ∧ (Session.eval f s).2.ns = d.ns := by
  obtain ⟨_, n, supply, ⟨⟩, ha⟩ := h
  have ht : (TypedLisp.infer (.declare (.ns d) n)).run supply.tyVar =
      .ok (.declare (.ns d) ⟨n.range, .effect⟩, supply.tyVar) := rfl
  rw [eval_of_infer ha ht]
  exact ⟨rfl, rfl⟩

/-- **What a form does to the namespaces**: it is a namespace declaration, or nothing. -/
theorem eval_namespaces {f : Form} (hf : f.EvenMaps) (hs : s.env.Consistent)
    (hns : s.env.hasNs s.ns = true) :
    (∃ d, s.DeclaresNs (.form f) d ∧ d.Grounded s.env) ∨
      (∀ d, ¬ s.DeclaresNs (.form f) d) ∧
        (Session.eval f s).2.env.namespaces = s.env.namespaces ∧
        (Session.eval f s).2.ns = s.ns := by
  by_cases hd : ∃ d, s.DeclaresNs (.form f) d
  · obtain ⟨d, hd⟩ := hd
    refine .inl ⟨d, hd, ?_⟩
    obtain ⟨_, n, supply, ⟨⟩, ha⟩ := hd
    exact analyse_placed hf ha
  · refine .inr ⟨fun d h => hd ⟨d, h⟩, ?_⟩
    obtain ⟨henv, hns'⟩ | ⟨e, supply, t, k, s', ha, ht, henters, heval⟩ := eval_enters f s
    · rw [henv, hns']
      exact ⟨rfl, rfl⟩
    · have hplaced := analyse_placed hf ha
      have herase := erase_of_infer ht
      rw [← herase] at hplaced
      rw [heval]
      refine henters.namespaces_eq hs hns hplaced.of_map ?_
      rintro d n rfl
      rw [← herase] at ha
      exact hd ⟨d, f, _, supply, rfl, ha⟩

theorem start_ns (limit : Nat) : (Session.start limit).ns = userNs :=
  start_induction (P := fun s => s.ns = userNs) rfl fun _ _ hs => hs

theorem hasNs_user_start (limit : Nat) : (Session.start limit).env.hasNs userNs = true :=
  start_induction (P := fun s => s.env.hasNs userNs = true) rfl fun s b hs => by
    rw [defineBuiltin_eq]
    exact (Env.extends_withVar _ _).hasNs _ hs

theorem Reachable.hasNs_ns (hs : s.Reachable) : s.env.hasNs s.ns = true := by
  induction hs with
  | start limit =>
    rw [start_ns]
    exact hasNs_user_start limit
  | @eval s hs f hf ih =>
    obtain ⟨d, hd, -⟩ | ⟨-, hnamespaces, hns⟩ := eval_namespaces hf hs.consistent ih
    · obtain ⟨henv, hns⟩ := hd.eval_eq
      rw [henv, hns]
      exact Env.hasNs_iff.2 ⟨_, Table.get?_insert_self ..⟩
    · unfold Env.hasNs
      rwa [hnamespaces, hns]
  | @invoke s _ sym args ih =>
    obtain hsame | ⟨s₁, hquiet, hinvoke⟩ := invoke_cases sym args s
    · rwa [hsame]
    · rw [hinvoke]
      show s₁.env.hasNs s₁.ns = true
      rwa [hquiet.env_eq, hquiet.ns_eq]

/-! ## Requests -/

variable {ns : String}

/-- **One request** leaves a namespace in sight unless it makes that namespace and clashes. -/
theorem Reachable.unhidden_answer_iff (hs : s.Reachable) {r : Request} (hr : r.EvenMaps)
    (h : s.env.Unhidden ns) : (s.answer r).2.env.Unhidden ns ↔
      ∀ d, s.DeclaresNs r d → d.ns = ns → ¬ d.Clashes s.env := by
  cases r with
  | call sym args =>
    refine iff_of_true ?_ ?_
    · show (Session.invoke sym args s).2.env.Unhidden ns
      rwa [invoke_env]
    · rintro d ⟨f, n, supply, hr, -⟩
      cases hr
  | form f =>
    obtain ⟨d, hd, hgrounded⟩ | ⟨hother, hnamespaces, -⟩ := eval_namespaces hr hs.consistent
      hs.hasNs_ns
    · show (Session.eval f s).2.env.Unhidden ns ↔ _
      rw [hd.eval_eq.1, h.withNs_iff hs.consistent hgrounded]
      refine ⟨fun hclear d' hd' => ?_, fun hclear => hclear d hd⟩
      obtain ⟨_, _, _, ⟨⟩, ha⟩ := hd
      obtain ⟨_, _, _, ⟨⟩, ha'⟩ := hd'
      cases ha.symm.trans ha'
      exact hclear
    · exact iff_of_true ((Env.unhidden_congr hnamespaces ns).2 h) fun d hd => absurd hd (hother d)

/-- All the requests of a run: what is in sight at the start stays so unless one of them makes the
namespace and clashes. -/
theorem Reachable.unhidden_after_iff (hs : s.Reachable) {rs : List Request}
    (hrs : ∀ r ∈ rs, r.EvenMaps) (h : s.env.Unhidden ns) :
    (∀ rs₁, rs₁ <+: rs → (s.after rs₁).env.Unhidden ns) ↔
      ∀ rs₁ r d, rs₁ ++ [r] <+: rs → (s.after rs₁).DeclaresNs r d → d.ns = ns →
        ¬ d.Clashes (s.after rs₁).env := by
  induction rs generalizing s with
  | nil =>
    refine iff_of_true (fun rs₁ hrs₁ => ?_) fun rs₁ r d hrs₁ => ?_
    · rw [List.prefix_nil] at hrs₁
      rwa [hrs₁]
    · exact absurd hrs₁ (by simp)
  | cons r rs ih =>
    obtain ⟨hr, htail⟩ := List.forall_mem_cons.1 hrs
    have hstep := hs.unhidden_answer_iff hr h
    constructor
    · intro hall
      have hnext : (s.answer r).2.env.Unhidden ns := hall [r] (by simp)
      have hrest := (ih (hs.answer hr) htail hnext).1 fun rs₁ hrs₁ =>
        hall (r :: rs₁) (List.cons_prefix_cons.2 ⟨rfl, hrs₁⟩)
      intro rs₁ r' d hrs₁ hd
      cases rs₁ with
      | nil =>
        obtain ⟨rfl, -⟩ := List.cons_prefix_cons.1 hrs₁
        exact hstep.1 hnext d hd
      | cons r₁ rs₁ =>
        obtain ⟨rfl, hrs'⟩ := List.cons_prefix_cons.1 hrs₁
        exact hrest rs₁ r' d hrs' hd
    · intro hclear rs₁ hrs₁
      have hnext : (s.answer r).2.env.Unhidden ns :=
        hstep.2 fun d => hclear [] r d (by simp)
      cases rs₁ with
      | nil => exact h
      | cons r₁ rs₁ =>
        obtain ⟨rfl, hrs'⟩ := List.cons_prefix_cons.1 hrs₁
        refine (ih (hs.answer hr) htail hnext).2 (fun rs₂ r' d hrs₂ => ?_) rs₁ hrs'
        exact hclear (r₁ :: rs₂) r' d (List.cons_prefix_cons.2 ⟨rfl, hrs₂⟩)

theorem unhidden_start (limit : Nat) (ns : String) : (Session.start limit).env.Unhidden ns := by
  have hempty : ∀ n T, (Session.start limit).env.tables? n = some T → T = {} := by
    refine start_induction (P := fun s => ∀ n T, s.env.tables? n = some T → T = {})
      (fun n T hT => ?_) fun s b hs n T hT => ?_
    · have hinsert : (Table.insert [] userNs ({} : NsTables)).get? n = some T := hT
      rcases Table.get?_insert_eq_some hinsert with ⟨-, hT⟩ | ⟨-, hT⟩
      · exact hT
      · exact absurd hT nofun
    · rw [defineBuiltin_eq] at hT
      exact (Env.tables?_ensureNs hT).elim id (hs n T)
  intro _ n T target hT htarget
  rw [hempty n T hT] at htarget
  exact absurd htarget nofun

/-- **When no alias hides a namespace.** In a session a namespace is at no time hidden by an alias
of another one if and only if no declaration made it under a name that was an alias then. At every
time when it is not hidden, a symbol that it qualifies means from everywhere the var, or the data
type, of that name in it. -/
theorem unhidden_iff_no_clash (limit : Nat) {rs : List Request} (hrs : ∀ r ∈ rs, r.EvenMaps)
    (ns : String) :
    ((∀ rs₁, rs₁ <+: rs → ((start limit).after rs₁).env.Unhidden ns) ↔
      ∀ rs₁ r d, rs₁ ++ [r] <+: rs → ((start limit).after rs₁).DeclaresNs r d → d.ns = ns →
        ¬ d.Clashes ((start limit).after rs₁).env) ∧
    ∀ rs₁, rs₁ <+: rs → ((start limit).after rs₁).env.Unhidden ns →
      ((start limit).after rs₁).env.hasNs ns = true → ∀ n sym,
        ((start limit).after rs₁).env.resolveQualifiedVar n ns sym =
          ((start limit).after rs₁).env.var? ⟨ns, sym⟩ ∧
        ((start limit).after rs₁).env.resolveQualifiedDataType n ns sym =
          ((start limit).after rs₁).env.dataType? ⟨ns, sym⟩ := by
  refine ⟨(Reachable.start limit).unhidden_after_iff hrs (unhidden_start limit ns), ?_⟩
  intro rs₁ _ h hns n sym
  have hqualifier := h.resolveQualifier hns n
  unfold Env.resolveQualifiedVar Env.resolveQualifiedDataType
  rw [hqualifier]
  exact ⟨rfl, rfl⟩

/-! ### A namespace that is an alias of another one -/

/-- The requests `(def x 1)`, `(ns a {aliases {a user}})` and `(def x 2)`. -/
def declaresA : List Request :=
  let symbol (s : String) : Form := .atom (.symbol s) .nowhere
  let list (fs : List Form) : Form := .seq .list fs .nowhere
  let map (fs : List Form) : Form := .seq .map fs .nowhere
  let defines (n : Int64) : Form := list [symbol "def", symbol "x", .atom (.int n) .nowhere]
  [.form (defines 1),
    .form (list [symbol "ns", symbol "a",
      map [symbol "aliases", map [symbol "a", symbol "user"]]]),
    .form (defines 2)]

/-- The session after them. -/
def inA : Session := (Session.start 100).after declaresA

theorem evenMaps_declaresA : ∀ r ∈ declaresA, r.EvenMaps := by
  simp [declaresA, Request.EvenMaps, Form.EvenMaps, Form.EvenMapsAll]

/-- What there is in that session: the table of `a`, and the cells of `user/x` and `a/x`. -/
theorem inA_eq : (inA.env.tables? "a", (inA.env.var? ⟨"user", "x"⟩).map (·.cell.id),
    (inA.env.var? ⟨"a", "x"⟩).map (·.cell.id)) =
      (some ⟨[("a", "user")], [], []⟩, some 11, some 12) := by
  cbv

theorem eval_inA :
    (Session.eval (.atom (.qualified "a" "x") .nowhere) inA).1 = .ok (.value (.int 1) .int) := by
  cbv

/-- The old namespace is in sight of the new one. -/
theorem unhidden_iff_no_clash_inA :
    (∀ r ∈ declaresA, r.EvenMaps) ∧ inA.env.Unhidden userNs ∧
      ∃ v, inA.env.var? ⟨"user", "x"⟩ = some v ∧
        inA.env.resolveQualifiedVar "a" "user" "x" = some v := by
  obtain ⟨hiff, hresolve⟩ := unhidden_iff_no_clash 100 evenMaps_declaresA userNs
  have huser : ∀ rs, ((start 100).after rs).env.hasNs userNs = true := fun rs =>
    (extends_after _ rs).hasNs _ (hasNs_user_start 100)
  have hunhidden : inA.env.Unhidden userNs := by
    refine hiff.2 (fun rs₁ r d _ _ hd hclash => ?_) declaresA (List.prefix_refl _)
    exact absurd (huser rs₁) (by simp [← hd, hclash.1])
  obtain ⟨v, hv, -⟩ := Option.map_eq_some_iff.1 (Prod.mk.inj (Prod.mk.inj inA_eq).2).1
  have hqualified := (hresolve declaresA (List.prefix_refl _) hunhidden (huser _) "a" "x").1
  exact ⟨evenMaps_declaresA, hunhidden, v, hv, hqualified.trans hv⟩

/-- In the namespace `a` the symbol `a/x` means `user/x`, which is 1, and not `a/x`, which is 2. -/
theorem hidden_by_own_alias :
    inA.Reachable ∧ inA.env.hasNs "a" = true ∧ ¬ inA.env.Unhidden "a" ∧
      inA.env.resolveQualifiedVar "a" "a" "x" = inA.env.var? ⟨"user", "x"⟩ ∧
      inA.env.resolveQualifiedVar "a" "a" "x" ≠ inA.env.var? ⟨"a", "x"⟩ ∧
      (Session.eval (.atom (.qualified "a" "x") .nowhere) inA).1 = .ok (.value (.int 1) .int) := by
  obtain ⟨htables, hcells⟩ := Prod.mk.inj inA_eq
  obtain ⟨huser, ha⟩ := Prod.mk.inj hcells
  have hns : inA.env.hasNs "a" = true := Env.hasNs_iff.2 ⟨_, htables⟩
  have halias : Table.get? [("a", "user")] "a" = some "user" := rfl
  have hresolve := Env.resolveQualifiedVar_of_alias htables halias "x"
  refine ⟨(Reachable.start 100).after evenMaps_declaresA, hns, fun h => ?_, hresolve,
    fun heq => ?_, eval_inA⟩
  · exact absurd (h hns "a" _ "user" htables halias) (by decide)
  · have hcells := congrArg (Option.map fun v : Var => v.cell.id) (hresolve.symm.trans heq)
    rw [huser, ha] at hcells
    exact absurd hcells (by decide)

end Session

end TypedLisp
