import TypedLisp.Proofs.Namespaces.Aliases

/-!
# What a definition leaves alone

A definition is entered in the current namespace. It changes vars and data types of that namespace
only, and the tables of no namespace (`Env.DiffersOnlyIn`). From another namespace a name still
stands for what it stood for: an own name of that namespace, a name that it refers to, or a name of
the core namespace. So **a definition captures no name of another namespace**
(`Session.Reachable.definition_captures_no_name`).
-/

namespace TypedLisp

namespace Env

/-! ## Environments that differ in one namespace -/

/-- Whether two environments have the same namespaces, and the same vars and data types outside of
the namespace `m`. In `m` the second one may have others, and has all that the first one has. -/
structure DiffersOnlyIn (m : String) (e e' : Env) : Prop extends e.Extends e' where
  namespaces_eq : e'.namespaces = e.namespaces
  var?_eq : ∀ g, g.ns ≠ m → e'.var? g = e.var? g
  dataType?_eq : ∀ g, g.ns ≠ m → e'.dataType? g = e.dataType? g

variable {e e' : Env} {m : String}

theorem differsOnlyIn_withVar {v : Var} (h : e.hasNs v.name.ns = true) :
    e.DiffersOnlyIn v.name.ns (e.withVar v) where
  toExtends := e.extends_withVar v
  namespaces_eq := namespaces_withVar h
  var?_eq g hg := Table.get?_insert_of_ne fun heq => hg (congrArg GlobalName.ns heq)
  dataType?_eq g _ := by
    show (e.ensureNs v.name.ns).dataType? g = _
    rw [ensureNs_of_hasNs h]

theorem get?_foldl_insert_of_forall_ne {vars : Table GlobalName Var} {g : GlobalName} {vs : List Var}
    (h : ∀ v ∈ vs, g ≠ v.name) :
    (vs.foldl (fun vars v => vars.insert v.name v) vars).get? g = vars.get? g := by
  induction vs generalizing vars with
  | nil => rfl
  | cons v vs ih =>
    obtain ⟨hv, hvs⟩ := List.forall_mem_cons.1 h
    exact (ih hvs).trans (Table.get?_insert_of_ne hv)

theorem differsOnlyIn_withDataType {d : DataType} {vs : List Var} (h : e.hasNs d.name.ns = true)
    (hvs : ∀ v ∈ vs, v.name.ns = d.name.ns) :
    e.DiffersOnlyIn d.name.ns (e.withDataType d vs) where
  toExtends := e.extends_withDataType d vs
  namespaces_eq := namespaces_withDataType h vs
  var?_eq g hg := get?_foldl_insert_of_forall_ne fun v hv heq => hg (by rw [heq, hvs v hv])
  dataType?_eq g hg := Table.get?_insert_of_ne fun heq => hg (congrArg GlobalName.ns heq)

/-! ## Names in other namespaces -/

theorem DiffersOnlyIn.tables?_eq (h : e.DiffersOnlyIn m e') (n : String) :
    e'.tables? n = e.tables? n := by
  rw [tables?, tables?, h.namespaces_eq]

theorem DiffersOnlyIn.resolveQualifier_eq (h : e.DiffersOnlyIn m e') (n q : String) :
    e'.resolveQualifier n q = e.resolveQualifier n q := by
  unfold resolveQualifier hasNs
  rw [h.tables?_eq, h.namespaces_eq]

section Bare

variable {α : Type} {table table' : Table GlobalName α} {n sym : String} {a : α}

/-- A bare symbol that stands for an entry stands for one of the same global name in a table that
has more. -/
theorem DiffersOnlyIn.exists_resolveIn (h : e.DiffersOnlyIn m e')
    (hother : ∀ g, g.ns ≠ m → table'.get? g = table.get? g)
    (hkept : ∀ g, (∃ a, table.get? g = some a) → ∃ a, table'.get? g = some a) (hn : n ≠ m)
    (ha : e.resolveIn n sym table = some a) :
    ∃ g a', table.get? g = some a ∧ table'.get? g = some a' ∧
      e'.resolveIn n sym table' = some a' := by
  unfold resolveIn at ha ⊢
  rw [h.tables?_eq, hother ⟨n, sym⟩ hn]
  cases hown : table.get? ⟨n, sym⟩ with
  | some b =>
    rw [hown] at ha
    exact ⟨⟨n, sym⟩, b, hown.trans ha, (hother ⟨n, sym⟩ hn).trans hown, rfl⟩
  | none =>
    rw [hown] at ha
    cases hrefers : (e.tables? n).bind (·.refers.get? sym) with
    | some target =>
      rw [hrefers] at ha
      obtain ⟨a', ha'⟩ := hkept target ⟨a, ha⟩
      exact ⟨target, a', ha, ha', ha'⟩
    | none =>
      rw [hrefers] at ha
      obtain ⟨a', ha'⟩ := hkept ⟨coreNs, sym⟩ ⟨a, ha⟩
      exact ⟨⟨coreNs, sym⟩, a', ha, ha', ha'⟩

/-- A bare symbol that stands for nothing still does, if a name that is referred to stands for
something and the core namespace is not the one that differs. -/
theorem DiffersOnlyIn.resolveIn_eq_none (h : e.DiffersOnlyIn m e')
    (hother : ∀ g, g.ns ≠ m → table'.get? g = table.get? g) (hcore : coreNs ≠ m)
    (hrefers : ∀ T g, e.tables? n = some T → T.refers.get? sym = some g →
      ∃ a, table.get? g = some a) (hn : n ≠ m)
    (ha : e.resolveIn n sym table = none) : e'.resolveIn n sym table' = none := by
  unfold resolveIn at ha ⊢
  rw [h.tables?_eq, hother ⟨n, sym⟩ hn]
  split at ha
  · cases ha
  · split at ha
    · rename_i target htarget
      obtain ⟨T, hT, htarget⟩ := Option.bind_eq_some_iff.1 htarget
      obtain ⟨b, hb⟩ := hrefers T target hT htarget
      exact absurd (hb.symm.trans ha) nofun
    · exact (hother ⟨coreNs, sym⟩ hcore).trans ha

end Bare

/-- Whether the names written in the namespace `n` stand for the same in a second environment as in
a first one: a symbol that stands for a var or a data type stands for the one of the same global
name, and a bare symbol that stands for no var stands for none. -/
structure KeepsNames (e e' : Env) (n : String) : Prop where
  var : ∀ sym v, e.resolveVar n sym = some v →
    ∃ v', e'.resolveVar n sym = some v' ∧ v'.name = v.name
  no_var : ∀ sym, e.resolveVar n sym = none → e'.resolveVar n sym = none
  dataType : ∀ sym d, e.resolveDataType n sym = some d →
    ∃ d', e'.resolveDataType n sym = some d' ∧ d'.name = d.name
  qualifiedVar : ∀ q sym v, e.resolveQualifiedVar n q sym = some v →
    ∃ v', e'.resolveQualifiedVar n q sym = some v' ∧ v'.name = v.name
  qualifiedDataType : ∀ q sym d, e.resolveQualifiedDataType n q sym = some d →
    ∃ d', e'.resolveQualifiedDataType n q sym = some d' ∧ d'.name = d.name

/-- **Environments that differ in one namespace agree on the names in all others**, unless it is the
core namespace. -/
theorem DiffersOnlyIn.keepsNames (h : e.DiffersOnlyIn m e') (he : e.Consistent)
    (he' : e'.Consistent) (hcore : coreNs ≠ m) {n : String} (hn : n ≠ m) : e.KeepsNames e' n where
  var sym v hv := by
    obtain ⟨g, v', hg, hg', hv'⟩ := h.exists_resolveIn h.var?_eq h.var hn hv
    exact ⟨v', hv', (he'.var_name g v' hg').trans (he.var_name g v hg).symm⟩
  no_var sym hnone := h.resolveIn_eq_none h.var?_eq hcore
    (fun T g hT hg => ((he.tables n T hT).refers sym g hg).2) hn hnone
  dataType sym d hd := by
    obtain ⟨g, d', hg, hg', hd'⟩ := h.exists_resolveIn h.dataType?_eq h.dataType hn hd
    exact ⟨d', hd', (he'.dataType_name g d' hg').trans (he.dataType_name g d hg).symm⟩
  qualifiedVar q sym v hv := by
    unfold resolveQualifiedVar at hv ⊢
    obtain ⟨target, htarget, hv⟩ := Option.bind_eq_some_iff.1 hv
    obtain ⟨v', hv'⟩ := h.var _ ⟨v, hv⟩
    rw [h.resolveQualifier_eq, htarget]
    exact ⟨v', hv', (he'.var_name _ v' hv').trans (he.var_name _ v hv).symm⟩
  qualifiedDataType q sym d hd := by
    unfold resolveQualifiedDataType at hd ⊢
    obtain ⟨target, htarget, hd⟩ := Option.bind_eq_some_iff.1 hd
    obtain ⟨d', hd'⟩ := h.dataType _ ⟨d, hd⟩
    rw [h.resolveQualifier_eq, htarget]
    exact ⟨d', hd', (he'.dataType_name _ d' hd').trans (he.dataType_name _ d hd).symm⟩

end Env

/-! ## Definitions -/

/-- The heads of the forms that define something in the current namespace. -/
def definitionHeads : List String := ["def", "::", "defdata", "defj"]

/-- Whether a form is a definition: of a var, a type of a var, a data type or a function of the
host. -/
def Form.IsDefinition : Form → Prop
  | .seq .list (head :: _) _ => ∃ name ∈ definitionHeads, head.symbol? = some name
  | _ => False

theorem Form.IsDefinition.analyse_ne_ns {f : Form} (hf : f.IsDefinition) (heven : f.EvenMaps)
    {env : Env} {ns : String} {s s' : Supply} {d : NsDecl} {n : Note Unit} :
    (analyse env ns f).run s ≠ .ok (.declare (.ns d) n, s') := by
  intro h
  unfold IsDefinition at hf
  split at hf
  · obtain ⟨name, hname, hhead⟩ := hf
    unfold analyse at h
    simp only [hhead] at h
    simp only [definitionHeads, List.mem_cons, List.not_mem_nil, or_false] at hname
    rcases hname with rfl | rfl | rfl | rfl
    · obtain ⟨_, _, heq, -⟩ := defForm_scoped heven.2.2 h
      cases heq
    · simp only [run_bind_eq_ok, run_pure_eq_ok] at h
      obtain ⟨_, _, hd, heq, -⟩ := h
      obtain ⟨_, _, rfl, -⟩ := ascribeForm_below hd
      cases heq
    · simp only [run_bind_eq_ok, run_pure_eq_ok] at h
      obtain ⟨_, _, hd, heq, -⟩ := h
      obtain ⟨_, rfl, -⟩ := dataForm_below hd
      cases heq
    · simp only [run_bind_eq_ok, run_pure_eq_ok] at h
      obtain ⟨_, _, hd, heq, -⟩ := h
      obtain ⟨_, _, _, rfl, -⟩ := hostForm_below hd
      cases heq
  · exact hf

namespace Session

variable {s s' : Session}

/-- **A form that is no namespace declaration changes the current namespace only.** -/
theorem Enters.differsOnlyIn {t : Expr Ty} (h : s.Enters t s') (hs : s.env.Consistent)
    (hns : s.env.hasNs s.ns = true) (ht : t.Placed s.env s.ns)
    (hother : ∀ d n, t ≠ .declare (.ns d) n) : s.env.DiffersOnlyIn s.ns s'.env := by
  have hvar : ∀ (e : Env) (v : Var), e = s.env → v.name.ns = s.ns →
      s.env.DiffersOnlyIn s.ns (e.withVar v) := by
    rintro _ v rfl hv
    rw [← hv] at hns ⊢
    exact Env.differsOnlyIn_withVar hns
  cases h with
  | @define name declared body n a kind closures s₁ cell cells ho hcell =>
    have hquiet := quiet_of_definedObject ho
    exact hvar _ _ hquiet.env_eq ht
  | ns d n => exact absurd rfl (hother d n)
  | @ascribe name ty n v cells hv =>
    refine hvar _ _ rfl ?_
    cases hv with
    | @kept w u hw hu halpha =>
      show w.name.ns = s.ns
      rw [hs.var_name _ _ hw]
      exact ht
    | new => exact ht
  | @data d n units vs s' hvs =>
    have henv : s'.env = s.env := hvs.env_eq
    obtain ⟨hd, hconstructors⟩ := ht
    rw [← hd] at hns hconstructors ⊢
    show s.env.DiffersOnlyIn d.name.ns (Env.withDataType s'.env d vs)
    rw [henv]
    exact Env.differsOnlyIn_withDataType hns fun v hv => (hvs.forall_mem hconstructors v hv).1
  | @host name ref ty n fn cell cells harity hcell => exact hvar _ _ rfl ht.1

/-- Whether it succeeds or fails, a definition changes the current namespace only. -/
theorem Reachable.eval_differsOnlyIn (hs : s.Reachable) {f : Form} (hf : f.IsDefinition)
    (heven : f.EvenMaps) : s.env.DiffersOnlyIn s.ns (Session.eval f s).2.env := by
  obtain ⟨henv, -⟩ | ⟨e, supply, t, k, s', ha, ht, henters, heval⟩ := eval_enters f s
  · rw [henv]
    exact ⟨.refl _, rfl, fun _ _ => rfl, fun _ _ => rfl⟩
  · rw [heval]
    have hplaced := analyse_placed heven ha
    have herase := erase_of_infer ht
    rw [← herase] at hplaced
    refine henters.differsOnlyIn hs.consistent hs.hasNs_ns hplaced.of_map ?_
    rintro d n rfl
    rw [← herase] at ha
    exact hf.analyse_ne_ns heven ha

/-- **A definition captures no name of another namespace.** After a definition in a namespace other
than the core, the names written in every other namespace stand for what they stood for. -/
theorem Reachable.definition_captures_no_name (hs : s.Reachable) {f : Form} (hf : f.IsDefinition)
    (heven : f.EvenMaps) (hcore : s.ns ≠ coreNs) {n : String} (hn : n ≠ s.ns) :
    s.env.KeepsNames (Session.eval f s).2.env n :=
  (hs.eval_differsOnlyIn hf heven).keepsNames hs.consistent (hs.eval heven).consistent hcore.symm hn

/-! ### A data type with a constructor that another namespace refers to -/

/-- The session that is back in `user` after the declaration of `app`. -/
def backInUser : Session :=
  inApp.after [.form (.seq .list
    [.atom (.symbol "ns") .nowhere, .atom (.symbol "user") .nowhere] .nowhere)]

theorem reachable_backInUser : backInUser.Reachable := by
  refine reachable_inApp.after ?_
  simp [Request.EvenMaps, Form.EvenMaps, Form.EvenMapsAll]

/-- The form `(defdata T one two)`. -/
def declaresOneTwo : Form :=
  .seq .list [.atom (.symbol "defdata") .nowhere, .atom (.symbol "T") .nowhere,
    .atom (.symbol "one") .nowhere, .atom (.symbol "two") .nowhere] .nowhere

theorem backInUser_eq :
    (backInUser.ns, (backInUser.env.resolveVar "app" "one").map (·.name),
      (backInUser.env.resolveQualifiedVar "app" "u" "one").map (·.name),
      (backInUser.env.resolveVar "app" "two").map (·.name)) =
    ("user", some ⟨"user", "one"⟩, some ⟨"user", "one"⟩, none) := by
  cbv

/-- In `app` the names `one` and `u/one` stand for the new `user/one`, and `two` still for nothing. -/
theorem definition_captures_no_name_declaresOneTwo :
    backInUser.Reachable ∧ declaresOneTwo.IsDefinition ∧ backInUser.ns = "user" ∧
      (∃ v, (Session.eval declaresOneTwo backInUser).2.env.resolveVar "app" "one" = some v ∧
        v.name = ⟨"user", "one"⟩) ∧
      (∃ v, (Session.eval declaresOneTwo backInUser).2.env.resolveQualifiedVar "app" "u" "one" =
        some v ∧ v.name = ⟨"user", "one"⟩) ∧
      (Session.eval declaresOneTwo backInUser).2.env.resolveVar "app" "two" = none := by
  obtain ⟨hns, hbare, hqualified, htwo⟩ : _ ∧ _ ∧ _ ∧ _ := by
    simpa only [Prod.mk.injEq] using backInUser_eq
  have hdef : declaresOneTwo.IsDefinition := ⟨"defdata", by decide, rfl⟩
  have hkeeps := reachable_backInUser.definition_captures_no_name hdef
    (by simp [declaresOneTwo, Form.EvenMaps, Form.EvenMapsAll]) (n := "app")
    (by rw [hns]; decide) (by rw [hns]; decide)
  obtain ⟨v, hv, hname⟩ := Option.map_eq_some_iff.1 hbare
  obtain ⟨w, hw, hname'⟩ := Option.map_eq_some_iff.1 hqualified
  refine ⟨reachable_backInUser, hdef, hns, ?_, ?_, hkeeps.no_var "two" ?_⟩
  · rw [← hname]
    exact hkeeps.var "one" v hv
  · rw [← hname']
    exact hkeeps.qualifiedVar "u" "one" w hw
  · exact Option.map_eq_none_iff.1 htwo

end Session

end TypedLisp
