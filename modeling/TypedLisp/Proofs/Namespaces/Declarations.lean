import TypedLisp.Proofs.Scoping

/-!
# What declarations name

Analysis checks a declaration against the environment in which it is made. A definition is of a name
in the current namespace, and so are the constructors of a data type; a function of the host is one
that its module has. What a namespace declaration takes from elsewhere is there (`NsDecl.Grounded`).
-/

namespace TypedLisp

variable {env : Env} {ns : String}

/-! ## Loops that can fail -/

section Loops

variable {ε α β : Type}

/-- What holds at the start, and is kept by every step that succeeds, holds at the end. -/
theorem foldlM_ok_induction {P : β → Prop} {step : β → α → Except ε β}
    (hstep : ∀ b a b', P b → step b a = .ok b' → P b') {as : List α} {b b' : β} (hb : P b)
    (h : as.foldlM step b = .ok b') : P b' := by
  induction as generalizing b with
  | nil =>
    cases h
    exact hb
  | cons a as ih =>
    rw [List.foldlM_cons, bind_eq_ok] at h
    obtain ⟨b₁, hb₁, h⟩ := h
    exact ih (hstep b a b₁ hb hb₁) h

theorem forall_mem_of_mapM_eq_ok {P : β → Prop} {f : α → Except ε β}
    (hf : ∀ a b, f a = .ok b → P b) {as : List α} {bs : List β} (h : as.mapM f = .ok bs) :
    ∀ b ∈ bs, P b := by
  induction as generalizing bs with
  | nil =>
    cases h
    exact nofun
  | cons a as ih =>
    simp only [List.mapM_cons, bind_eq_ok] at h
    obtain ⟨b, hb, bs', hbs', h⟩ := h
    cases h
    exact List.forall_mem_cons.2 ⟨hf a b hb, ih hbs'⟩

end Loops

/-! ## Namespaces -/

/-- Whether what a namespace declaration takes from elsewhere is there: the target of every alias is
a namespace, and the alias is the name of no other one; every var it refers to is defined, under the
name it has in its namespace; every module it imports is one of the host's. -/
structure NsDecl.Grounded (env : Env) (d : NsDecl) : Prop where
  aliases : ∀ e ∈ d.aliases, env.hasNs e.2 = true ∧ (e.1 = e.2 ∨ env.hasNs e.1 = false)
  refers : ∀ e ∈ d.refers, e.2.name = e.1 ∧ ∃ v, env.var? e.2 = some v
  imports : ∀ e ∈ d.imports, ∃ m, hostModule? e.2 = some m

section NsForm

variable {env : Env} {f : Form}

theorem NsDecl.Grounded.of_name (name : String) : ({ ns := name } : NsDecl).Grounded env :=
  ⟨by simp, by simp, by simp⟩

theorem hasNs_of_knownNs {ns : String} (h : knownNs env f = .ok ns) :
    env.hasNs ns = true := by
  simp only [knownNs, bind_eq_ok] at h
  obtain ⟨name, -, h⟩ := h
  split at h
  · rename_i hns
    cases h
    exact hns
  · exact absurd h nofun

theorem aliasEntry_grounded {entry : Form × Form} {e : String × String}
    (h : aliasEntry env entry = .ok e) :
    env.hasNs e.2 = true ∧ (e.1 = e.2 ∨ env.hasNs e.1 = false) := by
  simp only [aliasEntry, bind_eq_ok] at h
  obtain ⟨name, -, target, htarget, h⟩ := h
  split at h
  · exact absurd h nofun
  · rename_i hclash
    cases h
    refine ⟨hasNs_of_knownNs htarget, ?_⟩
    by_cases hname : name = target
    · exact .inl hname
    · exact .inr (Bool.eq_false_iff.2 fun hns => hclash ⟨hname, hns⟩)

theorem addRefer_grounded {source : String} {refers refers' : List (String × GlobalName)}
    (hrefers : ∀ e ∈ refers, e.2.name = e.1 ∧ ∃ v, env.var? e.2 = some v)
    (h : addRefer env source refers f = .ok refers') :
    ∀ e ∈ refers', e.2.name = e.1 ∧ ∃ v, env.var? e.2 = some v := by
  simp only [addRefer, bind_eq_ok] at h
  obtain ⟨name, -, h⟩ := h
  split at h
  · exact absurd h nofun
  · rename_i hvar
    split at h
    · cases h
      refine List.forall_mem_append.2 ⟨hrefers, List.forall_mem_singleton.2 ⟨rfl, ?_⟩⟩
      exact Option.isSome_iff_exists.1 (by simpa [← Option.isSome_iff_ne_none] using hvar)
    · split at h
      · cases h
        exact hrefers
      · exact absurd h nofun

theorem addRefers_grounded {refers refers' : List (String × GlobalName)} {entry : Form × Form}
    (hrefers : ∀ e ∈ refers, e.2.name = e.1 ∧ ∃ v, env.var? e.2 = some v)
    (h : addRefers env refers entry = .ok refers') :
    ∀ e ∈ refers', e.2.name = e.1 ∧ ∃ v, env.var? e.2 = some v := by
  simp only [addRefers, bind_eq_ok] at h
  obtain ⟨_, -, _, -, h⟩ := h
  exact foldlM_ok_induction (fun _ _ _ => addRefer_grounded) hrefers h

theorem addImport_grounded {package : String} {imports imports' : List (String × GlobalName)}
    (himports : ∀ e ∈ imports, ∃ m, hostModule? e.2 = some m)
    (h : addImport package imports f = .ok imports') :
    ∀ e ∈ imports', ∃ m, hostModule? e.2 = some m := by
  simp only [addImport, bind_eq_ok] at h
  obtain ⟨name, -, h⟩ := h
  split at h
  · exact absurd h nofun
  · rename_i hmodule
    split at h
    · exact absurd h nofun
    · cases h
      refine List.forall_mem_append.2 ⟨himports, List.forall_mem_singleton.2 ?_⟩
      exact Option.isSome_iff_exists.1 (by simpa [← Option.isSome_iff_ne_none] using hmodule)

theorem addImports_grounded {imports imports' : List (String × GlobalName)} {entry : Form × Form}
    (himports : ∀ e ∈ imports, ∃ m, hostModule? e.2 = some m)
    (h : addImports imports entry = .ok imports') :
    ∀ e ∈ imports', ∃ m, hostModule? e.2 = some m := by
  simp only [addImports, bind_eq_ok] at h
  obtain ⟨_, -, _, -, h⟩ := h
  exact foldlM_ok_induction (fun _ _ _ => addImport_grounded) himports h

theorem nsOption_grounded {d d' : NsDecl} {entry : Form × Form} (hd : d.Grounded env)
    (h : nsOption env d entry = .ok d') : d'.Grounded env := by
  unfold nsOption at h
  split at h
  · simp only [bind_eq_ok] at h
    obtain ⟨_, -, aliases, haliases, h⟩ := h
    cases h
    exact ⟨forall_mem_of_mapM_eq_ok (fun _ _ => aliasEntry_grounded) haliases, hd.refers,
      hd.imports⟩
  · simp only [bind_eq_ok] at h
    obtain ⟨_, -, refers, hrefers, h⟩ := h
    cases h
    exact ⟨hd.aliases, foldlM_ok_induction (fun _ _ _ => addRefers_grounded) (by simp) hrefers,
      hd.imports⟩
  · simp only [bind_eq_ok] at h
    obtain ⟨_, -, imports, himports, h⟩ := h
    cases h
    exact ⟨hd.aliases, hd.refers,
      foldlM_ok_induction (fun _ _ _ => addImports_grounded) (by simp) himports⟩
  · exact absurd h nofun

/-- **A namespace declaration takes only what is there.** -/
theorem nsForm_grounded {args : List Form} {r : Range} {d : NsDecl}
    (h : nsForm env args r = .ok d) : d.Grounded env := by
  unfold nsForm at h
  split at h
  · simp only [bind_eq_ok] at h
    obtain ⟨name, -, h⟩ := h
    cases h
    exact .of_name name
  · simp only [bind_eq_ok] at h
    obtain ⟨name, -, h⟩ := h
    split at h
    · exact foldlM_ok_induction (fun _ _ _ => nsOption_grounded) (.of_name name) h
    · exact absurd h nofun
  · exact absurd h nofun

end NsForm

/-! ## Other forms at top level -/

/-- Whether the host has the function, with this number of parameters. -/
def HostRef.Exists (ref : HostRef) : Prop :=
  ∃ m fn, hostModule? ref.module = some m ∧ m.function? ref.fn = some fn ∧ fn.arity = ref.arity

/-- Whether a declaration that is made in the namespace `ns` names what it should: something new in
`ns` itself, and otherwise something that is there. -/
def Declaration.Placed (env : Env) (ns : String) : Declaration → Prop
  | .ns d => d.Grounded env
  | .ascribe name _ => name.ns = ns
  | .data d => d.name.ns = ns ∧ ∀ c ∈ d.constructors, c.name.ns = ns
  | .host name ref _ => name.ns = ns ∧ ref.Exists

/-- The same for any form: an expression enters no name. -/
def Expr.Placed {α : Type} (env : Env) (ns : String) : Expr α → Prop
  | .define name _ _ _ => name.ns = ns
  | .declare d _ => d.Placed env ns
  | _ => True

theorem Expr.Scoped.placed {e : Expr Unit} {bound : List Local}
    (h : e.Scoped bound) : e.Placed env ns := by
  cases e with
  | define | declare => exact h.elim
  | _ => trivial

theorem Expr.Placed.of_map {α β : Type} {f : α → β} {e : Expr α}
    (h : (e.map f).Placed env ns) : e.Placed env ns := by
  cases e <;> exact h

section TopLevel

variable {c : Scope} {r : Range} {args : List Form} {s s' : Supply} {d : Declaration}

theorem defForm_placed {e : Expr Unit} (h : (defForm c r args).run s = .ok (e, s')) :
    e.Placed c.env c.ns := by
  unfold defForm at h
  split at h
  · split at h
    · simp only [run_bind_eq_ok, run_pure_eq_ok] at h
      obtain ⟨_, _, -, _, _, -, rfl, -⟩ := h
      exact rfl
    · exact absurd h run_throw_ne_ok
    · simp only [run_bind_eq_ok, run_pure_eq_ok] at h
      obtain ⟨_, _, -, _, _, -, _, _, -, rfl, -⟩ := h
      exact rfl
    · exact absurd h run_throw_ne_ok
  · exact absurd h run_throw_ne_ok

theorem ascribeForm_placed (h : (ascribeForm c r args).run s = .ok (d, s')) :
    d.Placed c.env c.ns := by
  unfold ascribeForm at h
  split at h
  · simp only [run_bind_eq_ok, run_pure_eq_ok] at h
    obtain ⟨_, _, -, _, _, -, rfl, -⟩ := h
    exact rfl
  · exact absurd h run_throw_ne_ok

theorem constructorForm_ns {c : TypeContext} {f : Form} {n n' : TyNames} {k : Constructor}
    (h : (constructorForm c f).run n = .ok (k, n')) : k.name.ns = c.ns := by
  unfold constructorForm at h
  split at h
  · obtain ⟨rfl, -⟩ := run_pure_eq_ok.1 h
    rfl
  · exact absurd h run_throw_ne_ok
  · simp only [run_bind_eq_ok, run_pure_eq_ok] at h
    obtain ⟨_, _, -, _, _, -, rfl, -⟩ := h
    rfl
  · exact absurd h run_throw_ne_ok

/-- The constructors of a data type are all in the namespace where it is declared. -/
theorem constructorForms_ns {c : TypeContext} {seen ks : List Constructor} {fs : List Form}
    {n n' : TyNames} (h : (constructorForms c seen fs).run n = .ok (ks, n'))
    (hseen : ∀ k ∈ seen, k.name.ns = c.ns) : ∀ k ∈ ks, k.name.ns = c.ns := by
  induction fs generalizing seen n with
  | nil =>
    rw [constructorForms, run_pure_eq_ok] at h
    exact h.1 ▸ hseen
  | cons f fs ih =>
    simp only [constructorForms, run_bind_eq_ok] at h
    obtain ⟨k, _, hk, h⟩ := h
    split at h
    · exact absurd h run_throw_ne_ok
    · exact ih h (List.forall_mem_append.2
        ⟨hseen, List.forall_mem_singleton.2 (constructorForm_ns hk)⟩)

theorem dataForm_placed (h : (dataForm c r args).run s = .ok (d, s')) : d.Placed c.env c.ns := by
  unfold dataForm at h
  split at h
  · exact absurd h run_throw_ne_ok
  · simp only [run_bind_eq_ok] at h
    obtain ⟨_, _, -, ⟨name, vs, n⟩, _, -, h⟩ := h
    split at h
    · exact absurd h run_throw_ne_ok
    · split at h
      · exact absurd h run_throw_ne_ok
      · simp only [run_bind_eq_ok, run_liftM_eq_ok, run_pure_eq_ok] at h
        obtain ⟨⟨ks, n'⟩, _, ⟨hks, -⟩, _, _, -, rfl, -⟩ := h
        exact ⟨rfl, constructorForms_ns hks (List.forall_mem_nil _)⟩

theorem hostForm_placed (h : (hostForm c r args).run s = .ok (d, s')) : d.Placed c.env c.ns := by
  unfold hostForm at h
  split at h
  · simp only [run_bind_eq_ok] at h
    obtain ⟨_, _, -, _, _, -, h⟩ := h
    split at h
    · split at h
      · rename_i m hm
        simp only [run_bind_eq_ok] at h
        obtain ⟨_, _, -, h⟩ := h
        split at h
        · rename_i fn hfn
          simp only [run_bind_eq_ok] at h
          obtain ⟨_, _, -, h⟩ := h
          split at h
          · split at h
            · obtain ⟨rfl, -⟩ := run_pure_eq_ok.1 h
              exact ⟨rfl, m, fn, hm, hfn, rfl⟩
            · exact absurd h run_throw_ne_ok
          · exact absurd h run_throw_ne_ok
        · exact absurd h run_throw_ne_ok
      · exact absurd h run_throw_ne_ok
    · exact absurd h run_throw_ne_ok
  · exact absurd h run_throw_ne_ok

end TopLevel

/-- **Every form at top level names what it should.** -/
theorem analyse_placed {f : Form} {s s' : Supply} {e : Expr Unit}
    (hf : f.EvenMaps) (h : (analyse env ns f).run s = .ok (e, s')) : e.Placed env ns := by
  unfold analyse at h
  split at h
  · rename_i head args r
    split at h
    · exact defForm_placed h
    · simp only [run_bind_eq_ok, run_pure_eq_ok] at h
      obtain ⟨d, _, hd, rfl, -⟩ := h
      exact ascribeForm_placed hd
    · simp only [run_bind_eq_ok, run_pure_eq_ok] at h
      obtain ⟨d, _, hd, rfl, -⟩ := h
      exact dataForm_placed hd
    · simp only [run_bind_eq_ok, run_pure_eq_ok] at h
      obtain ⟨d, _, hd, rfl, -⟩ := h
      exact hostForm_placed hd
    · simp only [run_bind_eq_ok, run_pure_eq_ok, run_liftM_eq_ok] at h
      obtain ⟨d, _, ⟨hd, -⟩, rfl, -⟩ := h
      exact nsForm_grounded hd
    · exact (exprForm_scoped _ hf (Scope.below_nil s) h).isScoped.placed
  · exact (exprForm_scoped _ hf (Scope.below_nil s) h).isScoped.placed

end TypedLisp
