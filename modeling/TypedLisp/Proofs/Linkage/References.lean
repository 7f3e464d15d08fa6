import TypedLisp.Proofs.Linkage.Accounts

/-!
# What references to global names read

What a reference to a global name reads can be told without cells, from the updates of its name that
the session has made: it is the newest object in the stretch of updates around the one that the code
was compiled against (`Session.load_eq_seen`). A declaration that repeats the type of a var keeps
the object, so the stretch goes back as well as forward (`Session.not_load_eq_seenSince`).
-/

namespace TypedLisp

/-! ## The cells that code reads -/

namespace Expr

variable {α : Type}

/-- **The code of an expression reads just the cells of the vars in it.** -/
theorem cells_of_lower {e : Expr α} {scope : List Local} {code : Code}
    (h : e.lower scope = .ok code) : code.cells = e.vars.map (·.cell) := by
  let R (e : Expr α) (c : Code) : Prop := c.cells = e.vars.map (·.cell)
  have hall {es cs} (h : List.Forall₂ R es cs) :
      Code.cellsAll cs = (varsAll es).map (·.cell) := by
    induction h with
    | nil => rfl
    | cons he _ ih => rw [Code.cellsAll, varsAll, List.map_append, he, ih]
  have hlet {scope bs cs} (h : LetCode (fun _ => R) scope bs cs) :
      Code.cellsBindings cs = (varsLet bs).map (·.cell) := by
    induction h with
    | nil => rfl
    | cons he _ ih => rw [Code.cellsBindings, varsLet, List.map_append, he, ih]
  refine lower_induction (P := fun _ => R) (fun _ _ => rfl) (fun _ _ => hall) (fun _ _ => rfl)
    (fun _ _ => rfl) (fun _ hf hes => ?_) (fun _ hes => ?_) (fun _ hbs he => ?_)
    (fun _ ht ha hb => ?_) (fun _ _ _ he => he) h
  · show Code.cells _ ++ Code.cellsAll _ = _
    rw [vars, List.map_append, hf, hall hes]
  · show _ :: Code.cellsAll _ = _
    rw [vars, List.map_cons, hall hes]
  · show Code.cellsBindings _ ++ Code.cells _ = _
    rw [vars, List.map_append, hlet hbs, he]
  · show Code.cells _ ++ Code.cells _ ++ Code.cells _ = _
    rw [vars, List.map_append, List.map_append, ht, ha, hb, List.append_assoc]

end Expr

namespace Session

variable {s s' : Session}

/-! ## The code of a form -/

/-- What a form that has been typed is compiled from: the parameters and the body of its code. -/
def source? : Expr Ty → Option (List Local × Expr Ty)
  | .define _ _ (.fn params body _) _ => some (params, body)
  | .define _ _ body _ => some ([], body)
  | .declare _ _ => none
  | e => some ([], e)

/-- The code that a form is compiled to when it is evaluated, if there is any. -/
def compiled? (s : Session) (f : Form) : Option Code := do
  let (e, supply) ← ((TypedLisp.analyse s.env s.ns f).run s.supply).toOption
  let (t, _) ← ((TypedLisp.infer e).run supply.tyVar).toOption
  let (params, body) ← source? t
  (body.lower params).toOption

theorem compiled?_eq_some {f : Form} {code : Code} (h : s.compiled? f = some code) :
    ∃ e supply t k params body, s.Analyses f e supply ∧ e.Infers supply t k ∧
      source? t = some (params, body) ∧ body.lower params = .ok code := by
  simp only [compiled?, Option.bind_eq_bind, Option.bind_eq_some_iff, toOption_eq_some] at h
  obtain ⟨⟨e, supply⟩, ha, ⟨t, k⟩, ht, ⟨params, body⟩, hsource, hcode⟩ := h
  exact ⟨e, supply, t, k, params, body, ha, ht, hsource, hcode⟩

/-- Code reads cells of vars that are in the environment when it is compiled. -/
theorem exists_var_of_compiled? {f : Form} {code : Code} (h : s.compiled? f = some code)
    (hf : f.EvenMaps) {c : Cell} (hc : c ∈ code.cells) :
    ∃ g v, s.env.var? g = some v ∧ v.cell = c := by
  obtain ⟨e, supply, t, k, params, body, ha, ht, hsource, hlower⟩ := compiled?_eq_some h
  have hvars : ∀ v ∈ body.vars, s.env.HasVar v := by
    cases t with
    | define name declared b n =>
      obtain ⟨-, hvars⟩ := scoped_of_define hf ha ht rfl
      cases b <;> cases hsource <;> exact hvars
    | declare => cases hsource
    | _ =>
      cases hsource
      exact (scoped_of_not_isEntry hf ha ht id).2
  rw [Expr.cells_of_lower hlower] at hc
  obtain ⟨v, hv, rfl⟩ := List.mem_map.1 hc
  obtain ⟨g, hg⟩ := hvars v hv
  exact ⟨g, v, hg, rfl⟩

/-- What reading a global name does, given what can be seen of it. -/
def loadSeen (g : GlobalName) : Option (Addr × Object) → Run Addr
  | some (a, _) => pure a
  | none => Machine.raise (.unboundVar g.text)

section Linkage

variable {ls : List Link} {g : GlobalName} {v : Var}

theorem Accounted.load_eq (h : s.Accounted ls) {l : Link} (hl : l ∈ ls) {m : Machine}
    (hm : m.cells = s.machine.cells) :
    Machine.load l.cell m = loadSeen l.name (bound? l.cell.id ls) m := by
  have hcell : m.cell? l.cell = (bound? l.cell.id ls).map Prod.fst := by
    rw [Machine.cell?, hm]
    exact h.contents l.cell.id
  rw [Machine.load_eq, hcell]
  cases bound? l.cell.id ls with
  | some p => rfl
  | none => rw [h.cell_name l hl]; rfl

/-- **What a var is read as later on**: what can be seen from its newest update. -/
theorem Accounted.exists_seen {us : List Update} (h : s.Accounted ls) (h' : s'.AccountedAfter ls us)
    (hv : s.env.var? g = some v) : ∃ u older, v.visible = some u.ty ∧
      updatesOf g (ls.map Link.toUpdate) = u :: older ∧
      (∀ m : Machine, m.cells = s'.machine.cells →
        Machine.load v.cell m = loadSeen g (seen u older (updatesOf g us)) m) ∧
      ∀ a o, seen u older (updatesOf g us) = some (a, o) → s'.machine.heap.get? a = some o := by
  obtain ⟨later, hlater, hus⟩ := h'
  obtain ⟨l, hl, hvisible, hcell⟩ := h.exists_newest hv
  obtain ⟨older, holder⟩ : ∃ older, named g ls = l :: older := List.head?_eq_some_iff.1 hl
  obtain ⟨hmem, hname⟩ := mem_of_newest? hl
  have hseen := hlater.ledger.bound?_eq_seen holder
  rw [Ledger.since_eq, hus] at hseen
  refine ⟨l.toUpdate, older.map Link.toUpdate, hvisible, ?_, fun m hm => ?_, fun a o ho => ?_⟩
  · rw [← map_named, holder, List.map_cons]
  · rw [hcell, hlater.load_eq (List.mem_append_right _ hmem) hm, hname, hseen]
  · exact hlater.objects l.cell.id a o (hseen.trans ho)

/-- **What a reference reads.** Let code be compiled in a session that has answered any requests,
and let the session answer any more. A reference in the code is to a name of which the session had
last made an update `u`, and the visible type of the var was that of `u`. Whenever the reference is
reached, it reads the newest object in the stretch of updates of the name around `u` in which each
type is that of the one before up to the names of variables, and it fails as unbound if there is
none; updates after the first one of another type do not matter. The object is there as it was made.
Since no cell changes while code runs, it does not matter when in a run the reference is reached.

Vars that share a cell have the same name and the same type at whatever times, and what is put into
a cell is the object of an update whose var has the cell and the type of the update. -/
theorem load_eq_seen (limit : Nat) {rs rs' : List Request} (hrs : ∀ r ∈ rs, r.EvenMaps)
    (hrs' : ∀ r ∈ rs', r.EvenMaps) {s s' : Session} (hs : s = (Session.start limit).after rs)
    (hs' : s' = s.after rs') :
    (∀ f code, f.EvenMaps → s.compiled? f = some code → ∀ c ∈ code.cells, ∃ g v u older,
      s.env.var? g = some v ∧ v.cell = c ∧ v.visible = some u.ty ∧
      (updatesOf g (startUpdates limit ++ (Session.start limit).history rs)).reverse =
        u :: older ∧
      (∀ (call : Addr → List Addr → Run Addr) (frame : Frame) (m : Machine),
        m.cells = s'.machine.cells →
        (Code.load c).eval call frame m =
          loadSeen g (seen u older (updatesOf g (s.history rs'))) m) ∧
      ∀ a o, seen u older (updatesOf g (s.history rs')) = some (a, o) →
        s'.machine.heap.get? a = some o) ∧
    (∀ (n : Nat) (code : Code) (frame : Frame) (m : Machine),
      (code.eval (call n) frame m).2.cells = m.cells) ∧
    (∀ g v g' v', s.env.var? g = some v → s'.env.var? g' = some v' → v.cell.id = v'.cell.id →
      g = g' ∧ ∃ t t', v.visible = some t ∧ v'.visible = some t' ∧
        t.alphaEquivalent t' = true) ∧
    ∀ r : Request, r.EvenMaps → ∀ (i : Nat) (a : Addr),
      (s.answer r).2.machine.cells[i]?.join = some a →
      s.machine.cells[i]?.join = some a ∨
      ∃ u ∈ s.updates r, ∃ o v, u.value = some (a, o) ∧
        (s.answer r).2.env.var? u.name = some v ∧ v.cell.id = i ∧ v.visible = some u.ty := by
  have hreachable : s.Reachable := hs ▸ (Reachable.start limit).after hrs
  obtain ⟨ls, hls, hpast⟩ := exists_accounted limit hrs
  rw [← hs] at hls
  have hlater : s'.AccountedAfter ls (s.history rs') := hs' ▸ hls.after hreachable hrs'
  refine ⟨fun f code hf hcode c hc => ?_, fun n code frame m =>
    (Code.leads_eval (grows_call n) code frame m).2.1.1,
    fun g v g' v' hv hv' hcell => hls.same_cell hlater hv hv' hcell, fun r hr i a ha =>
    hls.stored (hls.answer hreachable hr) (nodup_updates hreachable.coherent hr) ha⟩
  obtain ⟨g, v, hv, rfl⟩ := exists_var_of_compiled? hcode hf hc
  obtain ⟨u, older, hvisible, hupdates, hload, hobject⟩ := hls.exists_seen hlater hv
  refine ⟨g, v, u, older, hv, rfl, hvisible, ?_, fun _ _ m hm => hload m hm, hobject⟩
  rw [← hpast, updatesOf, List.filter_reverse, List.reverse_reverse]
  exact hupdates

/-- The form `(def name value)`. -/
def defines (name : String) (value : Form) : Form :=
  .seq .list [.atom (.symbol "def") .nowhere, .atom (.symbol name) .nowhere, value] .nowhere

/-- The form `(def f (fn () x))`. -/
def definesF : Form :=
  defines "f" (.seq .list [.atom (.symbol "fn") .nowhere, .seq .list [] .nowhere,
    .atom (.symbol "x") .nowhere] .nowhere)

/-- The forms `(def f (fn () x))`, `(def x 2)`, `(def x "new")` and `(def x 3)`, of which the third
gives `x` another type and the last its old type. -/
def definesXAgain : List Request :=
  [.form definesF, .form (defines "x" (.atom (.int 2) .nowhere)),
    .form (defines "x" (.atom (.str "new") .nowhere)),
    .form (defines "x" (.atom (.int 3) .nowhere))]

/-- The form `(def x 1)`. -/
def definesX : List Request := [.form (defines "x" (.atom (.int 1) .nowhere))]

/-- The session after `(def x 1)`. -/
def withX : Session := (Session.start 100).after definesX

theorem load_eq_seen_definesXAgain :
    (∀ r ∈ definesX, r.EvenMaps) ∧ (∀ r ∈ definesXAgain, r.EvenMaps) ∧ definesF.EvenMaps ∧
    withX.compiled? definesF = some (.load ⟨11, "user/x"⟩) ∧
    ∃ a, Machine.load ⟨11, "user/x"⟩ (withX.after definesXAgain).machine =
        (a, (withX.after definesXAgain).machine) ∧
      (withX.after definesXAgain).machine.heap.get? a = some (.int 2) := by
  have hx : ∀ r ∈ definesX, r.EvenMaps := by
    simp [definesX, Request.EvenMaps, defines, Form.EvenMaps, Form.EvenMapsAll]
  have hagain : ∀ r ∈ definesXAgain, r.EvenMaps := by
    simp [definesXAgain, definesF, defines, Request.EvenMaps, Form.EvenMaps, Form.EvenMapsAll]
  have hf : definesF.EvenMaps := hagain (.form definesF) (List.mem_cons_self ..)
  have hcode : withX.compiled? definesF = some (.load ⟨11, "user/x"⟩) := by cbv
  have hvar : (withX.env.var? ⟨"user", "x"⟩).map (·.cell.id) = some 11 := by cbv
  have hpast : (updatesOf ⟨"user", "x"⟩
      (startUpdates 100 ++ (Session.start 100).history definesX)).reverse =
      [⟨⟨"user", "x"⟩, .int, some (14, .int 1)⟩] := by cbv
  have hseen : seen ⟨⟨"user", "x"⟩, .int, some (14, .int 1)⟩ []
      (updatesOf ⟨"user", "x"⟩ (withX.history definesXAgain)) = some (16, .int 2) := by cbv
  obtain ⟨vx, hvx, hid⟩ := Option.map_eq_some_iff.1 hvar
  have hs : withX = (Session.start 100).after definesX := rfl
  obtain ⟨hreads, -⟩ := load_eq_seen 100 hx hagain hs rfl
  obtain ⟨g, v, u, older, hv, hcell, -, hupdates, hload, hobject⟩ :=
    hreads definesF _ hf hcode ⟨11, "user/x"⟩ (List.mem_singleton_self _)
  -- the cell tells which name the code refers to
  obtain ⟨-, -, hsame, -⟩ := load_eq_seen 100 hx (List.forall_mem_nil _) hs rfl
  obtain ⟨rfl, -⟩ := hsame g v _ vx hv hvx (by rw [hcell, hid])
  obtain ⟨rfl, rfl⟩ := List.cons.inj (hpast.symm.trans hupdates)
  rw [hseen] at hload
  exact ⟨hx, hagain, hf, hcode, 16, hload (call 100) [] _ rfl, hobject _ _ hseen⟩

/-- What can be seen of a name if only the updates from the given one on count. -/
def seenSince (u : Update) (later : List Update) : Option (Addr × Object) :=
  ((stretch u.ty later).reverse ++ [u]).findSome? (·.value)

/-- The forms `(def x 1)` and `(:: x Int)`. -/
def declaresXAgain : List Request :=
  [.form (defines "x" (.atom (.int 1) .nowhere)),
    .form (.seq .list [.atom (.symbol "::") .nowhere, .atom (.symbol "x") .nowhere,
      .atom (.symbol "Int") .nowhere] .nowhere)]

/-- The updates before the one that code was compiled against count as well: a declaration that
repeats the type of a var keeps what it is bound to, although it binds the var to nothing. -/
theorem not_load_eq_seenSince :
    ¬ ∀ (rs rs' : List Request) (s s' : Session) (f : Form) (code : Code) (c : Cell)
      (g : GlobalName) (v : Var) (u : Update) (older : List Update),
      (∀ r ∈ rs, r.EvenMaps) → (∀ r ∈ rs', r.EvenMaps) →
      s = (Session.start 100).after rs → s' = s.after rs' →
      f.EvenMaps → s.compiled? f = some code → c ∈ code.cells →
      s.env.var? g = some v → v.cell = c →
      (updatesOf g (startUpdates 100 ++ (Session.start 100).history rs)).reverse = u :: older →
      Machine.load c s'.machine =
        loadSeen g (seenSince u (updatesOf g (s.history rs'))) s'.machine := by
  intro h
  have hrequests : ∀ r ∈ declaresXAgain, r.EvenMaps := by
    simp [declaresXAgain, defines, Request.EvenMaps, Form.EvenMaps, Form.EvenMapsAll]
  have hf : definesF.EvenMaps := by simp [definesF, defines, Form.EvenMaps, Form.EvenMapsAll]
  have hcode : ((Session.start 100).after declaresXAgain).compiled? definesF =
      some (.load ⟨11, "user/x"⟩) := by cbv
  have hvar : (((Session.start 100).after declaresXAgain).env.var? ⟨"user", "x"⟩).map (·.cell) =
      some ⟨11, "user/x"⟩ := by cbv
  have hpast : (updatesOf ⟨"user", "x"⟩
      (startUpdates 100 ++ (Session.start 100).history declaresXAgain)).reverse =
      [⟨⟨"user", "x"⟩, .int, none⟩, ⟨⟨"user", "x"⟩, .int, some (14, .int 1)⟩] := by cbv
  have hread : (Machine.load ⟨11, "user/x"⟩ (((Session.start 100).after declaresXAgain).after
      [.form definesF]).machine).2.fault = none := by cbv
  obtain ⟨v, hv, hcell⟩ := Option.map_eq_some_iff.1 hvar
  have hload := h declaresXAgain [.form definesF] _ _ definesF _ ⟨11, "user/x"⟩ _ v _ _ hrequests
    (List.forall_mem_singleton.2 hf) rfl rfl hf hcode (List.mem_singleton_self _) hv hcell hpast
  rw [hload] at hread
  -- nothing is bound from the declaration on, so that reading would be a fault
  have hfault : (loadSeen ⟨"user", "x"⟩ (seenSince ⟨⟨"user", "x"⟩, .int, none⟩
      (updatesOf ⟨"user", "x"⟩ (((Session.start 100).after declaresXAgain).history
        [.form definesF]))) (((Session.start 100).after declaresXAgain).after
          [.form definesF]).machine).2.fault = some (.unboundVar "user/x") := by cbv
  cases hfault.symm.trans hread

end Linkage

end Session

end TypedLisp
