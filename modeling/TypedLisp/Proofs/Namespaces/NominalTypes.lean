import TypedLisp.Proofs.Inference.Completeness
import TypedLisp.Proofs.Namespaces.Integrity
import TypedLisp.Proofs.Reading.Consumption

/-!
# The nominal types of a session

A data type is known to the types by the text of its name, in which the namespace and the name are
joined by a slash. Two names have one text just if they overlap (`GlobalName.Overlaps`): the slash
that divides the one stands within a part of the other. Names come from symbols that reading did not
divide, and such a symbol has a slash before other characters only if it begins with one. So all
data types whose names do not begin with a slash are told apart, and types that are told apart
neither unify nor stand in for each other as arguments.
-/

namespace TypedLisp

/-! ## Texts of names -/

namespace GlobalName

variable {g g' : GlobalName}

/-- Whether the namespace of `g'` runs on into the name of `g` when both are written out. -/
def Overlaps (g g' : GlobalName) : Prop :=
  ∃ middle, g'.ns = g.ns ++ "/" ++ middle ∧ g.name = middle ++ "/" ++ g'.name

theorem toList_text (g : GlobalName) : g.text.toList = g.ns.toList ++ '/' :: g.name.toList := by
  simp [text]

theorem Overlaps.text_eq (h : g.Overlaps g') : g.text = g'.text := by
  obtain ⟨middle, hns, hname⟩ := h
  rw [text, text, hns, hname]
  simp only [String.append_assoc]

/-- Where the first parts of two texts end in different places, the later end lies in a name. -/
theorem eq_or_overlaps {rest : List Char} (hns : g'.ns.toList = g.ns.toList ++ rest)
    (hname : '/' :: g.name.toList = rest ++ '/' :: g'.name.toList) : g = g' ∨ g.Overlaps g' := by
  cases rest with
  | nil =>
    rw [List.append_nil] at hns
    refine .inl ?_
    cases g
    cases g'
    exact congr (congrArg mk (String.toList_inj.1 hns.symm))
      (String.toList_inj.1 (List.cons.inj hname).2)
  | cons c middle =>
    rw [List.cons_append] at hname
    obtain ⟨rfl, hname⟩ := List.cons.inj hname
    refine .inr ⟨String.ofList middle, String.toList_inj.1 ?_, String.toList_inj.1 ?_⟩
    · simp [hns]
    · simpa using hname

/-- **Two names have one text just if they overlap.** -/
theorem text_eq_iff (hne : g ≠ g') : g.text = g'.text ↔ g.Overlaps g' ∨ g'.Overlaps g := by
  constructor
  · intro h
    have hlist : g.ns.toList ++ '/' :: g.name.toList = g'.ns.toList ++ '/' :: g'.name.toList := by
      rw [← toList_text, ← toList_text, h]
    rcases List.append_eq_append_iff.1 hlist with ⟨rest, hns, hname⟩ | ⟨rest, hns, hname⟩
    · exact .inl ((eq_or_overlaps hns hname).resolve_left hne)
    · exact .inr ((eq_or_overlaps hns hname).resolve_left hne.symm)
  · rintro (h | h)
    · exact h.text_eq
    · exact h.text_eq.symm

end GlobalName

/-! ## Names of data types that are read -/

/-- Whether a name is that of a symbol that reading leaves in one piece. -/
def WholeName (name : String) : Prop := name ≠ "" ∧ Atom.Divided (.symbol name)

/-- A whole name has a slash before another whole name only if it begins with a slash. -/
theorem WholeName.begins_with_slash {name front back : String} (h : WholeName name)
    (hback : back ≠ "") (hname : name = front ++ "/" ++ back) : ∃ cs, name.toList = '/' :: cs := by
  have hlist : name.toList = front.toList ++ '/' :: back.toList := by simp [hname]
  by_cases hslash : '/' ∈ front.toList
  · -- the first slash stands in `front`, and something follows it
    obtain ⟨q, n, hfront, hq⟩ := List.eq_append_cons_of_mem hslash
    rw [hfront, List.append_assoc, List.cons_append] at hlist
    rcases h.2 q _ hlist hq with rfl | hn
    · exact ⟨_, hlist⟩
    · simp at hn
  · rcases h.2 _ _ hlist hslash with hfront | hn
    · exact ⟨_, by rw [hlist, hfront, List.nil_append]⟩
    · exact absurd (String.toList_eq_nil_iff.1 hn) hback

theorem GlobalName.Overlaps.begins_with_slash {g g' : GlobalName} (h : g.Overlaps g')
    (hg : WholeName g.name) (hg' : WholeName g'.name) : ∃ cs, g.name.toList = '/' :: cs := by
  obtain ⟨middle, -, hname⟩ := h
  exact hg.begins_with_slash hg'.1 hname

theorem mem_atoms_of_dataHeader {n n' : TyNames} {f : Form} {name : String} {vs : List TyVar}
    (h : dataHeader n f = .ok (name, vs, n')) : .symbol name ∈ f.atoms := by
  unfold dataHeader at h
  split at h
  · cases h
    exact List.mem_singleton_self _
  · exact absurd h nofun
  · rename_i head params r
    simp only [bind_eq_ok] at h
    obtain ⟨name, hname, ⟨ws, _⟩, -, h⟩ := h
    cases h
    unfold bindingName at hname
    split at hname
    · split at hname
      · cases hname
      · cases hname
        exact List.mem_append_left _ (List.mem_singleton_self _)
    · cases hname
  · exact absurd h nofun

theorem mem_atoms_of_dataForm {c : Scope} {r : Range} {args : List Form} {s s' : Supply}
    {d : DataType} (h : (dataForm c r args).run s = .ok (.data d, s')) :
    .symbol d.name.name ∈ Form.atomsAll args := by
  unfold dataForm at h
  split at h
  · exact absurd h run_throw_ne_ok
  · simp only [run_bind_eq_ok, run_liftM_eq_ok] at h
    obtain ⟨_, _, -, ⟨name, vs, n⟩, _, ⟨hheader, -⟩, h⟩ := h
    split at h
    · exact absurd h run_throw_ne_ok
    · split at h
      · exact absurd h run_throw_ne_ok
      · simp only [run_bind_eq_ok, run_liftM_eq_ok, run_pure_eq_ok] at h
        obtain ⟨⟨ks, n'⟩, _, -, _, _, -, hd, -⟩ := h
        cases hd
        exact List.mem_append_left _ (mem_atoms_of_dataHeader hheader)

/-- **A data type is named by a symbol of the form that declares it.** -/
theorem mem_atoms_of_analyse {env : Env} {ns : String} {f : Form} {s s' : Supply} {d : DataType}
    {n : Note Unit} (hf : f.EvenMaps)
    (h : (analyse env ns f).run s = .ok (.declare (.data d) n, s')) :
    .symbol d.name.name ∈ f.atoms := by
  have hexpr : (exprForm { env, ns } f).run s ≠ .ok (.declare (.data d) n, s') := fun h =>
    (exprForm_scoped _ hf (Scope.below_nil s) h).isScoped
  unfold analyse at h
  split at h
  · rename_i head args r
    split at h
    · obtain ⟨_, _, heq, -⟩ := defForm_scoped hf.2.2 h
      cases heq
    · simp only [run_bind_eq_ok, run_pure_eq_ok] at h
      obtain ⟨_, _, hd, heq, -⟩ := h
      obtain ⟨_, _, rfl, -⟩ := ascribeForm_below hd
      cases heq
    · simp only [run_bind_eq_ok, run_pure_eq_ok] at h
      obtain ⟨_, _, hd, heq, -⟩ := h
      cases heq
      exact List.mem_append_right _ (mem_atoms_of_dataForm hd)
    · simp only [run_bind_eq_ok, run_pure_eq_ok] at h
      obtain ⟨_, _, hd, heq, -⟩ := h
      obtain ⟨_, _, _, rfl, -⟩ := hostForm_below hd
      cases heq
    · simp only [run_bind_eq_ok, run_pure_eq_ok] at h
      obtain ⟨_, _, -, heq, -⟩ := h
      cases heq
    · exact absurd h hexpr
  · exact absurd h hexpr

/-! ## Types of a data type -/

/-- The name of the data type of which a type is, if it is one of a data type. -/
def Ty.nominal? : Ty → Option String
  | .data name => some name
  | .applied (.data name) _ => some name
  | _ => none

namespace Ty

variable {t u : Ty} {x y : String}

theorem nominal?_bind (h : t.nominal? = some x) (f : TyVar → Ty) :
    (t.bind f).nominal? = some x := by
  unfold nominal? at h
  split at h
  · cases h
    rfl
  · cases h
    rfl
  · cases h

theorem InstanceOf.nominal? (h : t.InstanceOf u) (hu : u.nominal? = some x) :
    t.nominal? = some x := by
  obtain ⟨s, rfl⟩ := h
  rw [apply_eq_bind]
  exact nominal?_bind hu _

theorem nominal?_ty (d : DataType) : d.ty.nominal? = some d.name.text := by
  unfold DataType.ty
  split <;> rfl

/-- **Types of different data types never unify.** -/
theorem exists_unify_error (ht : t.nominal? = some x) (hu : u.nominal? = some y) (hne : x ≠ y)
    {es : List Equation} (hmem : (t, u) ∈ es) : ∃ err, unify es = .error err := by
  cases h : unify es with
  | error err => exact ⟨err, rfl⟩
  | ok m =>
    have heq : t.bind m.toFun = u.bind m.toFun := solves_unify h _ hmem
    have hx := nominal?_bind ht m.toFun
    rw [heq, nominal?_bind hu] at hx
    exact absurd (Option.some.inj hx).symm hne

end Ty

namespace Expr

/-- Whether inference gives an expression a type of a data type. -/
def InfersNominal (e : Expr Unit) (x : String) : Prop :=
  ∃ k t k', (inferIn [] e).run k = .ok (t, k') ∧ t.ty.nominal? = some x

/-- Whether inference makes of an expression a function with a parameter of a data type. -/
def ExpectsNominal (e : Expr Unit) (i : Nat) (x : String) : Prop :=
  ∃ k t k' ps r p, (inferIn [] e).run k = .ok (t, k') ∧ t.ty = .fn ps r ∧ ps[i]? = some p ∧
    p.nominal? = some x

variable {callee : Expr Unit} {args : List (Expr Unit)} {r : Range} {i : Nat} {x y : String}

theorem scoped_mkCall (h : (mkCall callee args r).Scoped []) :
    callee.Scoped [] ∧ ∀ a ∈ args, a.Scoped [] := by
  cases callee with
  | globalVar v n => exact ⟨trivial, scopedAll_iff.1 h⟩
  | _ => exact ⟨h.1, scopedAll_iff.1 h.2⟩

/-- A derivation of a call has derivations of what it calls and of the arguments. -/
theorem IsDerivation.of_mkCall {d : Expr Ty} (hd : d.IsDerivation [])
    (herase : d.erase = mkCall callee args r) :
    ∃ (f : Expr Ty) (ds : List (Expr Ty)), f.erase = callee ∧ f.IsDerivation [] ∧
      ds.map erase = args ∧ (∀ a ∈ ds, IsDerivation [] a) ∧ f.ann = .fn (ds.map ann) d.ann := by
  cases callee with
  | globalVar v n =>
    cases d with
    | callVar w ds n' =>
      obtain ⟨rfl, hargs, -⟩ := Expr.callVar.inj herase
      rw [mapAll_eq_map] at hargs
      exact ⟨.globalVar w ⟨n.range, .fn (ds.map ann) n'.ann⟩, ds, rfl, hd.2, hargs,
        isDerivationAll_iff.1 hd.1, rfl⟩
    | _ => cases herase
  | _ =>
    cases d with
    | call f ds n' =>
      obtain ⟨hf, hargs, -⟩ := Expr.call.inj herase
      rw [mapAll_eq_map] at hargs
      exact ⟨f, ds, hf, hd.1, hargs, isDerivationAll_iff.1 hd.2.1, hd.2.2⟩
    | _ => cases herase

theorem InfersNominal.ann {d : Expr Ty} (h : d.erase.InfersNominal x) (hd : d.IsDerivation [])
    (hscoped : d.erase.Scoped []) : d.ann.nominal? = some x := by
  obtain ⟨k, t, k', ht, hx⟩ := h
  obtain ⟨_, _, hrun, hinst⟩ := inferInBy_principal hd hscoped k
  rw [inferIn_eq, hrun] at ht
  cases ht
  exact hinst.nominal? hx

theorem ExpectsNominal.param {f : Expr Ty} (h : f.erase.ExpectsNominal i x)
    (hf : f.IsDerivation []) (hscoped : f.erase.Scoped []) {ts : List Ty} {T t : Ty}
    (hann : f.ann = .fn ts T) (ht : ts[i]? = some t) : t.nominal? = some x := by
  obtain ⟨k, u, k', ps, q, p, hu, hty, hp, hx⟩ := h
  obtain ⟨_, _, hrun, m, hm⟩ := inferInBy_principal hf hscoped k
  rw [inferIn_eq, hrun] at hu
  cases hu
  rw [hty, hann, Ty.apply_eq_bind, Ty.bind, Ty.fn.injEq, Ty.bindAll_eq_map] at hm
  rw [← hm.1, List.getElem?_map, hp, Option.map_some, Option.some.injEq] at ht
  rw [← ht]
  exact Ty.nominal?_bind hx _

theorem scoped_of_analyse_mkCall {env : Env} {ns : String} {f : Form} {s s' : Supply}
    (hf : f.EvenMaps) (h : (analyse env ns f).run s = .ok (mkCall callee args r, s')) :
    (mkCall callee args r).Scoped [] := by
  obtain ⟨_, _, _, heq, -⟩ | ⟨_, _, heq, -⟩ | he := analyse_cases hf h
  · cases callee <;> cases heq
  · cases callee <;> cases heq
  · exact he.isScoped

/-- **No call passes on what it does not expect**: where a parameter is of one data type and its
argument of another, inference refuses the call. -/
theorem exists_infer_mkCall_error (hscoped : (mkCall callee args r).Scoped [])
    (hcallee : callee.ExpectsNominal i x) {a : Expr Unit} (ha : args[i]? = some a)
    (harg : a.InfersNominal y) (hne : x ≠ y) (k : TyVar) :
    ∃ err, (infer (mkCall callee args r)).run k = .error err := by
  cases h : (infer (mkCall callee args r)).run k with
  | error err => exact ⟨err, rfl⟩
  | ok p =>
    obtain ⟨d, k'⟩ := p
    have herase := erase_of_infer h
    obtain ⟨u, hu, rfl⟩ := run_infer.1 h
    obtain ⟨f, ds, rfl, hf, rfl, hds, hann⟩ :=
      (inferInBy_isDerivation hscoped hu).of_mkCall herase
    obtain ⟨hfscoped, hdscoped⟩ := scoped_mkCall hscoped
    rw [List.getElem?_map, Option.map_eq_some_iff] at ha
    obtain ⟨b, hb, rfl⟩ := ha
    have hmem := List.mem_of_getElem? hb
    have hy := harg.ann (hds b hmem) (hdscoped _ (List.mem_map_of_mem hmem))
    have hx : b.ann.nominal? = some x :=
      hcallee.param hf hfscoped hann (by rw [List.getElem?_map, hb, Option.map_some])
    exact absurd (Option.some.inj (hx.symm.trans hy)) hne

end Expr

/-! ## Sessions -/

/-- Whether all data types of an environment have whole names. -/
def Env.WholeDataTypes (e : Env) : Prop :=
  ∀ g d, e.dataType? g = some d → WholeName g.name

theorem Env.WholeDataTypes.withVar {e : Env} (h : e.WholeDataTypes) (v : Var) :
    (e.withVar v).WholeDataTypes := fun g d hd =>
  h g d (by unfold Env.withVar Env.ensureNs at hd; split at hd <;> exact hd)

namespace Session

variable {s s' : Session}

/-- Whether the form of a request, if it is one, comes from some text. -/
def Request.IsRead : Request → Prop
  | .form f => ∃ source, f ∈ (read source).1
  | .call _ _ => True

theorem Request.IsRead.evenMaps {r : Request} (h : r.IsRead) : r.EvenMaps := by
  cases r with
  | form f =>
    obtain ⟨source, hf⟩ := h
    exact (grammatical_of_mem_read source hf).1.even
  | call => trivial

theorem wholeName_of_mem_read {source : String} {f : Form} (hf : f ∈ (read source).1)
    {name : String} (hname : .symbol name ∈ f.atoms) : WholeName name := by
  obtain ⟨hgrammar, hlexical⟩ := grammatical_of_mem_read source hf
  refine ⟨?_, hgrammar.divided _ hname⟩
  rintro rfl
  obtain ⟨c, cs, hlist, -⟩ := hlexical _ hname
  exact absurd hlist nofun

theorem Enters.wholeDataTypes {t : Expr Ty} (h : s.Enters t s') (hs : s.env.WholeDataTypes)
    (ht : ∀ d n, t = .declare (.data d) n → WholeName d.name.name) : s'.env.WholeDataTypes := by
  cases h with
  | @define name declared body n a kind closures s₁ cell cells ho hcell =>
    have hquiet := quiet_of_definedObject ho
    rw [← hquiet.env_eq] at hs
    exact hs.withVar _
  | ns d n => exact hs
  | ascribe hv => exact hs.withVar _
  | @data d n units vs s' hvs =>
    have henv : s'.env = s.env := hvs.env_eq
    intro g d' hd'
    rcases Table.get?_insert_eq_some hd' with ⟨rfl, -⟩ | ⟨-, hd'⟩
    · exact ht d n rfl
    · exact hs g d' (by rwa [← henv])
  | host harity hcell => exact hs.withVar _

theorem wholeDataTypes_answer (hs : s.env.WholeDataTypes) {r : Request} (hr : r.IsRead) :
    (s.answer r).2.env.WholeDataTypes := by
  cases r with
  | form f =>
    obtain ⟨source, hf⟩ := hr
    obtain ⟨henv, -⟩ | ⟨e, supply, t, k, s', ha, ht, henters, heval⟩ := eval_enters f s
    · show (Session.eval f s).2.env.WholeDataTypes
      rwa [henv]
    · show (Session.eval f s).2.env.WholeDataTypes
      rw [heval]
      refine henters.wholeDataTypes hs ?_
      rintro d n rfl
      have heven := (grammatical_of_mem_read source hf).1.even
      rw [← erase_of_infer ht] at ha
      exact wholeName_of_mem_read hf (mem_atoms_of_analyse heven ha)
  | call sym args =>
    show (Session.invoke sym args s).2.env.WholeDataTypes
    rwa [invoke_env]

/-- **All data types of a session have whole names**, if the forms were read. -/
theorem wholeDataTypes_after (limit : Nat) {rs : List Request} (hrs : ∀ r ∈ rs, r.IsRead) :
    ((start limit).after rs).env.WholeDataTypes := by
  have hstart : (start limit).env.WholeDataTypes :=
    start_induction (P := fun s => s.env.WholeDataTypes) nofun fun s b hs => by
      rw [defineBuiltin_eq]
      exact hs.withVar _
  have hafter : ∀ s : Session, s.env.WholeDataTypes → (s.after rs).env.WholeDataTypes := by
    induction rs with
    | nil => exact fun s hs => hs
    | cons r rs ih =>
      obtain ⟨hr, hrs⟩ := List.forall_mem_cons.1 hrs
      exact fun s hs => ih hrs _ (wholeDataTypes_answer hs hr)
  exact hafter _ hstart

/-- **When the data types of a session have different types.** The types of two data types of
different names differ if and only if the names do not overlap, so they do at least where no name
begins with a slash. Where they differ, no types of the two unify, and no call passes an argument of
the one where the other is expected. -/
theorem nominal_types_differ_iff (limit : Nat) {rs : List Request} (hrs : ∀ r ∈ rs, r.IsRead)
    {g g' : GlobalName} {d d' : DataType}
    (hd : ((start limit).after rs).env.dataType? g = some d)
    (hd' : ((start limit).after rs).env.dataType? g' = some d') (hne : g ≠ g') :
    (Ty.data d.name.text ≠ .data d'.name.text ↔ ¬ g.Overlaps g' ∧ ¬ g'.Overlaps g) ∧
    ((∀ cs, g.name.toList ≠ '/' :: cs) → (∀ cs, g'.name.toList ≠ '/' :: cs) →
      Ty.data d.name.text ≠ .data d'.name.text) ∧
    (Ty.data d.name.text ≠ .data d'.name.text →
      (∀ t t' es, t.nominal? = some d.name.text → t'.nominal? = some d'.name.text →
        (t, t') ∈ es → ∃ err, unify es = .error err) ∧
      ∀ f callee args r i a supply, f.EvenMaps →
        (TypedLisp.analyse ((start limit).after rs).env ((start limit).after rs).ns f).run
          ((start limit).after rs).supply = .ok (Expr.mkCall callee args r, supply) →
        callee.ExpectsNominal i d'.name.text → args[i]? = some a → a.InfersNominal d.name.text →
        ∃ err, (Session.eval f ((start limit).after rs)).1 = .error (.type err)) := by
  have hreachable := (Reachable.start limit).after fun r hr => (hrs r hr).evenMaps
  have hwhole := wholeDataTypes_after limit hrs
  rw [hreachable.consistent.dataType_name g d hd, hreachable.consistent.dataType_name g' d' hd']
  have htext : Ty.data g.text ≠ .data g'.text ↔ ¬ g.Overlaps g' ∧ ¬ g'.Overlaps g := by
    rw [ne_eq, Ty.data.injEq, GlobalName.text_eq_iff hne, not_or]
  refine ⟨htext, fun hg hg' => htext.2 ⟨fun h => ?_, fun h => ?_⟩, fun hty => ?_⟩
  · obtain ⟨cs, hcs⟩ := h.begins_with_slash (hwhole g d hd) (hwhole g' d' hd')
    exact hg cs hcs
  · obtain ⟨cs, hcs⟩ := h.begins_with_slash (hwhole g' d' hd') (hwhole g d hd)
    exact hg' cs hcs
  · have htexts : g.text ≠ g'.text := fun h => hty (congrArg Ty.data h)
    refine ⟨fun t t' es ht ht' hmem => Ty.exists_unify_error ht ht' htexts hmem, ?_⟩
    intro f callee args r i a supply hf ha hcallee hi harg
    have hscoped := Expr.scoped_of_analyse_mkCall hf ha
    obtain ⟨err, herr⟩ := Expr.exists_infer_mkCall_error hscoped hcallee hi harg htexts.symm
      supply.tyVar
    exact ⟨err, by rw [eval_of_infer_error ha herr]⟩

/-! ### Names that overlap and names that do not -/

/-- What is read from the text of declarations of a data type `/B` in the namespace `user`, and of
data types `B` and `C` in the namespace `user/`. -/
def slashForms : List Form :=
  let symbol (name : String) (i j : Nat) : Form := .atom (.symbol name) ⟨⟨1, i⟩, ⟨1, j⟩⟩
  let seq (i j : Nat) (fs : List Form) : Form := .seq .list fs ⟨⟨1, i⟩, ⟨1, j⟩⟩
  [seq 1 15 [symbol "defdata" 2 9, symbol "/B" 10 12, symbol "Y" 13 14],
    seq 16 26 [symbol "ns" 17 19, symbol "user/" 20 25],
    seq 27 40 [symbol "defdata" 28 35, symbol "B" 36 37, symbol "X" 38 39],
    seq 41 58 [symbol "defdata" 42 49, symbol "C" 50 51,
      seq 52 57 [symbol "Z" 53 54, symbol "C" 55 56]]]

set_option maxRecDepth 2000 in
theorem read_slashForms :
    (read "(defdata /B Y) (ns user/) (defdata B X) (defdata C (Z C))").1 = slashForms := by
  with_unfolding_all rfl

theorem isRead_slashForms : ∀ r ∈ slashForms.map Request.form, r.IsRead := by
  intro r hr
  obtain ⟨f, hf, rfl⟩ := List.mem_map.1 hr
  exact ⟨_, read_slashForms ▸ hf⟩

/-- The session after them. -/
def slashes : Session := (start 100).after (slashForms.map .form)

theorem slashes_eq :
    (slashes.env.dataType? ⟨"user", "/B"⟩, slashes.env.dataType? ⟨"user/", "B"⟩,
      slashes.env.dataType? ⟨"user/", "C"⟩) =
    (some ⟨⟨"user", "/B"⟩, [], [⟨⟨"user", "Y"⟩, none⟩]⟩,
      some ⟨⟨"user/", "B"⟩, [], [⟨⟨"user/", "X"⟩, none⟩]⟩,
      some ⟨⟨"user/", "C"⟩, [], [⟨⟨"user/", "Z"⟩, some [.data "user//C"]⟩]⟩) := by
  cbv

/-- The form `(Z user/Y)`: the argument is of the type `/B`, and one of the type `C` is expected. -/
def callZ : Form :=
  .seq .list [.atom (.symbol "Z") .nowhere, .atom (.qualified "user" "Y") .nowhere] .nowhere

theorem analyse_callZ :
    (TypedLisp.analyse slashes.env slashes.ns callZ).run slashes.supply =
      .ok (Expr.mkCall
        (.globalVar ⟨⟨"user/", "Z"⟩, .constructor ⟨"user/", "C"⟩ 1, ⟨13, "user//Z"⟩, none,
          some (.fn [.data "user//C"] (.data "user//C"))⟩ (plainNote .nowhere))
        [.globalVar ⟨⟨"user", "Y"⟩, .constructor ⟨"user", "/B"⟩ 0, ⟨11, "user/Y"⟩, none,
          some (.data "user//B")⟩ (plainNote .nowhere)] .nowhere, slashes.supply) := by
  cbv

/-- The types of `/B` and `C` differ, so they do not unify, and `(Z user/Y)` is refused. -/
theorem nominal_types_differ_slashes :
    (∀ r ∈ slashForms.map Request.form, r.IsRead) ∧
    ¬ GlobalName.Overlaps ⟨"user", "/B"⟩ ⟨"user/", "C"⟩ ∧
    (∃ d d', slashes.env.dataType? ⟨"user", "/B"⟩ = some d ∧
      slashes.env.dataType? ⟨"user/", "C"⟩ = some d' ∧ ∃ err, unify [(d.ty, d'.ty)] = .error err) ∧
    ∃ err, (Session.eval callZ slashes).1 = .error (.type err) := by
  obtain ⟨hd, heq⟩ := Prod.mk.inj slashes_eq
  obtain ⟨-, hd'⟩ := Prod.mk.inj heq
  obtain ⟨hiff, -, happly⟩ :=
    nominal_types_differ_iff 100 isRead_slashForms hd hd' (by decide)
  obtain ⟨hunify, hcall⟩ := happly (by decide)
  refine ⟨isRead_slashForms, (hiff.1 (by decide)).1,
    ⟨_, _, hd, hd', hunify _ _ _ (Ty.nominal?_ty _) (Ty.nominal?_ty _) List.mem_cons_self⟩, ?_⟩
  refine hcall callZ _ _ _ 0 _ _ ?_ analyse_callZ ⟨0, _, _, _, _, _, rfl, rfl, rfl, rfl⟩ rfl
    ⟨0, _, _, rfl, rfl⟩
  simp [callZ, Form.EvenMaps, Form.EvenMapsAll]

/-- The names `/B` in `user` and `B` in `user/` overlap, so the two data types have one type: the
vector `[X user/Y]` of a value of each is accepted. -/
theorem overlapping_names_share_type :
    ∃ d d', slashes.env.dataType? ⟨"user", "/B"⟩ = some d ∧
      slashes.env.dataType? ⟨"user/", "B"⟩ = some d' ∧ d.name ≠ d'.name ∧
      Ty.data d.name.text = .data d'.name.text ∧
      (Session.eval
        (.seq .vector [.atom (.symbol "X") .nowhere, .atom (.qualified "user" "Y") .nowhere] .nowhere)
        slashes).1 =
      .ok (.value (.vector [.variant "user//B" "X" [], .variant "user//B" "Y" []])
        (.vector (.data "user//B"))) := by
  obtain ⟨hd, heq⟩ := Prod.mk.inj slashes_eq
  obtain ⟨hd', -⟩ := Prod.mk.inj heq
  exact ⟨_, _, hd, hd', by decide, by decide, by cbv⟩

end Session

end TypedLisp
