import Mathlib.Data.List.Pairwise
import TypedLisp.Proofs.Heap.Comparison
import TypedLisp.Proofs.Namespaces.Declarations
import TypedLisp.Proofs.Runtime.WordTyping
import TypedLisp.Proofs.Session.Reachable

/-!
# Equality of values in a session

Objects are compared by the names of data types and the tags of constructors, and their values have
the names of constructors. If a data type has kept its constructors in their places whenever it was
declared again (`DataType.Settled`), a tag says which constructor a variant has: **for values of
such data types equality in the order of objects is equality of values, and literals of sets and
maps lose nothing** (`Session.Reachable.compare_eq_iff_value_eq`).
-/

namespace TypedLisp

/-! ## The places of constructors -/

namespace DataType

/-- The layouts of the constructors of a data type. -/
def layouts (d : DataType) : List Layout := d.constructors.zipIdx.map fun (c, tag) => d.layout c tag

/-- The names of the constructors of a data type, each with its place. -/
def places (d : DataType) : List (String × Nat) := (d.constructors.map (·.name.name)).zipIdx

/-- Whether data types have no constructor in different places, and no place with different
constructors. -/
def KeepsPlaces (d d' : DataType) : Prop := ∀ p ∈ d.places, ∀ q ∈ d'.places, p.2 = q.2 ↔ p.1 = q.1

instance : DecidableRel KeepsPlaces := fun d d' =>
  inferInstanceAs (Decidable (∀ p ∈ d.places, ∀ q ∈ d'.places, _))

instance : Std.Symm KeepsPlaces where
  symm _ _ h p hp q hq := by rw [eq_comm, h q hq p hp, eq_comm]

/-- Whether all data types of a name have their constructors in the same places. -/
def Settled (ds : List DataType) (name : String) : Prop :=
  (ds.filter (·.name.text = name)).Pairwise KeepsPlaces

instance (ds : List DataType) : DecidablePred (Settled ds) := fun name =>
  inferInstanceAs (Decidable ((ds.filter (·.name.text = name)).Pairwise KeepsPlaces))

theorem KeepsPlaces.refl {d : DataType} (h : (d.constructors.map (·.name.name)).Nodup) :
    d.KeepsPlaces d := by
  rintro ⟨c, i⟩ hp ⟨c', j⟩ hq
  have hi := List.mem_zipIdx_iff_getElem?.1 hp
  have hj := List.mem_zipIdx_iff_getElem?.1 hq
  obtain ⟨hlt, -⟩ := List.getElem?_eq_some_iff.1 hi
  dsimp only at hi hj ⊢
  rw [← List.getElem?_inj hlt h, hi, hj, Option.some.injEq]

theorem mem_places_of_mem_layouts {d : DataType} {l : Layout} (h : l ∈ d.layouts) :
    l.dataType = d.name.text ∧ (l.constructor, l.tag) ∈ d.places := by
  obtain ⟨⟨c, tag⟩, hc, rfl⟩ := List.mem_map.1 h
  have hget : d.constructors[tag]? = some c := List.mem_zipIdx_iff_getElem?.1 hc
  refine ⟨rfl, List.mem_zipIdx_iff_getElem?.2 ?_⟩
  show (d.constructors.map (·.name.name))[tag]? = some c.name.name
  rw [List.getElem?_map, hget, Option.map_some]

end DataType

theorem Declares.nodup_constructors {env : Env} {ns : String} {s s' : Supply} {d : DataType}
    (h : Declares env ns s s' (.data d)) : (d.constructors.map (·.name.name)).Nodup := by
  cases h with
  | ascribe h =>
    obtain ⟨_, _, heq, -⟩ := ascribeForm_below h
    cases heq
  | host h =>
    obtain ⟨_, _, _, heq, -⟩ := hostForm_below h
    cases heq
  | data h =>
    have hns := (dataForm_placed h).2
    obtain ⟨_, heq, -, hnodup, -⟩ := dataForm_below h
    cases heq
    have hconstructors := List.Nodup.of_map _ hnodup
    refine (List.nodup_map_iff_inj_on hconstructors).2 fun k hk k' hk' hname => ?_
    refine (List.nodup_map_iff_inj_on hconstructors).1 hnodup k hk k' hk' ?_
    show GlobalName.mk k.name.ns k.name.name = ⟨k'.name.ns, k'.name.name⟩
    rw [hns k hk, hns k' hk', hname]

/-- The data type that an expression declares, if it does. -/
def Expr.declared {α : Type} : Expr α → List DataType
  | .declare (.data d) _ => [d]
  | _ => []

theorem Expr.declared_erase (t : Expr Ty) : t.erase.declared = t.declared := by
  cases t with
  | declare d n => cases d <;> rfl
  | _ => rfl

theorem declared_of_infer {e : Expr Unit} {t : Expr Ty} {k k' : TyVar}
    (h : (infer e).run k = .ok (t, k')) : t.declared = e.declared := by
  rw [← Expr.declared_erase, erase_of_infer h]

namespace Session

open Machine

variable {ε α : Type} {ds : List DataType}

/-! ## The layouts of a session -/

/-- Whether the layouts of a session are those of the session before it and of some data types. -/
def Adds (ds : List DataType) (s s' : Session) : Prop :=
  ∀ l, s'.machine.heap.HasLayout l → s.machine.heap.HasLayout l ∨ ∃ d ∈ ds, l ∈ d.layouts

instance : IsPreorder Session (Adds ds) where
  refl _ _ hl := .inl hl
  trans _ _ _ h h' l hl := (h' l hl).elim (h l) .inr

theorem adds_of_reuses {s s' : Session} (h : s.machine.heap.Reuses s'.machine.heap) :
    Adds ds s s' := fun l hl => .inl (h l hl)

/-! ### Forms -/

theorem adds_runThunk (e : Expr Ty) (s : Session) : Adds ds s (runThunk e s).2 := by
  cases h : e.lower [] with
  | error err =>
    rw [runThunk_lower_error h]
    exact adds_of_reuses (.refl _)
  | ok code =>
    have hadds : Adds ds s (s.afterThunk code) :=
      adds_of_reuses (Code.leads_eval (reuses_call s.callLimit) code [] _)
    cases hf : (s.evalThunk code).2.fault with
    | some f => rwa [runThunk_fault h hf]
    | none => rwa [runThunk_ok h hf]

theorem adds_definedObject (name : GlobalName) (body : Expr Ty) (s : Session) :
    Adds ds s (definedObject name body s).2 := by
  rcases fn_or_isThunk body with ⟨params, b, n, rfl⟩ | hbody
  · cases h : b.lower params with
    | error e =>
      rw [definedObject_fn_error h]
      exact adds_of_reuses (.refl _)
    | ok code =>
      rw [definedObject_fn h]
      exact adds_of_reuses (leads_alloc (R := Machine.Reuses) rfl _)
  · rw [definedObject_snd hbody]
    exact adds_runThunk body s

theorem layout?_constructorObject (d : DataType) (c : Constructor) (tag : Nat) :
    (constructorObject d c tag).layout? = some (d.layout c tag) := by
  unfold constructorObject
  dsimp only
  split <;> rfl

theorem ConstructorVars.hasLayout {d : DataType} {cs : List (Constructor × Nat)} {s s' : Session}
    {vs : List Var} (h : ConstructorVars d cs s vs s') {l : Layout}
    (hl : s'.machine.heap.HasLayout l) :
    s.machine.heap.HasLayout l ∨ l ∈ cs.map fun (c, tag) => d.layout c tag := by
  induction h with
  | nil => exact .inl hl
  | @cons c tag cs s s' cell cells vs hcell _ ih =>
    rcases ih hl with hl | hl
    · refine (Heap.hasLayout_push hl).imp_right fun ho => ?_
      rw [layout?_constructorObject] at ho
      exact Option.some.inj ho ▸ List.mem_cons_self ..
    · exact .inr (List.mem_cons_of_mem _ hl)

/-- **A form adds the layouts of the data type that it declares**, whether it succeeds or fails. -/
theorem adds_runForm (t : Expr Ty) (s : Session) : Adds t.declared s (runForm t s).2 := by
  cases t with
  | define name declared body n =>
    have hadds : Adds [] s (definedObject name body s).2 := adds_definedObject name body s
    show Adds [] s (runDefine name declared body s).2
    cases h : definedObject name body s with
    | mk r s₁ =>
      rw [h] at hadds
      cases r with
      | error e => rwa [runDefine_error h]
      | ok r =>
        obtain ⟨cell, cells, -, hrun⟩ := runDefine_ok h declared
        rwa [hrun]
  | declare d n =>
    show Adds _ s (runDeclare d s).2
    obtain ⟨r, s', hrun, henters⟩ | ⟨e, hrun⟩ := runDeclare_cases d n s
    · rw [hrun]
      cases henters with
      | ns | ascribe => exact adds_of_reuses (.refl _)
      | data hvs =>
        exact fun l hl => (hvs.hasLayout hl).imp_right fun hl => ⟨_, List.mem_singleton_self _, hl⟩
      | host => exact adds_of_reuses (leads_alloc (R := Machine.Reuses) rfl _)
    · rw [hrun]
      exact adds_of_reuses (.refl _)
  | _ =>
    rw [runForm_snd (t := _) id]
    exact adds_runThunk _ s

/-! ### Calls from outside -/

theorem adds_callVar (v : Var) (args : List Value) : Advances (Adds ds) (callVar v args) :=
  leads_callVar v (fun s => adds_of_reuses (Heap.leads_encodeAll args s.machine.heap))
    (fun _ => adds_of_reuses (.refl _))
    (fun {limit f argc m s} hentered => by
      have hreuses := leads_enter (R := Machine.Reuses) limit f argc { s.machine with fault := none }
      rw [hentered] at hreuses
      exact adds_of_reuses hreuses)
    -- the function that is run is on the heap, so a constructor has its layout there
    fun as hfn => adds_of_reuses (FnObject.reuses_run (reuses_call _) hfn as)

theorem reuses_collected (s : Session) : s.machine.heap.Reuses s.collected.machine.heap := by
  obtain h | h := collectIfDue_eq s.machine
  · exact (congrArg Machine.heap h).symm ▸ .refl _
  · exact (congrArg Machine.heap h).symm ▸ Heap.reuses_collect _ _

theorem not_hasLayout_start (limit : Nat) (l : Layout) :
    ¬ (Session.start limit).machine.heap.HasLayout l := by
  refine start_induction (P := fun s => ¬ s.machine.heap.HasLayout l) ?_ fun s b hs hl => ?_
  · rintro ⟨a, o, ha, ho⟩
    obtain ⟨e, he, rfl⟩ := Heap.get?_eq_some.1 ha
    have hlt : a < 3 := Heap.lt_size_of_slot? he
    match a, hlt with
    | 0, _ | 1, _ | 2, _ => cases he; cases ho
  · rw [defineBuiltin_eq] at hl
    exact (Heap.hasLayout_push hl).elim hs nofun

/-! ### Histories -/

/-- The data type that a form declares in a session, if it does. -/
def declaredBy (s : Session) (f : Form) : List DataType :=
  match (TypedLisp.analyse s.env s.ns f).run s.supply with
  | .ok (e, _) => e.declared
  | .error _ => []

/-- A session that can be reached, with the data types that have been declared on the way. -/
inductive History : Session → List DataType → Prop where
  | start (limit : Nat) : History (.start limit) []
  | eval {s : Session} {declared : List DataType} (h : History s declared) {f : Form}
      (hf : f.EvenMaps) : History (Session.eval f s).2 (declared ++ s.declaredBy f)
  | invoke {s : Session} {declared : List DataType} (h : History s declared) (sym : String)
      (args : List Value) : History (Session.invoke sym args s).2 declared

theorem Reachable.exists_history {s : Session} (h : s.Reachable) : ∃ ds, s.History ds := by
  induction h with
  | start limit => exact ⟨[], .start limit⟩
  | eval _ hf ih => exact ih.imp' (· ++ _) fun _ h => .eval h hf
  | invoke _ sym args ih => exact ih.imp fun _ h => .invoke h sym args

theorem nodup_of_mem_declaredBy {s : Session} {f : Form} (hf : f.EvenMaps) {d : DataType}
    (hd : d ∈ s.declaredBy f) : (d.constructors.map (·.name.name)).Nodup := by
  unfold declaredBy at hd
  split at hd
  · rename_i e supply ha
    obtain ⟨name, body, n, rfl, -⟩ | ⟨d', n, rfl, hd'⟩ | he := analyse_cases hf ha
    · cases hd
    · cases d' with
      | data d' => exact List.mem_singleton.1 hd ▸ hd'.nodup_constructors
      | _ => cases hd
    · cases e with
      | declare => exact he.isScoped.elim
      | _ => cases hd
  · cases hd

namespace History

variable {s : Session}

theorem nodup (h : s.History ds) : ∀ d ∈ ds, (d.constructors.map (·.name.name)).Nodup := by
  induction h with
  | start => exact nofun
  | eval _ hf ih => exact List.forall_mem_append.2 ⟨ih, fun d hd => nodup_of_mem_declaredBy hf hd⟩
  | invoke _ _ _ ih => exact ih

/-- **The layouts of a session are those of the data types that it has declared.** -/
theorem exists_layout (h : s.History ds) {l : Layout} (hl : s.machine.heap.HasLayout l) :
    ∃ d ∈ ds, l ∈ d.layouts := by
  induction h with
  | start limit => exact absurd hl (not_hasLayout_start limit l)
  | @eval s ds _ f hf ih =>
    have hbefore : s.machine.heap.HasLayout l → ∃ d ∈ ds ++ s.declaredBy f, l ∈ d.layouts :=
      fun hl => (ih hl).imp fun d hd => ⟨List.mem_append_left _ hd.1, hd.2⟩
    obtain ⟨e, -, heval⟩ | ⟨e, supply, err, -, -, heval⟩ | ⟨e, supply, t, k, ha, ht, heval⟩ :=
      eval_cases f s
    · rw [heval] at hl
      exact hbefore hl
    · rw [heval] at hl
      exact hbefore hl
    · rw [heval, run_eq] at hl
      rcases adds_runForm t _ l (reuses_collected _ l hl) with hl | ⟨d, hd, hl⟩
      · exact hbefore hl
      · rw [declared_of_infer ht] at hd
        have hdeclared : s.declaredBy f = e.declared := by simp only [declaredBy, ha]
        exact ⟨d, List.mem_append_right _ (hdeclared ▸ hd), hl⟩
  | @invoke s ds _ sym args ih =>
    cases hv : s.resolve sym with
    | error e =>
      rw [invoke_of_resolve_error hv] at hl
      exact ih hl
    | ok v =>
      rw [invoke_of_resolve hv] at hl
      exact (adds_callVar v args s l (reuses_collected _ l hl)).elim ih id

/-- If no constructor of a data type has changed places, tags say which constructor a variant has.
-/
theorem tagsAgree (h : s.History ds) : s.machine.heap.TagsAgree (DataType.Settled ds) := by
  intro l l' hl hl' hsettled heq
  obtain ⟨d, hd, hl⟩ := h.exists_layout hl
  obtain ⟨d', hd', hl'⟩ := h.exists_layout hl'
  obtain ⟨hdata, hplace⟩ := DataType.mem_places_of_mem_layouts hl
  obtain ⟨hdata', hplace'⟩ := DataType.mem_places_of_mem_layouts hl'
  have hnamed : ∀ {d}, d ∈ ds → l.dataType = d.name.text →
      d ∈ ds.filter (·.name.text = l.dataType) := fun hd hdata =>
    List.mem_filter.2 ⟨hd, decide_eq_true hdata.symm⟩
  have hkeeps : d.KeepsPlaces d' := List.Pairwise.forall_of_forall
    (fun d hd => .refl (h.nodup d (List.mem_of_mem_filter hd))) hsettled
    (hnamed hd hdata) (hnamed hd' (heq.trans hdata'))
  exact hkeeps _ hplace _ hplace'

end History

end Session

/-! ## Equality -/

/-- A machine while code runs, which started from the heap of another one. -/
inductive Machine.Runs (m : Machine) : Machine → Prop where
  | start {m' : Machine} (h : m'.heap = m.heap) : Runs m m'
  | eval {m' : Machine} (h : Runs m m') (depth : Nat) (frame : Frame) (c : Code) :
      Runs m (c.eval (call depth) frame m').2

theorem Machine.Runs.reuses {m m' : Machine} (h : m.Runs m') : m.heap.Reuses m'.heap := by
  induction h with
  | start h => exact h ▸ .refl _
  | eval _ depth frame c ih => exact ih.trans (c.leads_eval (reuses_call depth) frame _)

theorem Code.eval_collection {f : Addr → List Addr → Run Addr} {frame : Frame}
    {items : List Code} {as : List Addr} {m m₁ : Machine}
    (h : Code.evalAll f frame items m = (as, m₁)) (kind : Collection) :
    Code.eval f frame (.collection kind items) m = Machine.collection kind as m₁ := by
  show Machine.collection kind (Code.evalAll f frame items m).1
    (Code.evalAll f frame items m).2 = _
  rw [h]

namespace Session

/-- **Objects are equal in the order exactly if their values are equal**, in every session that can
be reached and while code runs in it, provided that one value has no function in it and no data type
of which a constructor has changed places. A literal of a set of such values has the values of all
its items, and one of a map has for every key the value that it is last given. -/
theorem Reachable.compare_eq_iff_value_eq {s : Session} (h : s.Reachable) :
    (∃ ds, s.History ds) ∧
    ∀ ds, s.History ds → ∀ m, s.machine.Runs m →
      (∀ a b u v, m.heap.decode a = .ok u → m.heap.decode b = .ok v →
        u.Comparable (DataType.Settled ds) → (m.heap.compare a b = .eq ↔ u = v)) ∧
      (∀ depth frame items as m₁ vs, Code.evalAll (call depth) frame items m = (as, m₁) →
        m₁.heap.Values as vs → (∀ v ∈ vs, v.Comparable (DataType.Settled ds)) →
        ∃ a m₂ ws, Code.eval (call depth) frame (.collection .set items) m = (a, m₂) ∧
          m₂.heap.decode a = .ok (.set ws) ∧ ∀ w, w ∈ ws ↔ w ∈ vs) ∧
      ∀ depth frame items as m₁ ps, Code.evalAll (call depth) frame items m = (as, m₁) →
        m₁.heap.EntryValues (pairs as) ps → (∀ p ∈ ps, p.1.Comparable (DataType.Settled ds)) →
        ∃ a m₂ qs, Code.eval (call depth) frame (.collection .map items) m = (a, m₂) ∧
          m₂.heap.decode a = .ok (.map qs) ∧ (∀ q ∈ qs, q ∈ ps) ∧
          ∀ before p after, ps = before ++ p :: after → (∀ q ∈ after, q.1 ≠ p.1) → p ∈ qs := by
  refine ⟨h.exists_history, fun ds hs m hm => ?_⟩
  have hagree := hs.tagsAgree.of_reuses hm.reuses
  -- the items of a literal are evaluated first, which makes no layouts
  have hitems : ∀ {depth frame items as m₁}, Code.evalAll (call depth) frame items m = (as, m₁) →
      m₁.heap.TagsAgree (DataType.Settled ds) := fun {depth frame items _ _} heval => by
    have hreuses := Code.leads_evalAll (reuses_call depth) items frame m
    rw [heval] at hreuses
    exact hagree.of_reuses hreuses
  refine ⟨fun a b u v hu hv hplain => Heap.compare_eq_iff hagree hu hv hplain, ?_, ?_⟩
  · intro depth frame items as m₁ vs heval hvs hplain
    obtain ⟨ws, hws, hmem⟩ := Machine.decode_collection_set (hitems heval) hvs hplain
    exact ⟨_, _, ws, Code.eval_collection heval .set, hws, hmem⟩
  · intro depth frame items as m₁ ps heval hps hplain
    obtain ⟨qs, hqs, hfrom, hlast⟩ := Machine.decode_collection_map (hitems heval) hps hplain
    exact ⟨_, _, qs, Code.eval_collection heval .map, hqs, hfrom, hlast⟩

/-- The form `(defdata T c ..)`, where the constructors have no fields. -/
def enumForm (constructors : List String) : Form :=
  let sym (s : String) : Form := .atom (.symbol s) .nowhere
  .seq .list (sym "defdata" :: sym "T" :: constructors.map sym) .nowhere

/-- The data type of `enumForm`. -/
def enumType (constructors : List String) : DataType :=
  ⟨⟨userNs, "T"⟩, [], constructors.map fun c => ⟨⟨userNs, c⟩, none⟩⟩

/-- The form `(def old A)`. -/
def defineOld : Form :=
  let sym (s : String) : Form := .atom (.symbol s) .nowhere
  .seq .list [sym "def", sym "old", sym "A"] .nowhere

/-- The session after `(defdata T A B)` and `(def old A)`. -/
def oldDefined : Session :=
  (Session.eval defineOld (Session.eval (enumForm ["A", "B"]) (.start 100)).2).2

/-- The session where `T` is declared again after that. -/
def redeclared (constructors : List String) : Session :=
  (Session.eval (enumForm constructors) oldDefined).2

theorem history_redeclared {constructors : List String}
    (h : oldDefined.declaredBy (enumForm constructors) = [enumType constructors]) :
    (redeclared constructors).History [enumType ["A", "B"], enumType constructors] := by
  have hforms : ∀ cs, (enumForm cs).EvenMaps := fun cs => by
    simp [enumForm, Form.EvenMaps, Form.evenMapsAll_iff]
  have hdefine : defineOld.EvenMaps := by simp [defineOld, Form.EvenMaps, Form.EvenMapsAll]
  have henum : (Session.start 100).declaredBy (enumForm ["A", "B"]) = [enumType ["A", "B"]] := by
    cbv
  have hold : (Session.eval (enumForm ["A", "B"]) (.start 100)).2.declaredBy defineOld = [] := by
    cbv
  have hhistory := (((History.start 100).eval (hforms ["A", "B"])).eval hdefine).eval
    (hforms constructors)
  rw [henum, hold, show (Session.eval defineOld _).2 = oldDefined from rfl, h] at hhistory
  exact hhistory

theorem History.reachable {s : Session} {ds : List DataType} (h : s.History ds) : s.Reachable := by
  induction h with
  | start limit => exact .start limit
  | eval _ hf ih => exact ih.eval hf
  | invoke _ sym args ih => exact ih.invoke sym args

/-- The value of a constructor of `enumForm`. -/
def enumValue (constructor : String) : Value := .variant "user/T" constructor []

/-- The session where `T` has one constructor more, at the end. -/
def extended : Session := redeclared ["A", "B", "C"]

/-- The code of `old`, `A` and `B` in that session. -/
def extendedItems : List Code :=
  [.load ⟨13, "user/old"⟩, .load ⟨11, "user/A"⟩, .load ⟨12, "user/B"⟩]

theorem evalAll_extendedItems :
    Code.evalAll (call 0) [] extendedItems extended.machine = ([14, 16, 17], extended.machine) := by
  cbv

theorem values_extended : extended.machine.heap.Values [14, 16, 17]
    [enumValue "A", enumValue "A", enumValue "B"] :=
  (mapM_eq_ok_iff fun _ _ => Iff.rfl).1 (by cbv)

/-- A constructor added at the end: the old `A` is equal to the new one, and not to `B`. -/
theorem compare_eq_iff_value_eq_extended :
    extended.Reachable ∧ extended.History [enumType ["A", "B"], enumType ["A", "B", "C"]] ∧
      Code.evalAll (call 0) [] extendedItems extended.machine = ([14, 16, 17], extended.machine) ∧
      (extended.machine.heap.compare 14 16 = .eq ∧ extended.machine.heap.compare 14 17 ≠ .eq) ∧
      ∃ a m ws,
        Code.eval (call 0) [] (.collection .set extendedItems) extended.machine = (a, m) ∧
        m.heap.decode a = .ok (.set ws) ∧ ∀ w, w ∈ ws ↔ w = enumValue "A" ∨ w = enumValue "B" := by
  have hhistory : extended.History [enumType ["A", "B"], enumType ["A", "B", "C"]] :=
    history_redeclared (by cbv)
  have hplain : ∀ c, (enumValue c).Comparable
      (DataType.Settled [enumType ["A", "B"], enumType ["A", "B", "C"]]) := fun c =>
    .variant (by decide) (List.forall_mem_nil _)
  obtain ⟨hcompare, hset, -⟩ := hhistory.reachable.compare_eq_iff_value_eq.2 _ hhistory
    extended.machine (.start rfl)
  have hvalues := values_extended
  refine ⟨hhistory.reachable, hhistory, evalAll_extendedItems, ?_, ?_⟩
  · rw [Heap.Values, List.forall₂_cons, List.forall₂_cons, List.forall₂_cons] at hvalues
    obtain ⟨hold, hA, hB, -⟩ := hvalues
    exact ⟨(hcompare 14 16 _ _ hold hA (hplain "A")).2 rfl,
      fun heq => absurd ((hcompare 14 17 _ _ hold hB (hplain "A")).1 heq) (by simp [enumValue])⟩
  · obtain ⟨a, m, ws, heval, hdecode, hmem⟩ := hset 0 [] extendedItems _ _ _ evalAll_extendedItems
      hvalues (by simp [hplain])
    exact ⟨a, m, ws, heval, hdecode, fun w => by simp [hmem w]⟩

/-- The form `#{old B}`. -/
def oldAndB : Form :=
  let sym (s : String) : Form := .atom (.symbol s) .nowhere
  .seq .set [sym "old", sym "B"] .nowhere

/-- Constructors that change places: the variant `A` from before is equal to the new `B`, and the
set of the two loses one of them. -/
theorem compare_eq_of_redeclared :
    (redeclared ["B", "A"]).Reachable ∧
      (redeclared ["B", "A"]).machine.heap.decode 14 = .ok (enumValue "A") ∧
      (redeclared ["B", "A"]).machine.heap.decode 16 = .ok (enumValue "B") ∧
      (redeclared ["B", "A"]).machine.heap.compare 14 16 = .eq ∧
      (Session.eval oldAndB (redeclared ["B", "A"])).1 =
        .ok (.value (.set [enumValue "B"]) (.set (.data "user/T"))) := by
  have hvalues : (redeclared ["B", "A"]).machine.heap.Values [14, 16]
      [enumValue "A", enumValue "B"] := (mapM_eq_ok_iff fun _ _ => Iff.rfl).1 (by cbv)
  rw [Heap.Values, List.forall₂_cons, List.forall₂_cons] at hvalues
  exact ⟨(history_redeclared (by cbv)).reachable, hvalues.1, hvalues.2.1, by cbv, by cbv⟩

end Session

end TypedLisp
