import TypedLisp.Proofs.Heap.Encoding
import TypedLisp.Proofs.Inference.Completeness
import TypedLisp.Proofs.Session.InternalErrors
import TypedLisp.Proofs.Values.Printing

/-!
# Evaluating printed values

The form of a plain value denotes an expression of literals and collections (`Expr.Writes`). Such an
expression has every type that the value has (`Expr.Writes.hasType`), and its code makes the
canonical form of the value (`Expr.Writes.makes`): the parts of a set or a map come in the order in
which they were written and are sorted on the way.
-/

namespace TypedLisp

/-! ## Types of values -/

/-- Whether a value has a type. An empty collection has the type for items of any type. -/
inductive Value.HasType : Value → Ty → Prop where
  | bool (b : Bool) : HasType (.bool b) .bool
  | int (n : Int64) : HasType (.int n) .int
  | str (s : String) : HasType (.str s) .str
  | vector {vs : List Value} {t : Ty} (h : ∀ v ∈ vs, HasType v t) : HasType (.vector vs) (.vector t)
  | set {vs : List Value} {t : Ty} (h : ∀ v ∈ vs, HasType v t) : HasType (.set vs) (.set t)
  | map {es : List (Value × Value)} {t u : Ty} (hk : ∀ e ∈ es, HasType e.1 t)
      (hv : ∀ e ∈ es, HasType e.2 u) : HasType (.map es) (.map t u)

theorem Value.HasType.plain {v : Value} {t : Ty} (h : v.HasType t) : v.Plain := by
  induction h with
  | bool b => exact .bool b
  | int n => exact .int n
  | str s => exact .str s
  | vector _ ih => exact .vector ih
  | set _ ih => exact .set ih
  | map _ _ ihk ihv => exact .map ihk ihv

/-! ## Expressions that write values -/

/-- Whether an expression writes a value down. -/
inductive Expr.Writes {α : Type} : Expr α → Value → Prop where
  | literal (l : Literal) (n : Note α) : Writes (.literal l n) l.value
  | collection {k : Collection} {es : List (Expr α)} {ws : List Value} {v : Value} (n : Note α)
      (hv : v.Collects k ws) (hes : List.Forall₂ Writes es ws) : Writes (.collection k es n) v

namespace Expr

variable {α : Type} {e : Expr α} {v : Value} {k : Collection} {ws : List Value}

theorem writes_value_iff {l : Literal} : e.Writes l.value ↔ ∃ n, e = .literal l n := by
  constructor
  · intro h
    generalize hv : l.value = v at h
    cases h with
    | literal l' n =>
      obtain rfl : l = l' := by cases l <;> cases l' <;> cases hv <;> rfl
      exact ⟨n, rfl⟩
    | collection n hcollects _ => exact absurd (hv ▸ hcollects) (Value.not_collects_value l)
  · rintro ⟨n, rfl⟩
    exact .literal l n

theorem writes_iff_of_collects (hv : v.Collects k ws) :
    e.Writes v ↔ ∃ es n, e = .collection k es n ∧ List.Forall₂ Writes es ws := by
  constructor
  · intro h
    cases h with
    | literal l n => exact absurd hv (Value.not_collects_value l)
    | @collection k' es ws' _ n hv' hes =>
      obtain ⟨rfl, rfl⟩ : k' = k ∧ ws' = ws := by
        cases hv <;> cases hv' <;> exact ⟨rfl, rfl⟩
      exact ⟨es, n, rfl, hes⟩
  · rintro ⟨es, n, rfl, hes⟩
    exact .collection n hv hes

theorem Writes.of_map {β : Type} {f : α → β} (hv : v.Plain) (h : (e.map f).Writes v) :
    e.Writes v := by
  induction hv using Value.Plain.ind generalizing e with
  | literal l _ =>
    obtain ⟨n, he⟩ := writes_value_iff.1 h
    cases e with
    | literal l' m =>
      cases he
      exact .literal l m
    | _ => cases he
  | collects v k ws _ hv _ ih =>
    obtain ⟨es, n, he, hes⟩ := (writes_iff_of_collects hv).1 h
    cases e with
    | collection k' es' m =>
      cases he
      rw [mapAll_eq_map, List.forall₂_map_left_iff] at hes
      refine .collection m hv ?_
      exact (forall₂_and_of_forall_mem hes fun w hw (e : Expr α) => ih w hw (e := e)).imp
        fun e w h => h.2 e h.1
    | _ => cases he

end Expr

/-! ## Analysing the form of a value -/

section Analysis

variable {c : Scope} {s : Supply} {v : Value} {g : Form}

theorem Form.eq_atom_of_bare {a : Atom} {r : Range} (h : g.bare = .atom a r) :
    ∃ r', g = .atom a r' := by
  cases g with
  | atom a' r' =>
    cases h
    exact ⟨r', rfl⟩
  | seq => cases h

theorem Form.eq_seq_of_bare {b : Bracket} {fs : List Form} {r : Range} (h : g.bare = .seq b fs r) :
    ∃ items r', g = .seq b items r' ∧ items.map Form.bare = fs := by
  cases g with
  | atom => cases h
  | seq b' items r' =>
    cases h
    exact ⟨items, r', rfl, (Form.bareAll_eq_map items).symm⟩

theorem exists_exprForms_of_bare {ws : List Value} {gs : List Form}
    (hgs : gs.map Form.bare = ws.map Value.form)
    (h : ∀ w ∈ ws, ∀ g : Form, g.bare = w.form →
      ∃ e, (exprForm c g).run s = .ok (e, s) ∧ e.Writes w) :
    ∃ es, (exprForms c gs).run s = .ok (es, s) ∧ List.Forall₂ Expr.Writes es ws := by
  induction ws generalizing gs with
  | nil =>
    obtain rfl : gs = [] := List.map_eq_nil_iff.1 hgs
    exact ⟨[], rfl, .nil⟩
  | cons w ws ih =>
    obtain ⟨g, gs, rfl, hg, hgs⟩ := List.map_eq_cons_iff.1 hgs
    rw [List.forall_mem_cons] at h
    obtain ⟨e, he, hw⟩ := h.1 g hg
    obtain ⟨es, hes, hws⟩ := ih hgs h.2
    refine ⟨e :: es, ?_, .cons hw hws⟩
    rw [exprForms]
    simp only [run_bind_eq_ok, run_pure_eq_ok]
    exact ⟨e, s, he, es, s, hes, rfl, rfl⟩

theorem exists_exprForm_of_bare (hv : v.Plain) (hg : g.bare = v.form) :
    ∃ e, (exprForm c g).run s = .ok (e, s) ∧ e.Writes v := by
  induction hv using Value.Plain.ind generalizing g with
  | literal l _ =>
    rw [Value.form_value] at hg
    obtain ⟨r, rfl⟩ := Form.eq_atom_of_bare hg
    exact ⟨.literal l (plainNote r), by cases l <;> rfl, .literal l _⟩
  | collects v k ws _ hv _ ih =>
    rw [hv.form_eq] at hg
    obtain ⟨gs, r, rfl, hgs⟩ := Form.eq_seq_of_bare hg
    obtain ⟨es, hes, hws⟩ := exists_exprForms_of_bare hgs fun w hw g => ih w hw (g := g)
    refine ⟨.collection k es (plainNote r), ?_, .collection _ hv hws⟩
    cases k <;>
    · simp only [Collection.bracket, exprForm, run_bind_eq_ok, run_pure_eq_ok]
      exact ⟨es, s, hes, rfl, rfl⟩

theorem analyse_of_bare (hv : v.Plain) (hg : g.bare = v.form) (env : Env) (ns : String) :
    analyse env ns g = exprForm { env, ns } g := by
  cases hv using Value.Plain.ind with
  | literal l _ =>
    rw [Value.form_value] at hg
    obtain ⟨r, rfl⟩ := Form.eq_atom_of_bare hg
    rfl
  | collects v k ws _ hv _ ih =>
    rw [hv.form_eq] at hg
    obtain ⟨gs, r, rfl, -⟩ := Form.eq_seq_of_bare hg
    cases k <;> rfl

end Analysis

/-! ## Types of written values -/

/-- Whether all expressions that write a value have derivations of a type. -/
def Value.Derives (v : Value) (t : Ty) : Prop :=
  ∀ e : Expr Unit, e.Writes v → ∃ d : Expr Ty, d.erase = e ∧ (∀ c, d.IsDerivation c) ∧ d.ann = t

namespace Value

variable {v : Value} {t : Ty}

theorem derives_value (l : Literal) : l.value.Derives l.ty := by
  intro e he
  obtain ⟨n, rfl⟩ := Expr.writes_value_iff.1 he
  exact ⟨.literal l ⟨n.range, l.ty⟩, rfl, fun _ => rfl, rfl⟩

theorem Derives.all {ws : List Value} {ts : List Ty} (h : List.Forall₂ Derives ws ts)
    {es : List (Expr Unit)} (hes : List.Forall₂ Expr.Writes es ws) :
    ∃ ds : List (Expr Ty), ds.map Expr.erase = es ∧ (∀ c, Expr.IsDerivationAll c ds) ∧
      ds.map Expr.ann = ts := by
  induction hes generalizing ts with
  | nil =>
    cases h
    exact ⟨[], rfl, fun _ => trivial, rfl⟩
  | cons he _ ih =>
    cases h with
    | cons hw hws =>
      obtain ⟨d, rfl, hd, rfl⟩ := hw _ he
      obtain ⟨ds, rfl, hds, rfl⟩ := ih hws
      exact ⟨d :: ds, rfl, fun c => ⟨hd c, hds c⟩, rfl⟩

/-- Collections have derivations if their parts have and the types of these fit together. -/
theorem Collects.derives {k : Collection} {ws : List Value} {ts : List Ty} (hv : v.Collects k ws)
    (hws : List.Forall₂ Derives ws ts) (ht : k.Holds ts t) : v.Derives t := by
  intro e he
  obtain ⟨es, n, rfl, hes⟩ := (Expr.writes_iff_of_collects hv).1 he
  obtain ⟨ds, rfl, hds, rfl⟩ := Derives.all hws hes
  refine ⟨.collection k ds ⟨n.range, t⟩, ?_, fun c => ⟨hds c, ht⟩, rfl⟩
  rw [Expr.erase, Expr.map, Expr.mapAll_eq_map]
  rfl

theorem forall₂_derives_const {vs : List Value} (h : ∀ v ∈ vs, v.Derives t) :
    List.Forall₂ Derives vs (vs.map fun _ => t) :=
  List.forall₂_map_right_iff.2 (List.forall₂_same.2 h)

theorem HasType.derives (h : v.HasType t) : v.Derives t := by
  induction h with
  | bool b => exact derives_value (.bool b)
  | int n => exact derives_value (.int n)
  | str s => exact derives_value (.str s)
  | vector _ ih =>
    exact (Collects.vector _).derives (forall₂_derives_const ih)
      ⟨_, rfl, List.forall_mem_map.2 fun _ _ => rfl⟩
  | set _ ih =>
    exact (Collects.set _).derives (forall₂_derives_const ih)
      ⟨_, rfl, List.forall_mem_map.2 fun _ _ => rfl⟩
  | @map es t u _ _ ihk ihv =>
    have hentries : List.Forall₂ (fun e p => Derives e.1 p.1 ∧ Derives e.2 p.2) es
        (es.map fun _ => (t, u)) :=
      List.forall₂_map_right_iff.2 (List.forall₂_same.2 fun e he => ⟨ihk e he, ihv e he⟩)
    refine (Collects.map es).derives (forall₂_inTurn hentries) ⟨t, u, rfl, ?_, ?_⟩
    · rw [keys, pairs_inTurn]
      simp
    · rw [values, pairs_inTurn]
      simp

end Value

theorem Expr.Writes.hasType {e : Expr Unit} {v : Value} {t : Ty} (he : e.Writes v)
    (hv : v.HasType t) : e.HasType t := by
  obtain ⟨d, hd, hderivation, hann⟩ := hv.derives e he
  exact ⟨d, hd, hderivation [], hann⟩

/-! ## Running the code of written values -/

namespace Machine

variable {m : Machine} {call : Addr → List Addr → Run Addr} {frame : Frame}

/-- **A literal has its value.** -/
theorem makes_literal (hm : m.heap.Standard) (l : Literal) : Makes (literal l) m l.value := by
  cases l with
  | bool b => exact ⟨rfl, hm.decode_boolAddr b⟩
  | int n => exact ⟨rfl, Heap.decode_of_get? (get?_alloc (.int n) m) (.int n)⟩
  | str s => exact ⟨rfl, Heap.decode_of_get? (get?_alloc (.str s) m) (.str s)⟩

/-- **A collection of the canonical parts of a value has the canonical form of the value.** -/
theorem makes_collection {v : Value} {k : Collection} {ws : List Value} (hv : v.Collects k ws)
    (hws : ∀ w ∈ ws, w.Plain) {items : List Addr}
    (hitems : m.heap.Values items (ws.map Value.canonical)) :
    Makes (collection k items) m v.canonical := by
  have hplain : ∀ w ∈ ws.map Value.canonical, w.Plain :=
    List.forall_mem_map.2 fun w hw => (hws w hw).canonical
  cases hv with
  | vector =>
    rw [Value.canonical, Value.canonicalAll_eq_map]
    exact makes_collection_vector hitems
  | set =>
    rw [Value.canonical, Value.canonicalAll_eq_map]
    exact makes_collection_set hitems hplain
  | map es =>
    rw [Value.canonical, Value.canonicalEntries_eq_map]
    rw [map_inTurn] at hitems hplain
    exact makes_collection_map (forall₂_pairs hitems) fun p hp =>
      (forall_mem_inTurn.1 hplain p hp).1

theorem values_evalAll (hcall : ∀ f args, Run.Grows (call f args)) {cs : List Code}
    {ws : List Value} (hcs : List.Forall₂
      (fun c w => ∀ m : Machine, m.heap.Standard → Makes (c.eval call frame) m w) cs ws)
    (hm : m.heap.Standard) :
    (Code.evalAll call frame cs m).2.fault = m.fault ∧
      (Code.evalAll call frame cs m).2.heap.Values (Code.evalAll call frame cs m).1 ws := by
  induction hcs generalizing m with
  | nil => exact ⟨rfl, .nil⟩
  | @cons c w cs ws hc _ ih =>
    have hgrows := (Code.leads_eval hcall c frame m).1
    obtain ⟨hfault, hvalues⟩ := ih (hm.of_le hgrows)
    refine ⟨hfault.trans (hc m hm).fault_eq, .cons ?_ hvalues⟩
    exact Heap.decode_of_le (Code.leads_evalAll hcall cs frame _).1 (hc m hm).decode_eq

end Machine

namespace Expr

open Machine

variable {α : Type} {e : Expr α} {v : Value} {call : Addr → List Addr → Run Addr}

theorem exists_lowerAll {R : Code → Value → Prop} {scope : List Local} {es : List (Expr α)}
    {ws : List Value}
    (h : List.Forall₂ (fun e w => ∃ c, e.lower scope = .ok c ∧ R c w) es ws) :
    ∃ cs, lowerAll scope es = .ok cs ∧ List.Forall₂ R cs ws := by
  induction h with
  | nil => exact ⟨[], rfl, .nil⟩
  | @cons e w es ws he _ ih =>
    obtain ⟨c, hc, hw⟩ := he
    obtain ⟨cs, hcs, hws⟩ := ih
    refine ⟨c :: cs, ?_, .cons hw hws⟩
    rw [lowerAll, hc, hcs]
    rfl

/-- **The code of an expression that writes a value makes the canonical form of the value.** -/
theorem Writes.makes (he : e.Writes v) (hv : v.Plain)
    (hcall : ∀ f args, Run.Grows (call f args)) (scope : List Local) (frame : Frame) :
    ∃ code, e.lower scope = .ok code ∧
      ∀ m : Machine, m.heap.Standard → Makes (code.eval call frame) m v.canonical := by
  induction hv using Value.Plain.ind generalizing e with
  | literal l _ =>
    obtain ⟨n, rfl⟩ := writes_value_iff.1 he
    have hcanonical : l.value.canonical = l.value := by cases l <;> rfl
    rw [hcanonical]
    exact ⟨.literal l, rfl, fun m hm => makes_literal hm l⟩
  | collects v k ws _ hv hws ih =>
    obtain ⟨es, n, rfl, hes⟩ := (writes_iff_of_collects hv).1 he
    have hparts := forall₂_and_of_forall_mem hes fun w hw (e : Expr α) => ih w hw (e := e)
    obtain ⟨cs, hcs, hmakes⟩ := exists_lowerAll (hparts.imp fun e w h => h.2 e h.1)
    refine ⟨.collection k cs, ?_, fun m hm => ?_⟩
    · rw [lower, hcs]
      rfl
    · obtain ⟨hfault, hvalues⟩ := values_evalAll hcall (List.forall₂_map_right_iff.2 hmakes) hm
      have hmade := makes_collection hv hws hvalues
      exact ⟨hmade.fault_eq.trans hfault, hmade.decode_eq⟩

end Expr

/-! ## Sessions -/

namespace Session

variable {s : Session} {f : Form} {v : Value} {T : Ty}

/-- A typed expression that writes a value runs to the canonical form of the value. -/
theorem runForm_of_writes {t : Expr Ty} (ht : t.Writes v) (hv : v.Plain)
    (hs : s.machine.heap.Standard) :
    ∃ closures, (runForm t s).1 = .ok ⟨.value v.canonical t.ann, closures⟩ := by
  obtain ⟨code, hcode, hmakes⟩ := ht.makes hv (grows_call s.callLimit) [] []
  obtain ⟨hfault, hdecode⟩ := hmakes { (s.withUnit code).machine with fault := none }
    (hs.of_le (quiet_withUnit s code).heap_le)
  have hentry : ¬IsEntry t := by
    cases ht <;> exact id
  have hafter : (s.afterThunk code).machine.heap.decode (s.evalThunk code).1 = .ok v.canonical :=
    hdecode
  rw [runForm_of_runThunk hentry (runThunk_ok hcode hfault), hafter]
  exact ⟨s.unitClosures code, rfl⟩

theorem eval_of_bare (hs : s.Reachable) (hf : f.EvenMaps) (hbare : f.bare = v.form)
    (hv : v.HasType T) :
    ∃ T', (eval f s).1 = .ok (.value v.canonical T') ∧ T.InstanceOf T' := by
  obtain ⟨e, he, hwrites⟩ := exists_exprForm_of_bare (c := { env := s.env, ns := s.ns })
    (s := s.supply) hv.plain hbare
  rw [← analyse_of_bare hv.plain hbare] at he
  obtain ⟨t, k, ht, hinst⟩ := infer_principal hs.declaredBelow hf he (hwrites.hasType hv)
  rw [← erase_of_infer ht] at hwrites
  obtain ⟨closures, hrun⟩ := runForm_of_writes (hwrites.of_map hv.plain) hv.plain
    (s := s.withSupply { s.supply with tyVar := k }) hs.whole.standard
  refine ⟨t.ann, ?_, hinst⟩
  rw [eval_of_infer he ht, run_eq, hrun]

/-- **A printed value evaluates to its canonical form**: in every session, the text of a value that
has a type and in which no string has a character that is shown by its code point evaluates to the
value with its sets and maps sorted at every depth, at a type of which the type of the value is an
instance. -/
theorem evalSource_text (hs : s.Reachable) (hv : v.HasType T) (hprintable : v.Printable) :
    ∃ T', (evalSource v.text s).1 = .ok [.value v.canonical T'] ∧ T.InstanceOf T' := by
  obtain ⟨g, hread, hbare⟩ := Value.readAll_text hv.plain hprintable
  obtain ⟨T', heval, hinst⟩ := eval_of_bare hs (readAll_evenMaps hread (List.mem_singleton_self g))
    hbare hv
  refine ⟨T', ?_, hinst⟩
  have hone : evalSource v.text s = (do return [← eval g] : Action EvalError (List Outcome)) s := by
    rw [evalSource, hread]
    rfl
  rw [hone, bind_ok (Prod.ext heval rfl)]
  rfl

/-- A map with a key twice, a set with an item twice, and empty collections. -/
def unsortedMap : Value :=
  .map [(.str "b", .vector [.set []]), (.str "a", .vector []),
    (.str "b", .vector [.set [.int 2, .int 1, .int 2], .set []])]

/-- What is left of it: the last entry of the key, and the item once. -/
def sortedMap : Value :=
  .map [(.str "a", .vector []), (.str "b", .vector [.set [.int 1, .int 2], .set []])]

theorem hasType_unsortedMap : unsortedMap.HasType (.map .str (.vector (.set .int))) := by
  refine .map ?_ ?_
  · simp [Value.HasType.str]
  · simp only [List.forall_mem_cons, List.not_mem_nil, IsEmpty.forall_iff, implies_true, and_true]
    refine ⟨.vector ?_, .vector nofun, .vector ?_⟩
    · exact List.forall_mem_singleton.2 (.set nofun)
    · refine List.forall_mem_cons.2 ⟨.set ?_, List.forall_mem_singleton.2 (.set nofun)⟩
      simp [Value.HasType.int]

theorem evalSource_text_unsortedMap :
    unsortedMap.text = "\x7b\"b\" [#\x7b\x7d] \"a\" [] \"b\" [#\x7b2 1 2\x7d #\x7b\x7d]\x7d" ∧
    ∃ T', (evalSource unsortedMap.text (.start 100)).1 = .ok [.value sortedMap T'] ∧
      (Ty.map .str (.vector (.set .int))).InstanceOf T' := by
  have hcanonical : unsortedMap.canonical = sortedMap := by
    simp only [unsortedMap, Value.canonical, Value.canonicalAll, Value.canonicalEntries,
      ← foldl_insertBy]
    rfl
  refine ⟨by decide +kernel, ?_⟩
  rw [← hcanonical]
  exact evalSource_text (.start 100) hasType_unsortedMap (by decide +kernel)

end Session

end TypedLisp
