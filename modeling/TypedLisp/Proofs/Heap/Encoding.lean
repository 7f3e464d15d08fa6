import TypedLisp.Proofs.Heap.ValueOrder
import TypedLisp.Proofs.Runtime.Operations
import TypedLisp.Proofs.Values.Relisting

/-!
# Values put on the heap and read off again

Functions and variants are barred from the heap. The nodes of a value are the value itself and all
values in it, from left to right (`Value.nodes`).
-/

namespace TypedLisp

/-! ## Nodes -/

namespace Value

/-- What a value is called that may not be put on the heap. -/
def barred? : Value → Option String
  | .fn _ _ => some "function"
  | .variant _ _ _ => some "variant"
  | _ => none

mutual

/-- A value and all values in it, from left to right. -/
def nodes : Value → List Value
  | .vector vs => .vector vs :: nodesAll vs
  | .set vs => .set vs :: nodesAll vs
  | .map es => .map es :: nodesOfEntries es
  | .variant d c vs => .variant d c vs :: nodesAll vs
  | v => [v]

/-- The nodes of some values. -/
def nodesAll : List Value → List Value
  | [] => []
  | v :: vs => nodes v ++ nodesAll vs

/-- The nodes of keys and values, where a key comes before its value. -/
def nodesOfEntries : List (Value × Value) → List Value
  | [] => []
  | (k, v) :: es => nodes k ++ nodes v ++ nodesOfEntries es

end

theorem nodesAll_eq_flatMap (vs : List Value) : nodesAll vs = vs.flatMap nodes := by
  induction vs with
  | nil => rfl
  | cons v vs ih => rw [nodesAll, ih, List.flatMap_cons]

theorem nodesOfEntries_eq_flatMap (es : List (Value × Value)) :
    nodesOfEntries es = es.flatMap fun e => e.1.nodes ++ e.2.nodes := by
  induction es with
  | nil => rfl
  | cons e es ih => rw [nodesOfEntries, ih, List.flatMap_cons]

theorem plain_vector {vs : List Value} : (Value.vector vs).Plain ↔ ∀ v ∈ vs, v.Plain :=
  ⟨fun | .vector h => h, .vector⟩

theorem plain_set {vs : List Value} : (Value.set vs).Plain ↔ ∀ v ∈ vs, v.Plain :=
  ⟨fun | .set h => h, .set⟩

theorem plain_map {es : List (Value × Value)} :
    (Value.map es).Plain ↔ ∀ e ∈ es, e.1.Plain ∧ e.2.Plain :=
  ⟨fun | .map hk hv => fun e he => ⟨hk e he, hv e he⟩, fun h =>
    .map (fun e he => (h e he).1) fun e he => (h e he).2⟩

theorem plain_iff {v : Value} : v.Plain ↔ ∀ n ∈ v.nodes, n.barred? = none := by
  have hcons : ∀ {v : Value} {ns : List Value}, v.barred? = none →
      ((∀ n ∈ v :: ns, n.barred? = none) ↔ ∀ n ∈ ns, n.barred? = none) := fun hv =>
    List.forall_mem_cons.trans (and_iff_right hv)
  have hall : ∀ {vs : List Value}, (∀ v ∈ vs, v.Plain ↔ ∀ n ∈ v.nodes, n.barred? = none) →
      ((∀ v ∈ vs, v.Plain) ↔ ∀ n ∈ nodesAll vs, n.barred? = none) := fun ih => by
    rw [nodesAll_eq_flatMap, List.forall_mem_flatMap]
    exact forall₂_congr ih
  induction v using Value.ind with
  | bool b => exact ⟨fun _ => List.forall_mem_singleton.2 rfl, fun _ => .bool b⟩
  | int n => exact ⟨fun _ => List.forall_mem_singleton.2 rfl, fun _ => .int n⟩
  | str s => exact ⟨fun _ => List.forall_mem_singleton.2 rfl, fun _ => .str s⟩
  | vector vs ih => rw [plain_vector, nodes, hcons rfl, hall ih]
  | set vs ih => rw [plain_set, nodes, hcons rfl, hall ih]
  | map es ih =>
    rw [plain_map, nodes, hcons rfl, nodesOfEntries_eq_flatMap, List.forall_mem_flatMap]
    refine forall₂_congr fun e he => ?_
    rw [List.forall_mem_append]
    exact and_congr (ih e he).1 (ih e he).2
  | fn name arity => exact ⟨nofun, fun hnone => nomatch List.forall_mem_singleton.1 hnone⟩
  | variant d c vs =>
    rw [nodes, List.forall_mem_cons]
    exact ⟨fun | .variant hd _ => hd.elim, fun hnone => nomatch hnone.1⟩

theorem plain_iff_findSome? {v : Value} : v.Plain ↔ v.nodes.findSome? barred? = none :=
  plain_iff.trans List.findSome?_eq_none_iff.symm

theorem Relisted.plain {v w : Value} (h : v.Relisted w) (hv : v.Plain) : w.Plain := by
  induction h with
  | refl v => exact hv
  | trans _ _ ih ih' => exact ih' (ih hv)
  | items hperm =>
    rw [plain_set] at hv ⊢
    exact fun w hw => hv w (hperm.mem_iff.2 hw)
  | entries before after _ =>
    simp only [plain_map, List.forall_mem_append, List.forall_mem_cons] at hv ⊢
    exact ⟨hv.1, hv.2.2.1, hv.2.1, hv.2.2.2⟩
  | inVector before after _ ih =>
    simp only [plain_vector, List.forall_mem_append, List.forall_mem_cons] at hv ⊢
    exact ⟨hv.1, ih hv.2.1, hv.2.2⟩
  | inSet before after _ ih =>
    simp only [plain_set, List.forall_mem_append, List.forall_mem_cons] at hv ⊢
    exact ⟨hv.1, ih hv.2.1, hv.2.2⟩
  | inKey before after v _ ih =>
    simp only [plain_map, List.forall_mem_append, List.forall_mem_cons] at hv ⊢
    exact ⟨hv.1, ⟨ih hv.2.1.1, hv.2.1.2⟩, hv.2.2⟩
  | inValue before after k _ ih =>
    simp only [plain_map, List.forall_mem_append, List.forall_mem_cons] at hv ⊢
    exact ⟨hv.1, ⟨hv.2.1.1, ih hv.2.1.2⟩, hv.2.2⟩

end Value

namespace Heap

open Value (barred?)

variable {h : Heap}

/-! ## Sorted lists of objects -/

theorem values_sortItems {items : List Addr} {vs : List Value} (hvs : h.Values items vs)
    (hplain : ∀ v ∈ vs, v.Plain) : h.Values (h.sortItems items) (sortBy id vs) := by
  simp only [sortItems, insertItem_eq_insertBy]
  rw [← foldl_insertBy]
  refine (forall₂_foldl_insertBy (forall₂_and_of_forall_mem hvs hplain) ?_).imp fun _ _ => And.left
  exact fun x u y v hx hy => compare_eq_compare hx.1 hy.1 hx.2

theorem entryValues_sortEntries {entries : List (Addr × Addr)} {ps : List (Value × Value)}
    (hps : h.EntryValues entries ps) (hplain : ∀ p ∈ ps, p.1.Plain) :
    h.EntryValues (h.sortEntries entries) (sortBy Prod.fst ps) := by
  simp only [sortEntries, insertEntry_eq_insertBy]
  rw [← foldl_insertBy]
  refine (forall₂_foldl_insertBy (forall₂_and_of_forall_mem hps hplain) ?_).imp fun _ _ => And.left
  exact fun e p e' p' he he' => compare_eq_compare he.1.1 he'.1.1 he.2

/-! ## How putting values on the heap ends -/

/-- How putting something on the heap ends: with an error that says what is barred, or else with a
result that the heap shows. -/
def Encode.Ends (r : Except Fault α × Heap) (barred : Option String) (Shows : Heap → α → Prop) :
    Prop :=
  match barred with
  | some kind => r.1 = .error (.notEncodable kind)
  | none => ∃ a, r.1 = .ok a ∧ Shows r.2 a

theorem Encode.Ends.bind {act : Encode α} {k : α → Encode β} {barred barred' : Option String}
    {Shows : Heap → α → Prop} {Shows' : Heap → β → Prop} (hact : Ends (act h) barred Shows)
    (hk : ∀ a, barred = none → Shows (act h).2 a → Ends (k a (act h).2) barred' Shows') :
    Ends ((act >>= k) h) (barred.or barred') Shows' := by
  have hbind : (act >>= k) h = ExceptT.bindCont k (act h).1 (act h).2 := rfl
  rw [hbind]
  cases barred with
  | some kind =>
    have herror : (act h).1 = .error (.notEncodable kind) := hact
    rw [herror]
    rfl
  | none =>
    obtain ⟨a, ha, hshows⟩ := hact
    rw [ha]
    exact hk a rfl hshows

theorem Encode.Ends.andThen {act : Encode α} {k : α → Encode β} {barred : Option String}
    {Shows : Heap → α → Prop} {Shows' : Heap → β → Prop} (hact : Ends (act h) barred Shows)
    (hk : ∀ a, barred = none → Shows (act h).2 a →
      ∃ b, (k a (act h).2).1 = .ok b ∧ Shows' (k a (act h).2).2 b) :
    Ends ((act >>= k) h) barred Shows' := by
  rw [← Option.or_none (o := barred)]
  exact hact.bind hk

theorem Standard.decode_boolAddr (hh : h.Standard) (b : Bool) :
    h.decode (boolAddr b) = .ok (.bool b) := by
  cases b with
  | true => exact decode_of_get? (get?_eq_some.2 ⟨_, hh.slot?_true, rfl⟩) (.bool true)
  | false => exact decode_of_get? (get?_eq_some.2 ⟨_, hh.slot?_false, rfl⟩) (.bool false)

theorem get?_encodeObject (o : Object) (h : Heap) : (h.alloc o).2.get? (h.alloc o).1 = some o :=
  h.get?_push_self ⟨false, o⟩

mutual

/-- **A value is put on the heap in its canonical form**, unless there is a barred node. The first
one of these is reported. -/
theorem ends_encode {h : Heap} (hh : h.Standard) (v : Value) :
    Encode.Ends (encode v h) (v.nodes.findSome? barred?) fun h' a =>
      h'.decode a = .ok v.canonical := by
  match v with
  | .bool b => exact ⟨_, rfl, hh.decode_boolAddr b⟩
  | .int n => exact ⟨_, rfl, decode_of_get? (get?_encodeObject _ h) (.int n)⟩
  | .str s => exact ⟨_, rfl, decode_of_get? (get?_encodeObject _ h) (.str s)⟩
  | .vector vs =>
    refine (ends_encodeAll hh vs).andThen fun items _ hitems => ?_
    exact ⟨_, rfl, decode_vector (get?_encodeObject _ _) (hitems.of_le (le_alloc ..))⟩
  | .set vs =>
    refine (ends_encodeAll hh vs).andThen fun items hnone hitems => ?_
    -- objects are sorted as their values are because these are plain
    have hplain : ∀ v ∈ Value.canonicalAll vs, v.Plain := by
      rw [Value.canonicalAll_eq_map]
      exact List.forall_mem_map.2 fun v hv =>
        (Value.plain_set.1 (Value.plain_iff_findSome?.2 hnone) v hv).canonical
    have hsorted := values_sortItems hitems hplain
    exact ⟨_, rfl, decode_set (get?_encodeObject _ _) (hsorted.of_le (le_alloc ..))⟩
  | .map es =>
    refine (ends_encodeEntries hh es).andThen fun entries hnone hentries => ?_
    have hplain : ∀ e ∈ Value.canonicalEntries es, e.1.Plain := by
      rw [Value.canonicalEntries_eq_map]
      exact List.forall_mem_map.2 fun e he =>
        (Value.plain_map.1 (Value.plain_iff_findSome?.2 hnone) e he).1.canonical
    have hsorted := entryValues_sortEntries hentries hplain
    exact ⟨_, rfl, decode_map (get?_encodeObject _ _) (hsorted.of_le (le_alloc ..))⟩
  | .fn _ _ => exact rfl
  | .variant _ _ _ => exact rfl

theorem ends_encodeAll {h : Heap} (hh : h.Standard) (vs : List Value) :
    Encode.Ends (encodeAll vs h) ((Value.nodesAll vs).findSome? barred?) fun h' items =>
      h'.Values items (Value.canonicalAll vs) := by
  match vs with
  | [] => exact ⟨[], rfl, .nil⟩
  | v :: vs =>
    have hle := leads_encode (R := LE.le) v h
    rw [Value.nodesAll, List.findSome?_append]
    refine (ends_encode hh v).bind fun a _ ha => ?_
    refine (ends_encodeAll (hh.of_le hle) vs).andThen fun items _ hitems => ?_
    exact ⟨_, rfl, .cons (decode_of_le (leads_encodeAll vs _) ha) hitems⟩

theorem ends_encodeEntries {h : Heap} (hh : h.Standard) (es : List (Value × Value)) :
    Encode.Ends (encodeEntries es h) ((Value.nodesOfEntries es).findSome? barred?) fun h' entries =>
      h'.EntryValues entries (Value.canonicalEntries es) := by
  match es with
  | [] => exact ⟨[], rfl, .nil⟩
  | (k, v) :: es =>
    have hk := leads_encode (R := LE.le) k h
    have hv := leads_encode (R := LE.le) v (encode k h).2
    rw [Value.nodesOfEntries, List.findSome?_append, List.findSome?_append, Option.or_assoc]
    refine (ends_encode hh k).bind fun a _ ha => ?_
    refine (ends_encode (hh.of_le hk) v).bind fun b _ hb => ?_
    refine (ends_encodeEntries (hh.of_le (hk.trans hv)) es).andThen fun entries _ hentries => ?_
    have hes := leads_encodeEntries (R := LE.le) es (encode v (encode k h).2).2
    exact ⟨_, rfl, .cons ⟨decode_of_le (hv.trans hes) ha, decode_of_le hes hb⟩ hentries⟩

end

/-! ## Reading values again -/

variable {v w : Value}

/-- Putting a value on the heap fails exactly if there is a barred node, and reports the first. -/
theorem encode_eq_error_iff (hh : h.Standard) (v : Value) (f : Fault) :
    (encode v h).1 = .error f ↔
      ∃ kind, v.nodes.findSome? barred? = some kind ∧ f = .notEncodable kind := by
  have hends := ends_encode hh v
  cases hkind : v.nodes.findSome? barred? with
  | some kind =>
    rw [hkind] at hends
    have herror : (encode v h).1 = .error (.notEncodable kind) := hends
    rw [herror, Except.error.injEq]
    exact ⟨fun hf => ⟨kind, rfl, hf.symm⟩, fun ⟨_, hsome, hf⟩ => by cases hsome; exact hf.symm⟩
  | none =>
    rw [hkind] at hends
    obtain ⟨a, ha, -⟩ := hends
    rw [ha]
    exact ⟨nofun, nofun⟩

/-- Whether a value that is put on a heap reads as another one. -/
def Returns (h : Heap) (v w : Value) : Prop :=
  ∃ a, (encode v h).1 = .ok a ∧ (encode v h).2.decode a = .ok w

theorem Returns.eq {w' : Value} (hw : h.Returns v w) (hw' : h.Returns v w') : w = w' := by
  obtain ⟨a, ha, hw⟩ := hw
  obtain ⟨a', ha', hw'⟩ := hw'
  obtain rfl : a = a' := Except.ok.inj (ha.symm.trans ha')
  exact Except.ok.inj (hw.symm.trans hw')

/-- **A plain value that is put on the heap reads as its canonical form.** -/
theorem returns_canonical (hh : h.Standard) (hv : v.Plain) : h.Returns v v.canonical := by
  have hends := ends_encode hh v
  rw [Value.plain_iff_findSome?.1 hv] at hends
  exact hends

/-- **Reading a value that was put on the heap gives its canonical form.** Putting it there fails
exactly if one of its nodes is barred, and then the first such node is reported. Otherwise the value
reads as its canonical form; so it reads as it was exactly if it is canonical, and each relisting
reads the same. -/
theorem decode_encode_eq_canonical (hh : h.Standard) (v : Value) :
    (∀ f, (encode v h).1 = .error f ↔
      ∃ kind, v.nodes.findSome? barred? = some kind ∧ f = .notEncodable kind) ∧
    ((∀ n ∈ v.nodes, n.barred? = none) →
      h.Returns v v.canonical ∧ (h.Returns v v ↔ v.IsCanonical) ∧
      ∀ w, v.Relisted w → h.Returns w v.canonical) := by
  refine ⟨encode_eq_error_iff hh v, fun hnone => ?_⟩
  have hplain : v.Plain := Value.plain_iff.2 hnone
  have hreturns := returns_canonical hh hplain
  refine ⟨hreturns, ?_, fun w hw => ?_⟩
  · rw [← Value.canonical_eq_self_iff]
    refine ⟨fun hself => hreturns.eq hself, fun heq => ?_⟩
    rw [heq] at hreturns
    exact hreturns
  · rw [hw.canonical_eq]
    exact returns_canonical hh (hw.plain hplain)

/-- A map with an item twice in a set, entries out of order, and two entries of one key. -/
def shuffled : Value :=
  .map [(.set [.int 2, .int 1], .bool true), (.str "a", .int 7),
    (.set [.int 1, .int 2, .int 1], .bool false)]

/-- The same map with other orders. -/
def reshuffled : Value :=
  .map [(.str "a", .int 7), (.set [.int 2, .int 1], .bool true),
    (.set [.int 1, .int 1, .int 2], .bool false)]

/-- The canonical form of both. -/
def unshuffled : Value := .map [(.str "a", .int 7), (.set [.int 1, .int 2], .bool false)]

theorem canonical_shuffled : shuffled.canonical = unshuffled := by
  simp only [shuffled, Value.canonical, Value.canonicalEntries, Value.canonicalAll,
    ← foldl_insertBy]
  rfl

theorem relisted_shuffled : shuffled.Relisted reshuffled := by
  have hkeys : (Value.set [.int 2, .int 1]).canonical ≠ (Value.str "a").canonical := nofun
  refine (Value.Relisted.entries [] _ hkeys).trans ?_
  exact .inKey [_, _] [] _ (.items (.cons _ (.swap _ _ _)))

/-- The map reads as its canonical form, in either order; and of the two barred nodes in a value the
key is reported. -/
theorem decode_encode_eq_canonical_shuffled :
    Heap.empty.Standard ∧ (∀ n ∈ shuffled.nodes, n.barred? = none) ∧
    Heap.empty.Returns shuffled unshuffled ∧ ¬Heap.empty.Returns shuffled shuffled ∧
    shuffled.Relisted reshuffled ∧ Heap.empty.Returns reshuffled unshuffled ∧
    (encode (.vector [shuffled, .map [(.fn "f" 1, .variant "user/T" "A" [])]]) .empty).1 =
      .error (.notEncodable "function") := by
  have hempty : Heap.empty.Standard := ⟨rfl, rfl, rfl⟩
  have hnone : ∀ n ∈ shuffled.nodes, n.barred? = none := by decide
  obtain ⟨hreturns, -, hrelisted⟩ := (decode_encode_eq_canonical hempty shuffled).2 hnone
  rw [canonical_shuffled] at hreturns hrelisted
  have hnot : ¬Heap.empty.Returns shuffled shuffled := fun hs =>
    absurd (hreturns.eq hs) (by decide)
  refine ⟨hempty, hnone, hreturns, hnot, relisted_shuffled, hrelisted _ relisted_shuffled, ?_⟩
  exact ((decode_encode_eq_canonical hempty _).1 _).2 ⟨"function", rfl, rfl⟩

end Heap

end TypedLisp
