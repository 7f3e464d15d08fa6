import Mathlib.Order.WellFounded
import Mathlib.Tactic.IntervalCases
import TypedLisp.Proofs.Heap.Collection
import TypedLisp.Proofs.Heap.ObjectOrder
import TypedLisp.Proofs.Monads

/-!
# Objects that are found in two heaps

Two heaps can hold the same objects at different addresses, beside other objects. A `Matching` says
where the objects of the first heap are in the second one, in the same order, and which functions of
the second heap stand for those of the first. An address is found in both heaps if its object is,
and all that the object leads to (`Matching.Found`). Then both heaps order such objects in the same
way and have the same values for them.
-/

namespace TypedLisp

/-- The addresses of what an object is compared by. A function is compared by its own address. -/
def Object.parts : Object → List Addr
  | .fn _ => []
  | o => o.children

theorem Object.parts_subset_children (o : Object) : o.parts ⊆ o.children := by
  cases o <;> simp [parts]

theorem Object.mem_parts_of_mem_groups {o : Object} {g : List Addr} {c : Addr} (hg : g ∈ o.groups)
    (hc : c ∈ g) : c ∈ o.parts := by
  cases o <;> simp_all [groups, parts, children] <;> grind

/-- How objects of one heap are found in another one. -/
structure Matching where
  addr : Addr → Addr
  addr_mono : StrictMono addr
  /-- The single objects are where they always are. -/
  addr_single : ∀ a ≤ faultAddr, addr a = a
  /-- Which function stands for the one at an address. -/
  fn : Addr → FnObject → FnObject → Prop
  name_eq : ∀ {a : Addr} {f f' : FnObject}, fn a f f' → f'.name = f.name
  arity_eq : ∀ {a : Addr} {f f' : FnObject}, fn a f f' → f'.arity = f.arity

namespace Matching

variable (μ : Matching) {h h' k k' : Heap} {a b : Addr} {o o' : Object}
variable {items roots : List Addr} {entries : List (Addr × Addr)}

theorem le_addr (a : Addr) : a ≤ μ.addr a := μ.addr_mono.le_apply

theorem addr_injective : Function.Injective μ.addr := μ.addr_mono.injective

@[simp]
theorem addr_faultAddr : μ.addr faultAddr = faultAddr := μ.addr_single _ (Nat.le_refl _)

@[simp]
theorem addr_trueAddr : μ.addr trueAddr = trueAddr := μ.addr_single _ (Nat.zero_le _)

@[simp]
theorem addr_boolAddr (b : Bool) : μ.addr (boolAddr b) = boolAddr b := by
  cases b <;> exact μ.addr_single _ (by decide)

theorem compare_addr (a b : Addr) : compare (μ.addr a) (μ.addr b) = compare a b := by
  rcases Nat.lt_trichotomy a b with hlt | rfl | hlt
  · rw [Nat.compare_eq_lt.2 hlt, Nat.compare_eq_lt.2 (μ.addr_mono hlt)]
  · rw [Nat.compare_eq_eq.2 rfl, Nat.compare_eq_eq.2 rfl]
  · rw [Nat.compare_eq_gt.2 hlt, Nat.compare_eq_gt.2 (μ.addr_mono hlt)]

/-- Whether one object is another one, at an address of the first heap, with its references
moved. -/
inductive Objects (a : Addr) : Object → Object → Prop where
  | bool (b : Bool) : Objects a (.bool b) (.bool b)
  | int (n : Int64) : Objects a (.int n) (.int n)
  | str (s : String) : Objects a (.str s) (.str s)
  | vector (items : List Addr) : Objects a (.vector items) (.vector (items.map μ.addr))
  | set (items : List Addr) : Objects a (.set items) (.set (items.map μ.addr))
  | map (entries : List (Addr × Addr)) :
      Objects a (.map entries) (.map (entries.map fun e => (μ.addr e.1, μ.addr e.2)))
  | fn {f f' : FnObject} (h : μ.fn a f f') : Objects a (.fn f) (.fn f')
  | variant (l : Layout) (fields : List (Option Addr)) :
      Objects a (.variant l fields) (.variant l (fields.map (Option.map μ.addr)))
  | fault : Objects a .fault .fault

/-- Every object is where it was. -/
def unmoved : Matching where
  addr := id
  addr_mono := strictMono_id
  addr_single _ _ := rfl
  fn _ f f' := f' = f
  name_eq := congrArg FnObject.name
  arity_eq := congrArg FnObject.arity

theorem Objects.refl (a : Addr) (o : Object) : unmoved.Objects a o o := by
  cases o with
  | bool | int | str | fault => constructor
  | vector items => simpa [unmoved] using Objects.vector (μ := unmoved) (a := a) items
  | set items => simpa [unmoved] using Objects.set (μ := unmoved) (a := a) items
  | map entries => simpa [unmoved] using Objects.map (μ := unmoved) (a := a) entries
  | fn f => exact .fn rfl
  | variant l fields => simpa [unmoved] using Objects.variant (μ := unmoved) (a := a) l fields

/-- Whether an object and all that it leads to are in two heaps. An object leads only to objects
that were made before it. -/
inductive Found (h h' : Heap) : Addr → Prop where
  | intro {a : Addr} {o o' : Object} (ha : h.get? a = some o) (ha' : h'.get? (μ.addr a) = some o')
      (ho : μ.Objects a o o') (hlt : ∀ c ∈ o.children, c < a)
      (hchildren : ∀ c ∈ o.children, Found h h' c) : Found h h' a

variable {μ} {d d' : Nat}

namespace Found

theorem of_le (ha : μ.Found h h' a) (hle : h ≤ k) (hle' : h' ≤ k') : μ.Found k k' a := by
  induction ha with
  | intro ha ha' ho hlt _ ih =>
    exact .intro (Heap.get?_of_le hle ha) (Heap.get?_of_le hle' ha') ho hlt ih

theorem lt_size (ha : μ.Found h h' a) : a < h.slots.size := by
  cases ha with
  | intro ha =>
    obtain ⟨e, he, -⟩ := Heap.get?_eq_some.1 ha
    exact Heap.lt_size_of_slot? he

theorem addr_lt_size (ha : μ.Found h h' a) : μ.addr a < h'.slots.size := by
  cases ha with
  | intro _ ha' =>
    obtain ⟨e, he, -⟩ := Heap.get?_eq_some.1 ha'
    exact Heap.lt_size_of_slot? he

theorem lt_size_right (ha : μ.Found h h' a) : a < h'.slots.size :=
  Nat.lt_of_le_of_lt (μ.le_addr a) ha.addr_lt_size

theorem objects (ha : μ.Found h h' a) : μ.Objects a (h.object a) (h'.object (μ.addr a)) := by
  cases ha with
  | intro ha ha' ho => rwa [Heap.object_of_get? ha, Heap.object_of_get? ha']

theorem child {c : Addr} (ha : μ.Found h h' a) (hc : c ∈ (h.object a).children) :
    c < a ∧ μ.Found h h' c := by
  cases ha with
  | intro ha _ _ hlt hchildren =>
    rw [Heap.object_of_get? ha] at hc
    exact ⟨hlt c hc, hchildren c hc⟩

end Found

/-! ## The order of objects -/

theorem Objects.compare_label {p p' : Object} (ho : μ.Objects a o o') (hp : μ.Objects b p p') :
    (o'.label (μ.addr a)).compare (p'.label (μ.addr b)) = (o.label a).compare (p.label b) := by
  have hfn : ({ kind := 6, arity := μ.addr a } : Label).compare { kind := 6, arity := μ.addr b } =
      ({ kind := 6, arity := a } : Label).compare { kind := 6, arity := b } := by
    simp only [Label.compare_eq, μ.compare_addr]
  cases ho <;> cases hp <;> first | rfl | exact hfn

theorem Objects.groups_eq (ho : μ.Objects a o o') : o'.groups = o.groups.map (List.map μ.addr) := by
  cases ho with
  | variant l fields => simp [Object.groups, Option.toList_map]
  | _ => simp [Object.groups]

theorem Found.forall₂_groups {Q : Addr → Addr → Prop} (ha : μ.Found h h' a)
    (hQ : ∀ c ∈ (h.object a).children, Q c (μ.addr c)) :
    List.Forall₂ (List.Forall₂ Q) (h.object a).groups (h'.object (μ.addr a)).groups := by
  rw [ha.objects.groups_eq]
  simp only [List.forall₂_map_right_iff, List.forall₂_same]
  exact fun g hg c hc =>
    hQ c (Object.parts_subset_children _ (Object.mem_parts_of_mem_groups hg hc))

theorem Found.compareTo_eq (ha : μ.Found h h' a) (hb : μ.Found h h' b) {d : Nat} (hd : a < d) :
    h.compareTo (a + 1) a b = h'.compareTo d (μ.addr a) (μ.addr b) := by
  rw [Heap.compareTo_eq, Heap.compareTo_eq]
  refine Branching.compareTo_rel .eq (R := fun n x u => u = μ.addr x ∧ x < n ∧ μ.Found h h' x)
    (Q := fun _ x u => u = μ.addr x ∧ μ.Found h h' x) ?_ ?_ ?_ ?_ hd ⟨rfl, Nat.lt_succ_self a, ha⟩
    ⟨rfl, hb⟩
  · exact fun x u hx => Nat.not_lt_zero x hx.2.1
  · rintro n x _ y _ ⟨rfl, -, hx⟩ ⟨rfl, hy⟩
    exact (hx.objects.compare_label hy.objects).symm
  · rintro n x _ ⟨rfl, hlt, hx⟩
    refine hx.forall₂_groups fun c hc => ⟨rfl, ?_, (hx.child hc).2⟩
    exact Nat.lt_of_lt_of_le (hx.child hc).1 (Nat.le_of_lt_succ hlt)
  · rintro n x _ ⟨rfl, hx⟩
    exact hx.forall₂_groups fun c hc => ⟨rfl, (hx.child hc).2⟩

theorem Found.left (ha : μ.Found h h' a) : unmoved.Found h h a := by
  induction ha with
  | intro ha _ _ hlt _ ih => exact .intro ha ha (.refl _ _) hlt ih

/-- **Both heaps order what is found in them in the same way.** -/
theorem Found.compare_eq (ha : μ.Found h h' a) (hb : μ.Found h h' b) :
    h'.compare (μ.addr a) (μ.addr b) = h.compare a b :=
  (ha.compareTo_eq hb (Nat.lt_succ_of_lt ha.lt_size_right)).symm.trans
    (ha.left.compareTo_eq hb.left (Nat.lt_succ_of_lt ha.lt_size))

theorem insertItem_map {x : Addr} (hx : μ.Found h h' x) (hitems : ∀ i ∈ items, μ.Found h h' i) :
    (∀ i ∈ insertItem h.compare x items, μ.Found h h' i) ∧
      (insertItem h.compare x items).map μ.addr =
        insertItem h'.compare (μ.addr x) (items.map μ.addr) := by
  rw [insertItem_eq_insertBy, insertItem_eq_insertBy]
  exact insertBy_map hx hitems fun y hy => hx.compare_eq hy

variable (μ) in
/-- An entry with its addresses moved. -/
abbrev entry (e : Addr × Addr) : Addr × Addr := (μ.addr e.1, μ.addr e.2)

theorem insertEntry_map {x v : Addr} (hx : μ.Found h h' x) (hv : μ.Found h h' v)
    (hentries : ∀ e ∈ entries, μ.Found h h' e.1 ∧ μ.Found h h' e.2) :
    (∀ e ∈ insertEntry h.compare x v entries, μ.Found h h' e.1 ∧ μ.Found h h' e.2) ∧
      (insertEntry h.compare x v entries).map μ.entry =
        insertEntry h'.compare (μ.addr x) (μ.addr v) (entries.map μ.entry) := by
  rw [insertEntry_eq_insertBy, insertEntry_eq_insertBy]
  exact insertBy_map (x := (x, v)) ⟨hx, hv⟩ hentries fun e he => hx.compare_eq he.1

/-! ## Values -/

theorem mapM_eq_of_mem {ε α β γ : Type} {f : α → Except ε γ} {g : β → Except ε γ} {r : α → β}
    {l : List α} (h : ∀ a ∈ l, g (r a) = f a) : (l.map r).mapM g = l.mapM f := by
  induction l with
  | nil => rfl
  | cons a l ih =>
    obtain ⟨ha, hl⟩ := List.forall_mem_cons.1 h
    rw [List.map_cons, List.mapM_cons, List.mapM_cons, ha, ih hl]

theorem decodeTo_succ_eq (ho : μ.Objects a (h.object a) (h'.object (μ.addr a)))
    (hchild : ∀ c ∈ (h.object a).children, h'.decodeTo d' (μ.addr c) = h.decodeTo d c) :
    h'.decodeTo (d' + 1) (μ.addr a) = h.decodeTo (d + 1) a := by
  rw [Heap.decodeTo, Heap.decodeTo]
  generalize h.object a = o at hchild ho
  generalize h'.object (μ.addr a) = o' at ho
  cases ho with
  | bool | int | str | fault => rfl
  | vector items =>
    have hitems : (items.map μ.addr).mapM (h'.decodeTo d') = items.mapM (h.decodeTo d) :=
      mapM_eq_of_mem hchild
    simp only [hitems]
  | set items =>
    have hitems : (items.map μ.addr).mapM (h'.decodeTo d') = items.mapM (h.decodeTo d) :=
      mapM_eq_of_mem hchild
    simp only [hitems]
  | map entries =>
    simp only
    rw [mapM_eq_of_mem (f := fun e => do return (← h.decodeTo d e.1, ← h.decodeTo d e.2))]
    intro e he
    obtain ⟨hk, hv⟩ := Object.forall_mem_children_map.1 hchild e he
    rw [hk, hv]
  | fn hf => simp only [μ.name_eq hf, μ.arity_eq hf]
  | variant l fields =>
    simp only
    rw [mapM_eq_of_mem]
    rintro (_ | c) hc
    · rfl
    · exact hchild c (List.mem_filterMap.2 ⟨_, hc, rfl⟩)

theorem Found.decodeTo_eq (ha : μ.Found h h' a) (hd : a < d) (hd' : a < d') :
    h'.decodeTo d' (μ.addr a) = h.decodeTo d a := by
  induction d generalizing a d' with
  | zero => exact absurd hd (Nat.not_lt_zero a)
  | succ d ih =>
    obtain ⟨d', rfl⟩ := Nat.exists_eq_add_one_of_ne_zero (Nat.ne_zero_of_lt hd')
    refine decodeTo_succ_eq ha.objects fun c hc => ?_
    obtain ⟨hlt, hc⟩ := ha.child hc
    exact ih hc (Nat.lt_of_lt_of_le hlt (Nat.le_of_lt_succ hd))
      (Nat.lt_of_lt_of_le hlt (Nat.le_of_lt_succ hd'))

/-- **Both heaps have the same value for what is found in them.** -/
theorem Found.decode_eq (ha : μ.Found h h' a) : h'.decode (μ.addr a) = h.decode a :=
  ha.decodeTo_eq (Nat.lt_succ_of_lt ha.lt_size) (Nat.lt_succ_of_lt ha.lt_size_right)

/-! ## Making objects -/

variable (μ)

/-- Whether objects made next in two heaps are where they are expected, and both heaps have the
single objects. -/
structure Heaps (h h' : Heap) : Prop where
  next : ∀ i, μ.addr (h.slots.size + i) = h'.slots.size + i
  single : Heap.empty ≤ h
  single_right : Heap.empty ≤ h'

variable {μ}

namespace Heaps

theorem found_single (hh : μ.Heaps h h') {e : Entry} (ha : Heap.empty.slot? a = some e)
    (he : μ.Objects a e.object e.object) (hc : e.object.children = []) : μ.Found h h' a := by
  have hlt : a < 3 := Heap.lt_size_of_slot? ha
  have haddr : μ.addr a = a := μ.addr_single a (Nat.le_of_lt_succ hlt)
  refine .intro (Heap.get?_eq_some.2 ⟨e, Heap.slot?_of_le hh.single ha, rfl⟩)
    (Heap.get?_eq_some.2 ⟨e, ?_, rfl⟩) he ?_ ?_
  · rw [haddr]
    exact Heap.slot?_of_le hh.single_right ha
  · simp [hc]
  · simp [hc]

theorem found_boolAddr (hh : μ.Heaps h h') (b : Bool) : μ.Found h h' (boolAddr b) := by
  cases b with
  | false => exact hh.found_single (e := ⟨true, .bool false⟩) rfl (.bool _) rfl
  | true => exact hh.found_single (e := ⟨true, .bool true⟩) rfl (.bool _) rfl

theorem found_faultAddr (hh : μ.Heaps h h') : μ.Found h h' faultAddr :=
  hh.found_single (e := ⟨true, .fault⟩) rfl .fault rfl

theorem addr_push (hh : μ.Heaps h h') (e e' : Entry) :
    μ.addr (h.push e).1 = (h'.push e').1 := hh.next 0

theorem push (hh : μ.Heaps h h') {e e' : Entry} (he : e.Settled) (he' : e'.Settled) :
    μ.Heaps (h.push e).2 (h'.push e').2 where
  next i := by
    have hsize : ∀ (h : Heap) (e : Entry), (h.push e).2.slots.size = h.slots.size + 1 :=
      fun h e => Array.size_push _
    rw [hsize, hsize, Nat.add_assoc, Nat.add_assoc]
    exact hh.next (1 + i)
  single := le_trans hh.single (h.le_push he)
  single_right := le_trans hh.single_right (h'.le_push he')

theorem found_push (hh : μ.Heaps h h') {e e' : Entry} (he : e.Settled) (he' : e'.Settled)
    (ho : μ.Objects h.slots.size e.object e'.object)
    (hc : ∀ c ∈ e.object.children, μ.Found h h' c) :
    μ.Found (h.push e).2 (h'.push e').2 (h.push e).1 := by
  refine .intro (h.get?_push_self e) ?_ ho (fun c hc' => (hc c hc').lt_size)
    fun c hc' => (hc c hc').of_le (h.le_push he) (h'.le_push he')
  rw [hh.addr_push e e']
  exact h'.get?_push_self e'

end Heaps

/-! ## Collection -/

theorem size_collect (h : Heap) (roots : List Addr) :
    (h.collect roots).2.slots.size = h.slots.size := Array.size_mapIdx

theorem empty_le_collect (hh : Heap.empty ≤ h) (roots : List Addr) :
    Heap.empty ≤ (h.collect roots).2 := by
  refine ⟨by rw [size_collect]; exact hh.1, fun a e ha => ?_, fun a o ha => ?_⟩
  · have hpinned : e.pinned = true := by
      have hlt : a < 3 := Heap.lt_size_of_slot? ha
      interval_cases a <;> cases ha <;> rfl
    obtain ⟨_, o⟩ := e
    obtain rfl : _ = true := hpinned
    have ha' := Heap.slot?_of_le hh ha
    rw [(Heap.Reached.of_pinned ha').slot?_collect]
    exact ha'
  · exact hh.2.2 a o (Heap.slot?_of_collect ha)

theorem Heaps.collect (hh : μ.Heaps h h') (roots : List Addr) :
    μ.Heaps (h.collect roots).2 h' where
  next i := by rw [size_collect]; exact hh.next i
  single := empty_le_collect hh.single roots
  single_right := hh.single_right

theorem Heaps.collect_right (hh : μ.Heaps h h') (roots : List Addr) :
    μ.Heaps h (h'.collect roots).2 where
  next i := by rw [size_collect]; exact hh.next i
  single := hh.single
  single_right := empty_le_collect hh.single_right roots

theorem Found.collect (ha : μ.Found h h' a) (hroot : h.Reached roots a) :
    μ.Found (h.collect roots).2 h' a := by
  induction ha with
  | intro ha ha' ho hlt hchildren ih =>
    refine .intro (hroot.get?_collect.trans ha) ha' ho hlt fun c hc => ih c hc ?_
    exact hroot.child (by rwa [Heap.object_of_get? ha]) (hchildren c hc).lt_size

variable (μ)

/-- Whether functions that stand for one another captured the same objects. -/
def SameCaptures : Prop :=
  ∀ {a : Addr} {f f' : FnObject}, μ.fn a f f' → f'.captures = f.captures.map (Option.map μ.addr)

variable {μ}

theorem filterMap_map_addr (l : List (Option Addr)) :
    (l.map (Option.map μ.addr)).filterMap id = (l.filterMap id).map μ.addr := by
  rw [List.filterMap_map, List.map_filterMap]
  rfl

theorem Objects.children_eq (hμ : μ.SameCaptures) (ho : μ.Objects a o o') :
    o'.children = o.children.map μ.addr := by
  cases ho with
  | bool | int | str | fault | vector | set => rfl
  | map entries => simp [Object.children, List.flatMap_map, List.map_flatMap]
  | fn hf =>
    show List.filterMap id _ = _
    rw [hμ hf, filterMap_map_addr]
    rfl
  | variant l fields => exact filterMap_map_addr fields

theorem Found.collect_right (hμ : μ.SameCaptures) (ha : μ.Found h h' a)
    (hroot : h'.Reached roots (μ.addr a)) : μ.Found h (h'.collect roots).2 a := by
  induction ha with
  | intro ha ha' ho hlt hchildren ih =>
    refine .intro ha (hroot.get?_collect.trans ha') ho hlt fun c hc => ih c hc ?_
    refine hroot.child ?_ (hchildren c hc).addr_lt_size
    rw [Heap.object_of_get? ha', ho.children_eq hμ]
    exact List.mem_map_of_mem hc

/-! ## Values from outside -/

theorem sortItems_map (hitems : ∀ i ∈ items, μ.Found h h' i) :
    (∀ i ∈ h.sortItems items, μ.Found h h' i) ∧
      (h.sortItems items).map μ.addr = h'.sortItems (items.map μ.addr) := by
  simp only [Heap.sortItems, insertItem_eq_insertBy]
  exact foldl_insertBy_map hitems fun x y hx hy => hx.compare_eq hy

theorem sortEntries_map (hentries : ∀ e ∈ entries, μ.Found h h' e.1 ∧ μ.Found h h' e.2) :
    (∀ e ∈ h.sortEntries entries, μ.Found h h' e.1 ∧ μ.Found h h' e.2) ∧
      (h.sortEntries entries).map μ.entry = h'.sortEntries (entries.map μ.entry) := by
  simp only [Heap.sortEntries, insertEntry_eq_insertBy]
  exact foldl_insertBy_map hentries fun e e' he he' => he.1.compare_eq he'.1

end Matching

/-- Whether two computations both succeed, with results as wanted, or both fail with one error. -/
inductive SameEnd {ε ε' α β : Type} (err : ε → ε') (Q : α → β → Prop) :
    Except ε α → Except ε' β → Prop where
  | ok {x : α} {y : β} (h : Q x y) : SameEnd err Q (.ok x) (.ok y)
  | error (e : ε) : SameEnd err Q (.error e) (.error (err e))

/-- Whether two computations that may fail lead from two states to related ones, where what is seen
of the states has grown, and end in the same way. -/
structure Lockstep {σ τ κ κ' ε ε' α β : Type} [Preorder κ] [Preorder κ'] (R : σ → τ → Prop)
    (view : σ → κ) (view' : τ → κ') (err : ε → ε') (act : ExceptT ε (StateM σ) α)
    (act' : ExceptT ε' (StateM τ) β) (s : σ) (s' : τ) (Q : κ → κ' → α → β → Prop) : Prop where
  related : R (act s).2 (act' s').2
  le : view s ≤ view (act s).2
  le_right : view' s' ≤ view' (act' s').2
  result : SameEnd err (Q (view (act s).2) (view' (act' s').2)) (act s).1 (act' s').1

namespace Lockstep

variable {σ τ κ κ' ε ε' α β γ δ : Type} [Preorder κ] [Preorder κ'] {R : σ → τ → Prop} {view : σ → κ}
  {view' : τ → κ'} {err : ε → ε'} {s : σ} {s' : τ} {Q : κ → κ' → α → β → Prop}
  {Q' : κ → κ' → γ → δ → Prop}

theorem pure (hs : R s s') {x : α} {y : β} (h : Q (view s) (view' s') x y) :
    Lockstep R view view' err (Pure.pure x) (Pure.pure y) s s' Q :=
  ⟨hs, le_refl _, le_refl _, .ok h⟩

theorem throw (hs : R s s') (e : ε) : Lockstep R view view' err
    (MonadExcept.throw e : ExceptT ε (StateM σ) α) (MonadExcept.throw (err e)) s s' Q :=
  ⟨hs, le_refl _, le_refl _, .error e⟩

theorem of_eq {act : ExceptT ε (StateM σ) α} {act' : ExceptT ε' (StateM τ) β} {t : σ} {t' : τ}
    {r : Except ε α} {r' : Except ε' β} (h : act s = (r, t)) (h' : act' s' = (r', t'))
    (hrel : R t t') (hle : view s ≤ view t) (hle' : view' s' ≤ view' t')
    (hresult : SameEnd err (Q (view t) (view' t')) r r') :
    Lockstep R view view' err act act' s s' Q := by
  constructor
  · rwa [h, h']
  · rwa [h]
  · rwa [h']
  · rwa [h, h']

theorem get_bind {k : σ → ExceptT ε (StateM σ) α} {k' : τ → ExceptT ε' (StateM τ) β}
    (h : Lockstep R view view' err (k s) (k' s') s s' Q) :
    Lockstep R view view' err (get >>= k) (get >>= k') s s' Q := by
  obtain ⟨hrel, hle, hle', hresult⟩ := h
  exact ⟨hrel, hle, hle', hresult⟩

theorem bind {act : ExceptT ε (StateM σ) α} {act' : ExceptT ε' (StateM τ) β}
    {k : α → ExceptT ε (StateM σ) γ} {k' : β → ExceptT ε' (StateM τ) δ}
    (h : Lockstep R view view' err act act' s s' Q)
    (hk : ∀ t t' x y, R t t' → view s ≤ view t → view' s' ≤ view' t' → Q (view t) (view' t') x y →
      Lockstep R view view' err (k x) (k' y) t t' Q') :
    Lockstep R view view' err (act >>= k) (act' >>= k') s s' Q' := by
  obtain ⟨hrel, hle, hle', hresult⟩ := h
  cases hact : act s with
  | mk r t =>
    cases hact' : act' s' with
    | mk r' t' =>
      rw [hact, hact'] at hrel hresult
      rw [hact] at hle
      rw [hact'] at hle'
      cases hresult with
      | error e => exact of_eq (bind_error hact) (bind_error hact') hrel hle hle' (.error e)
      | @ok x y hxy =>
        obtain ⟨hrel', hle₁, hle₁', hresult'⟩ := hk t t' x y hrel hle hle' hxy
        exact of_eq (bind_ok hact) (bind_ok hact') hrel' (le_trans hle hle₁) (le_trans hle' hle₁')
          hresult'

theorem mapM {f : γ → ExceptT ε (StateM σ) α} {f' : δ → ExceptT ε' (StateM τ) β} {r : γ → δ}
    {q : α → β} {l : List γ}
    (h : ∀ a ∈ l, ∀ {s s'}, R s s' →
      Lockstep R view view' err (f a) (f' (r a)) s s' fun _ _ b b' => b' = q b)
    (hs : R s s') :
    Lockstep R view view' err (l.mapM f) ((l.map r).mapM f') s s'
      fun _ _ bs bs' => bs' = bs.map q := by
  induction l generalizing s s' with
  | nil => exact .pure hs rfl
  | cons a l ih =>
    obtain ⟨ha, hl⟩ := List.forall_mem_cons.1 h
    rw [List.map_cons, List.mapM_cons, List.mapM_cons]
    refine (ha hs).bind fun t t' b _ ht _ _ hb => ?_
    refine (ih hl ht).bind fun t t' bs _ ht _ _ hbs => .pure ht ?_
    rw [hb, hbs]
    rfl

end Lockstep

namespace Matching

open Heap

variable {μ : Matching} {h h' : Heap}

variable (μ) in
/-- Whether putting something on each of two heaps keeps them in step. -/
abbrev Puts {α β : Type} (act : Encode α) (act' : Encode β) (h h' : Heap)
    (Q : Heap → Heap → α → β → Prop) : Prop :=
  Lockstep μ.Heaps id id id act act' h h' Q

variable (μ) in
/-- Whether two lists of addresses are those of the same objects, found in two heaps. -/
def Addresses (h h' : Heap) (as as' : List Addr) : Prop :=
  as' = as.map μ.addr ∧ ∀ a ∈ as, μ.Found h h' a

variable (μ) in
/-- Whether two addresses are those of one object, found in two heaps. -/
def Address (h h' : Heap) (a a' : Addr) : Prop := a' = μ.addr a ∧ μ.Found h h' a

theorem puts_encodeObject (hh : μ.Heaps h h') {o o' : Object}
    (ho : μ.Objects h.slots.size o o')
    (hc : ∀ c ∈ o.children, μ.Found h h' c) :
    μ.Puts (encodeObject o) (encodeObject o') h h' μ.Address :=
  ⟨hh.push nofun nofun, h.le_alloc o, h'.le_alloc o',
    .ok ⟨(hh.addr_push ⟨false, o⟩ ⟨false, o'⟩).symm, hh.found_push nofun nofun ho hc⟩⟩

mutual

/-- **A value from outside is put on both heaps in the same way.** -/
theorem puts_encode {h h' : Heap} (hh : μ.Heaps h h') (v : Value) :
    μ.Puts (encode v) (encode v) h h' μ.Address := by
  match v with
  | .bool b => exact .pure hh ⟨(μ.addr_boolAddr b).symm, hh.found_boolAddr b⟩
  | .int n => exact puts_encodeObject hh (.int n) nofun
  | .str s => exact puts_encodeObject hh (.str s) nofun
  | .vector items =>
    refine (puts_encodeAll hh items).bind fun k k' as _ hk _ _ ⟨has, hfound⟩ => ?_
    subst has
    exact puts_encodeObject hk (.vector as) hfound
  | .set items =>
    refine (puts_encodeAll hh items).bind fun k k' as _ hk _ _ ⟨has, hfound⟩ => .get_bind ?_
    obtain ⟨hsorted, hsort⟩ := sortItems_map hfound
    subst has
    rw [id, id] at hsort
    rw [← hsort]
    exact puts_encodeObject hk (.set _) hsorted
  | .map entries =>
    refine (puts_encodeEntries hh entries).bind fun k k' es _ hk _ _ ⟨hes, hfound⟩ => .get_bind ?_
    obtain ⟨hsorted, hsort⟩ := sortEntries_map hfound
    subst hes
    rw [id, id] at hsort
    rw [← hsort]
    exact puts_encodeObject hk (.map _) (Object.forall_mem_children_map.2 hsorted)
  | .fn _ _ => exact .throw hh _
  | .variant _ _ _ => exact .throw hh _

theorem puts_encodeAll {h h' : Heap} (hh : μ.Heaps h h') (vs : List Value) :
    μ.Puts (encodeAll vs) (encodeAll vs) h h' μ.Addresses := by
  match vs with
  | [] => exact .pure hh ⟨rfl, nofun⟩
  | v :: vs =>
    refine (puts_encode hh v).bind fun k k' a _ hk _ _ ⟨ha, hfound⟩ => ?_
    refine (puts_encodeAll hk vs).bind fun k k' as _ hk hle hle' ⟨has, hall⟩ => .pure hk ?_
    subst ha has
    exact ⟨rfl, List.forall_mem_cons.2 ⟨hfound.of_le hle hle', hall⟩⟩

theorem puts_encodeEntries {h h' : Heap} (hh : μ.Heaps h h') (es : List (Value × Value)) :
    μ.Puts (encodeEntries es) (encodeEntries es) h h' fun h h' ps ps' =>
      ps' = ps.map (fun e => (μ.addr e.1, μ.addr e.2)) ∧
        ∀ e ∈ ps, μ.Found h h' e.1 ∧ μ.Found h h' e.2 := by
  match es with
  | [] => exact .pure hh ⟨rfl, nofun⟩
  | (x, v) :: es =>
    refine (puts_encode hh x).bind fun k k' a _ hk _ _ ⟨ha, hx⟩ => ?_
    refine (puts_encode hk v).bind fun k k' b _ hk hle₁ hle₁' ⟨hb, hv⟩ => ?_
    refine (puts_encodeEntries hk es).bind fun k k' ps _ hk hle₂ hle₂' ⟨hps, hall⟩ => .pure hk ?_
    subst ha hb hps
    exact ⟨rfl, List.forall_mem_cons.2 ⟨⟨(hx.of_le hle₁ hle₁').of_le hle₂ hle₂',
      hv.of_le hle₂ hle₂'⟩, hall⟩⟩

end

end Matching

end TypedLisp
