import TypedLisp.Proofs.Heap.Matching
import TypedLisp.Proofs.Lookup

/-!
# Machines in step

Two machines are in step if they have the same fault and their cells hold objects that are found in
both heaps (`Matching.Machines`). Two computations track one another if they lead from such machines
to such machines again (`Matching.Tracks`). Every operation of the machine tracks itself on the
corresponding arguments, down to the faults it raises.
-/

namespace TypedLisp

/-- Whether a function is not made of code: it is built in, of the host, or a constructor. -/
inductive FnBody.Native : FnBody → Prop where
  | builtin (b : Builtin) : Native (.builtin b)
  | host (h : HostFn) : Native (.host h)
  | construct (l : Layout) : Native (.construct l)

namespace Matching

variable (μ : Matching)

/-- Whether a function that is not made of code stands for itself, if it captures nothing. -/
def KeepsNative : Prop :=
  ∀ {a : Addr} {name : String} {arity : Nat} {body : FnBody}, body.Native →
    μ.fn a ⟨name, arity, body, []⟩ ⟨name, arity, body, []⟩

/-- Whether two machines are in step. -/
structure Machines (m m' : Machine) : Prop where
  heaps : μ.Heaps m.heap m'.heap
  cells_eq : m'.cells = m.cells.map (Option.map μ.addr)
  found : ∀ (i : Nat) (a : Addr), m.cells[i]?.join = some a → μ.Found m.heap m'.heap a
  fault_eq : m'.fault = m.fault

/-- Whether two computations lead from two machines to machines that are in step, where the heaps
have grown and the results are as wanted. -/
structure Tracks {α β : Type} (act : Run α) (act' : Run β) (m m' : Machine)
    (Q : Heap → Heap → α → β → Prop) : Prop where
  machines : μ.Machines (act m).2 (act' m').2
  le : m.heap ≤ (act m).2.heap
  le_right : m'.heap ≤ (act' m').2.heap
  result : Q (act m).2.heap (act' m').2.heap (act m).1 (act' m').1

/-- Whether two effects stand for one another. -/
inductive Effects (h h' : Heap) : Effect → Effect → Prop where
  | make {o o' : Object} (ho : ∀ a, μ.Objects a o o') (hc : ∀ c ∈ o.children, μ.Found h h' c) :
    Effects h h' (.make o) (.make o')
  | bool (b : Bool) : Effects h h' (.bool b) (.bool b)
  | mark : Effects h h' .mark .mark
  | raise (f : Fault) : Effects h h' (.raise f) (.raise f)

/-- The objects at an address that is found in two heaps. -/
structure ObjectsAt (h h' : Heap) (a : Addr) (o o' : Object) : Prop where
  get?_eq : h.get? a = some o
  get?_eq_right : h'.get? (μ.addr a) = some o'
  objects : μ.Objects a o o'
  found : ∀ c ∈ o.children, μ.Found h h' c

variable {μ} {m m' : Machine} {a b : Addr}

theorem Found.exists_objects {h h' : Heap} (ha : μ.Found h h' a) :
    ∃ o o', h.object a = o ∧ h'.object (μ.addr a) = o' ∧ μ.ObjectsAt h h' a o o' := by
  cases ha with
  | intro ha ha' ho _ hc =>
    exact ⟨_, _, Heap.object_of_get? ha, Heap.object_of_get? ha', ha, ha', ho, hc⟩

/-- The machines are in step again after new objects have been made or a fault has been raised. -/
theorem Machines.of_heaps (hm : μ.Machines m m') {h h' : Heap} (hheaps : μ.Heaps h h')
    (hle : m.heap ≤ h) (hle' : m'.heap ≤ h') {ts ts' : List Nat} {f f' : Option Fault}
    (hf : f' = f) : μ.Machines ⟨h, m.cells, ts, f⟩ ⟨h', m'.cells, ts', f'⟩ :=
  ⟨hheaps, hm.cells_eq, fun i a ha => (hm.found i a ha).of_le hle hle', hf⟩

namespace Tracks

variable {α β γ δ : Type} {Q : Heap → Heap → α → β → Prop} {Q' : Heap → Heap → γ → δ → Prop}

theorem pure (hm : μ.Machines m m') {x : α} {y : β} (h : Q m.heap m'.heap x y) :
    μ.Tracks (Pure.pure x) (Pure.pure y) m m' Q := ⟨hm, le_refl _, le_refl _, h⟩

theorem bind {act : Run α} {act' : Run β} {k : α → Run γ} {k' : β → Run δ}
    (h : μ.Tracks act act' m m' Q)
    (hk : ∀ n n' x y, μ.Machines n n' → m.heap ≤ n.heap → m'.heap ≤ n'.heap →
      Q n.heap n'.heap x y → μ.Tracks (k x) (k' y) n n' Q') :
    μ.Tracks (act >>= k) (act' >>= k') m m' Q' := by
  have hrest := hk _ _ _ _ h.machines h.le h.le_right h.result
  exact ⟨hrest.machines, le_trans h.le hrest.le, le_trans h.le_right hrest.le_right, hrest.result⟩

/-- What comes after the machine has been read may rely on which machine it is. -/
theorem get_bind {k : Machine → Run α} {k' : Machine → Run β}
    (h : μ.Tracks (k m) (k' m') m m' Q) : μ.Tracks (get >>= k) (get >>= k') m m' Q := by
  obtain ⟨hm, hle, hle', hresult⟩ := h
  exact ⟨hm, hle, hle', hresult⟩

theorem raise (hm : μ.Machines m m') (f : Fault) :
    μ.Tracks (Machine.raise f) (Machine.raise f) m m' μ.Address :=
  ⟨hm.of_heaps hm.heaps (le_refl _) (le_refl _) (congrArg (· <|> some f) hm.fault_eq), le_refl _,
    le_refl _, μ.addr_faultAddr.symm, hm.heaps.found_faultAddr⟩

theorem push (hm : μ.Machines m m') {e e' : Entry} (he : e.Settled) (he' : e'.Settled)
    (ho : μ.Objects m.heap.slots.size e.object e'.object)
    (hc : ∀ c ∈ e.object.children, μ.Found m.heap m'.heap c) :
    μ.Tracks (fun m => ((m.heap.push e).1, { m with heap := (m.heap.push e).2 }))
      (fun m => ((m.heap.push e').1, { m with heap := (m.heap.push e').2 })) m m' μ.Address := by
  have hle := m.heap.le_push he
  have hle' := m'.heap.le_push he'
  exact ⟨hm.of_heaps (hm.heaps.push he he') hle hle' hm.fault_eq, hle, hle',
    (hm.heaps.addr_push e e').symm, hm.heaps.found_push he he' ho hc⟩

theorem alloc (hm : μ.Machines m m') {o o' : Object}
    (ho : μ.Objects m.heap.slots.size o o')
    (hc : ∀ c ∈ o.children, μ.Found m.heap m'.heap c) :
    μ.Tracks (Machine.alloc o) (Machine.alloc o') m m' μ.Address :=
  push hm nofun nofun ho hc

theorem allocPinned (hm : μ.Machines m m') {o o' : Object}
    (ho : μ.Objects m.heap.slots.size o o') (hc : o.children = []) (hc' : o'.children = []) :
    μ.Tracks (Machine.allocPinned o) (Machine.allocPinned o') m m' μ.Address :=
  push hm (fun _ => hc) (fun _ => hc') ho (by simp [hc])

theorem object (hm : μ.Machines m m') (ha : μ.Found m.heap m'.heap a) :
    μ.Tracks (Machine.object a) (Machine.object (μ.addr a)) m m'
      fun h h' => μ.ObjectsAt h h' a := by
  obtain ⟨o, o', rfl, rfl, hat⟩ := ha.exists_objects
  exact ⟨hm, le_refl _, le_refl _, hat⟩

theorem effect (hm : μ.Machines m m') {act act' : Run Addr} {e e' : Effect}
    (hrun : act m = e.run m) (hrun' : act' m' = e'.run m') (he : μ.Effects m.heap m'.heap e e') :
    μ.Tracks act act' m m' μ.Address := by
  have htracks : μ.Tracks e.run e'.run m m' μ.Address := by
    cases he with
    | make ho hc => exact .alloc hm (ho _) hc
    | bool b => exact .pure hm ⟨(μ.addr_boolAddr b).symm, hm.heaps.found_boolAddr b⟩
    | mark => exact .pure hm ⟨μ.addr_faultAddr.symm, hm.heaps.found_faultAddr⟩
    | raise f => exact .raise hm f
  obtain ⟨hmachines, hle, hle', hresult⟩ := htracks
  rw [← hrun, ← hrun'] at *
  exact ⟨hmachines, hle, hle', hresult⟩

theorem faultPending (hm : μ.Machines m m') :
    μ.Tracks Machine.faultPending Machine.faultPending m m' fun _ _ p p' => p' = p :=
  ⟨hm, le_refl _, le_refl _, congrArg Option.isSome hm.fault_eq⟩

theorem foldlM {step : Addr → α → Run Addr} {step' : Addr → β → Run Addr} {r : α → β}
    {P : Heap → Heap → α → Prop}
    (hP : ∀ {h h' k k' x}, P h h' x → h ≤ k → h' ≤ k' → P k k' x)
    (hstep : ∀ {m m' a x}, μ.Machines m m' → μ.Found m.heap m'.heap a → P m.heap m'.heap x →
      μ.Tracks (step a x) (step' (μ.addr a) (r x)) m m' μ.Address)
    {xs : List α} (hm : μ.Machines m m') (ha : μ.Found m.heap m'.heap a)
    (hxs : ∀ x ∈ xs, P m.heap m'.heap x) :
    μ.Tracks (xs.foldlM step a) ((xs.map r).foldlM step' (μ.addr a)) m m' μ.Address := by
  induction xs generalizing m m' a with
  | nil => exact .pure hm ⟨rfl, ha⟩
  | cons x xs ih =>
    obtain ⟨hx, hxs⟩ := List.forall_mem_cons.1 hxs
    rw [List.map_cons, List.foldlM_cons, List.foldlM_cons]
    refine (hstep hm ha hx).bind fun n n' b _ hn hle hle' hb => ?_
    obtain ⟨rfl, hb⟩ := hb
    exact ih hn hb fun y hy => hP (hxs y hy) hle hle'

end Tracks

/-! ## Literals and collections -/

open Machine

theorem tracks_literal (hm : μ.Machines m m') (v : Literal) :
    μ.Tracks (literal v) (literal v) m m' μ.Address := by
  cases v with
  | bool b => exact .pure hm ⟨(μ.addr_boolAddr b).symm, hm.heaps.found_boolAddr b⟩
  | int n => exact .alloc hm (.int n) (List.forall_mem_nil _)
  | str s => exact .alloc hm (.str s) (List.forall_mem_nil _)

section

variable {h h' : Heap} (ha : μ.Found h h' a)

include ha

theorem effects_conjVector (hb : μ.Found h h' b) :
    μ.Effects h h' (h.conjVector a b) (h'.conjVector (μ.addr a) (μ.addr b)) := by
  obtain ⟨o, o', heq, heq', _, _, ho, hc⟩ := ha.exists_objects
  rw [Heap.conjVector, Heap.conjVector, heq, heq']
  cases ho with
  | vector items =>
    refine .make (fun _ => ?_) (List.forall_mem_append.2 ⟨hc, List.forall_mem_singleton.2 hb⟩)
    simpa using Objects.vector (items ++ [b])
  | _ => exact .raise _

theorem effects_conjSet (hb : μ.Found h h' b) :
    μ.Effects h h' (h.conjSet a b) (h'.conjSet (μ.addr a) (μ.addr b)) := by
  obtain ⟨o, o', heq, heq', _, _, ho, hc⟩ := ha.exists_objects
  rw [Heap.conjSet, Heap.conjSet, heq, heq']
  cases ho with
  | set items =>
    have hitems : ∀ i ∈ items, μ.Found h h' i := hc
    obtain ⟨hfound, heq⟩ := insertItem_map hb hitems
    exact .make (fun _ => heq ▸ .set _) hfound
  | _ => exact .raise _

theorem effects_assocMap {k v : Addr} (hk : μ.Found h h' k) (hv : μ.Found h h' v) :
    μ.Effects h h' (h.assocMap a k v) (h'.assocMap (μ.addr a) (μ.addr k) (μ.addr v)) := by
  obtain ⟨o, o', heq, heq', _, _, ho, hc⟩ := ha.exists_objects
  rw [Heap.assocMap, Heap.assocMap, heq, heq']
  cases ho with
  | map entries =>
    obtain ⟨hfound, heq⟩ := insertEntry_map hk hv (Object.forall_mem_children_map.1 hc)
    exact .make (fun _ => heq ▸ .map _) (Object.forall_mem_children_map.2 hfound)
  | _ => exact .raise _

end

/-- **A collection of objects that are found is found.** -/
theorem tracks_collection (hm : μ.Machines m m') (kind : Collection) {items : List Addr}
    (hitems : ∀ i ∈ items, μ.Found m.heap m'.heap i) :
    μ.Tracks (collection kind items) (collection kind (items.map μ.addr)) m m' μ.Address := by
  cases kind with
  | vector =>
    refine (Tracks.alloc hm (.vector []) nofun).bind fun n n' c _ hn hle hle' ⟨hc, hfound⟩ => ?_
    subst hc
    exact .foldlM (P := fun h h' i => μ.Found h h' i) Found.of_le
      (fun {_ _ a b} hm ha hb => .effect hm (vectorConj_run a b) (vectorConj_run _ _)
        (effects_conjVector ha hb)) hn hfound
      fun i hi => (hitems i hi).of_le hle hle'
  | set =>
    refine (Tracks.alloc hm (.set []) nofun).bind fun n n' c _ hn hle hle' ⟨hc, hfound⟩ => ?_
    subst hc
    exact .foldlM (P := fun h h' i => μ.Found h h' i) Found.of_le
      (fun {_ _ a b} hm ha hb => .effect hm (setConj_run a b) (setConj_run _ _)
        (effects_conjSet ha hb)) hn hfound
      fun i hi => (hitems i hi).of_le hle hle'
  | map =>
    refine (Tracks.alloc hm (.map []) nofun).bind fun n n' c _ hn hle hle' ⟨hc, hfound⟩ => ?_
    subst hc
    rw [mapAssocAll_eq_foldlM, mapAssocAll_eq_foldlM, pairs_map]
    refine .foldlM (P := fun h h' (e : Addr × Addr) => μ.Found h h' e.1 ∧ μ.Found h h' e.2)
      (fun he hle hle' => ⟨he.1.of_le hle hle', he.2.of_le hle hle'⟩)
      (fun {_ _ a e} hm ha he => .effect hm (mapAssoc_run a e.1 e.2)
        (mapAssoc_run (μ.addr a) (μ.addr e.1) (μ.addr e.2))
        (effects_assocMap ha he.1 he.2)) hn hfound
      fun e he => ?_
    obtain ⟨hk, hv⟩ := mem_of_mem_pairs he
    exact ⟨(hitems _ hk).of_le hle hle', (hitems _ hv).of_le hle hle'⟩

/-! ## Cells and calls -/

theorem Machines.cell?_eq (hm : μ.Machines m m') (c : Cell) :
    m'.cell? c = (m.cell? c).map μ.addr := by
  unfold cell?
  rw [hm.cells_eq, Array.getElem?_map]
  cases m.cells[c.id]? with
  | none => rfl
  | some a => rfl

theorem tracks_load (hm : μ.Machines m m') (c : Cell) :
    μ.Tracks (load c) (load c) m m' μ.Address := by
  refine .get_bind ?_
  rw [hm.cell?_eq]
  cases hc : m.cell? c with
  | none => exact .raise hm _
  | some a => exact .pure hm ⟨rfl, hm.found c.id a hc⟩

variable (μ) in
/-- Whether two functions that have been entered, or were not, stand for one another. -/
inductive Entered (h h' : Heap) (a : Addr) (argc : Nat) :
    Option FnObject → Option FnObject → Prop where
  | none : Entered h h' a argc none none
  | some {f f' : FnObject} (ha : h.get? a = some (.fn f)) (ha' : h'.get? (μ.addr a) = some (.fn f'))
      (hf : μ.fn a f f') (harity : f.arity = argc)
      (hc : ∀ c ∈ f.captures.filterMap id, μ.Found h h' c) : Entered h h' a argc (some f) (some f')

theorem tracks_enter (hm : μ.Machines m m') (ha : μ.Found m.heap m'.heap a) (depth argc : Nat) :
    μ.Tracks (enter depth a argc) (enter depth (μ.addr a) argc) m m'
      fun h h' => μ.Entered h h' a argc := by
  refine (Tracks.faultPending hm).bind fun n n' p _ hn hle hle' hp => ?_
  subst hp
  split
  · exact .pure hn .none
  split
  · exact (Tracks.raise hn _).bind fun n n' _ _ hn _ _ _ => .pure hn .none
  refine (Tracks.object hn (ha.of_le hle hle')).bind fun n n' o o' hn _ _ ⟨ha, ha', ho, hc⟩ => ?_
  cases ho with
  | @fn f f' hf =>
    dsimp only
    rw [μ.arity_eq hf, μ.name_eq hf]
    split
    · exact .pure hn (.some ha ha' hf ‹_› hc)
    · exact (Tracks.raise hn _).bind fun n n' _ _ hn _ _ _ => .pure hn .none
  | fault => exact .pure hn .none
  | _ => exact (Tracks.raise hn _).bind fun n n' _ _ hn _ _ _ => .pure hn .none

/-! ## Built-in and host functions -/

namespace Effects

variable {h h' : Heap} (ha : μ.Found h h' a)

include ha

theorem onInt {k k' : Int64 → Effect} (hk : ∀ n, μ.Effects h h' (k n) (k' n)) :
    μ.Effects h h' (h.onInt a k) (h'.onInt (μ.addr a) k') := by
  obtain ⟨o, o', heq, heq', _, _, ho, -⟩ := ha.exists_objects
  rw [Heap.onInt, Heap.onInt, heq, heq']
  cases ho with
  | int n => exact hk n
  | _ => exact .raise _

theorem onInts (hb : μ.Found h h' b) {k : Int64 → Int64 → Effect}
    (hk : ∀ x y, μ.Effects h h' (k x y) (k x y)) :
    μ.Effects h h' (h.onInts a b k) (h'.onInts (μ.addr a) (μ.addr b) k) :=
  .onInt ha fun x => .onInt hb (hk x)

theorem onStr {k k' : String → Effect} (hk : ∀ s, μ.Effects h h' (k s) (k' s)) :
    μ.Effects h h' (h.onStr a k) (h'.onStr (μ.addr a) k') := by
  obtain ⟨o, o', heq, heq', _, _, ho, -⟩ := ha.exists_objects
  rw [Heap.onStr, Heap.onStr, heq, heq']
  cases ho with
  | str s => exact hk s
  | _ => exact .raise _

end Effects

section

variable {h h' : Heap} {args : List Addr}

theorem Effects.int (n : Int64) : μ.Effects h h' (.make (.int n)) (.make (.int n)) :=
  .make (fun _ => .int n) (List.forall_mem_nil _)

theorem Effects.str (s : String) : μ.Effects h h' (.make (.str s)) (.make (.str s)) :=
  .make (fun _ => .str s) (List.forall_mem_nil _)

theorem Effects.divided (y n : Int64) : μ.Effects h h' (.divided y n) (.divided y n) := by
  unfold Effect.divided
  split
  · exact .raise _
  · exact .int n

theorem tracks_faultAddr (hm : μ.Machines m m') :
    μ.Tracks (pure faultAddr) (pure faultAddr) m m' μ.Address :=
  .pure hm ⟨μ.addr_faultAddr.symm, hm.heaps.found_faultAddr⟩

/-- **Built-in functions do the same on both machines.** -/
theorem effects_builtin (f : Builtin) (hargs : ∀ a ∈ args, μ.Found h h' a) :
    μ.Effects h h' (f.effect h args) (f.effect h' (args.map μ.addr)) := by
  match args with
  | [] => cases f <;> exact .mark
  | [a] =>
    have ha := hargs a (List.mem_cons_self ..)
    cases f with
    | not =>
      show μ.Effects h h' (h.negated a) (h'.negated (μ.addr a))
      obtain ⟨o, o', heq, heq', _, _, ho, -⟩ := ha.exists_objects
      rw [Heap.negated, Heap.negated, heq, heq']
      cases ho with
      | bool b => exact .bool _
      | _ => exact .raise _
    | count =>
      show μ.Effects h h' (h.counted a) (h'.counted (μ.addr a))
      obtain ⟨o, o', heq, heq', _, _, ho, -⟩ := ha.exists_objects
      rw [Heap.counted, Heap.counted, heq, heq']
      cases ho with
      | vector | set | map =>
        simp only [List.length_map]
        exact .int _
      | _ => exact .raise _
    | str =>
      show μ.Effects h h' (h.texted a) (h'.texted (μ.addr a))
      unfold Heap.texted
      rw [ha.decode_eq]
      split
      · exact .str _
      · exact .str _
      · exact .raise _
    | _ => exact .mark
  | [a, b] =>
    have ha := hargs a (List.mem_cons_self ..)
    have hb := hargs b (List.mem_cons_of_mem _ (List.mem_cons_self ..))
    cases f with
    | add | sub | mul => exact .onInts ha hb fun _ _ => .int _
    | eq | lt | gt => exact .onInts ha hb fun _ _ => .bool _
    | conj => exact effects_conjVector ha hb
    | concat => exact .onStr ha fun _ => .onStr hb fun _ => .str _
    | _ => exact .mark
  | _ :: _ :: _ :: _ => cases f <;> exact .mark

/-- **Functions of the host do the same on both machines.** -/
theorem effects_host (f : HostFn) (hargs : ∀ a ∈ args, μ.Found h h' a) :
    μ.Effects h h' (f.effect h args) (f.effect h' (args.map μ.addr)) := by
  match args with
  | [] => cases f <;> exact .mark
  | [a] =>
    have ha := hargs a (List.mem_cons_self ..)
    cases f with
    | abs => exact .onInt ha fun _ => .int _
    | length => exact .onStr ha fun _ => .int _
    | upper | lower | trim => exact .onStr ha fun _ => .str _
    | _ => exact .mark
  | [a, b] =>
    have ha := hargs a (List.mem_cons_self ..)
    have hb := hargs b (List.mem_cons_of_mem _ (List.mem_cons_self ..))
    cases f with
    | max | min => exact .onInts ha hb fun _ _ => .int _
    | quot | rem => exact .onInts ha hb fun _ _ => .divided _ _
    | «repeat» => exact .onStr ha fun _ => .onInt hb fun _ => .str _
    | _ => exact .mark
  | _ :: _ :: _ :: _ => cases f <;> exact .mark

end

/-- A function that is not made of code does the same on both machines, whatever it is called. -/
theorem tracks_native (hm : μ.Machines m m') {f f' : FnObject} (hf : f.body.Native)
    (hbody : f'.body = f.body) (call call' : Addr → List Addr → Run Addr) {args : List Addr}
    (hargs : ∀ a ∈ args, μ.Found m.heap m'.heap a) :
    μ.Tracks (f.run call args) (f'.run call' (args.map μ.addr)) m m' μ.Address := by
  obtain ⟨name, arity, body, captures⟩ := f
  unfold FnObject.run
  rw [hbody]
  cases hf with
  | builtin b => exact .effect hm (b.run_eq _) (b.run_eq _) (effects_builtin b hargs)
  | host f => exact .effect hm (f.run_eq _) (f.run_eq _) (effects_host f hargs)
  | construct l =>
    refine .alloc hm ?_ fun a ha => hargs a (by simpa [Object.children] using ha)
    have h := Objects.variant (μ := μ) (a := m.heap.slots.size) l (args.map some)
    rw [List.map_map] at h ⊢
    exact h

/-! ## Faults and cells between runs -/

theorem tracks_takeFault (hm : μ.Machines m m') :
    μ.Tracks takeFault takeFault m m' fun _ _ f f' => f' = f :=
  ⟨hm.of_heaps hm.heaps (le_refl _) (le_refl _) rfl, le_refl _, le_refl _, hm.fault_eq⟩

theorem tracks_newCell (hm : μ.Machines m m') (name : String) :
    μ.Tracks (newCell name) (newCell name) m m' fun _ _ c c' => c' = c := by
  refine ⟨⟨hm.heaps, ?_, fun i a ha => ?_, hm.fault_eq⟩, le_refl _, le_refl _, ?_⟩
  · show m'.cells.push none = (m.cells.push none).map (Option.map μ.addr)
    rw [hm.cells_eq, Array.map_push]
    rfl
  · refine hm.found i a ?_
    change (m.cells.push none)[i]?.join = some a at ha
    rw [Array.getElem?_push] at ha
    split at ha
    · cases ha
    · exact ha
  · show Cell.mk m'.cells.size name = ⟨m.cells.size, name⟩
    rw [hm.cells_eq, Array.size_map]

theorem tracks_store (hm : μ.Machines m m') (c : Cell) (ha : μ.Found m.heap m'.heap a) :
    μ.Tracks (store c a) (store c (μ.addr a)) m m' fun _ _ _ _ => True := by
  refine ⟨⟨hm.heaps, ?_, fun i b hb => ?_, hm.fault_eq⟩, le_refl _, le_refl _, trivial⟩
  · show m'.cells.setIfInBounds c.id (some (μ.addr a)) =
      (m.cells.setIfInBounds c.id (some a)).map (Option.map μ.addr)
    rw [hm.cells_eq, Array.map_setIfInBounds]
    rfl
  · change (m.cells.setIfInBounds c.id (some a))[i]?.join = some b at hb
    rw [Array.getElem?_setIfInBounds] at hb
    split at hb
    · split at hb
      · cases hb
        exact ha
      · cases hb
    · exact hm.found i b hb

theorem tracks_track (hm : μ.Machines m m') (cs cs' : List Cell) :
    μ.Tracks (track cs) (track cs') m m' fun _ _ _ _ => True :=
  ⟨hm.of_heaps hm.heaps (le_refl _) (le_refl _) hm.fault_eq, le_refl _, le_refl _, trivial⟩

theorem tracks_storeTracked (hm : μ.Machines m m') (c : Cell) (ha : μ.Found m.heap m'.heap a) :
    μ.Tracks (do store c a; track [c]) (do store c (μ.addr a); track [c]) m m'
      fun _ _ _ _ => True :=
  (tracks_store hm c ha).bind fun _ _ _ _ hn _ _ _ => tracks_track hn _ _

/-! ## Collection -/

theorem Machines.collectGarbage (hm : μ.Machines m m') (hc : m.Covered) :
    μ.Machines (collectGarbage m).2 m' := by
  refine { hm with heaps := hm.heaps.collect _, found := fun i a ha => ?_ }
  have hfound := hm.found i a ha
  exact hfound.collect (hc.reached ha hfound.lt_size)

theorem Machines.collectGarbage_right (hμ : μ.SameCaptures) (hm : μ.Machines m m')
    (hc : m'.Covered) : μ.Machines m (Machine.collectGarbage m').2 := by
  refine { hm with heaps := hm.heaps.collect_right _, found := fun i a ha => ?_ }
  have hfound := hm.found i a ha
  have ha' : m'.cells[i]?.join = some (μ.addr a) := by
    rw [hm.cells_eq, Array.getElem?_map]
    rw [Option.join_eq_some_iff.1 ha]
    rfl
  exact hfound.collect_right hμ (hc.reached ha' hfound.addr_lt_size)

theorem Machines.collectIfDue (hm : μ.Machines m m') (hc : m.Covered) :
    μ.Machines (collectIfDue m).2 m' := by
  rcases m.collectIfDue_eq with heq | heq
  · rwa [heq]
  · rw [heq]
    exact hm.collectGarbage hc

end Matching

end TypedLisp
