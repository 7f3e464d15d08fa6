import Mathlib.Order.Defs.PartialOrder
import Mathlib.Order.Defs.Unbundled
import TypedLisp.Machine.Eval
import TypedLisp.Proofs.Machine.Effects
import TypedLisp.Proofs.Monads
import TypedLisp.Proofs.Values.Canonical

/-!
# What running code leaves alone

All that running code does is made of steps that make an object or record a fault, so a relation
that holds of each of them holds of a whole run (`Run.Leads`, `Code.leads_eval`). It changes no
object that there is, it stores into no cell, and a fault on record stays there: `Run.Grows` says
that a computation only ever leads upwards in this sense.
-/

namespace TypedLisp

@[induction_eliminator]
theorem Code.ind {motive : Code → Prop} (literal : ∀ v, motive (.literal v))
    (collection : ∀ k cs, (∀ c ∈ cs, motive c) → motive (.collection k cs))
    (slot : ∀ x, motive (.slot x)) (load : ∀ c, motive (.load c))
    (call : ∀ f cs, motive f → (∀ c ∈ cs, motive c) → motive (.call f cs))
    (letIn : ∀ bs c, (∀ b ∈ bs, motive b.2) → motive c → motive (.letIn bs c))
    (ite : ∀ t a b, motive t → motive a → motive b → motive (.ite t a b))
    (closure : ∀ ps xs c, motive c → motive (.closure ps xs c)) (c : Code) : motive c :=
  @Code.rec motive (fun cs => ∀ c ∈ cs, motive c) (fun bs => ∀ b ∈ bs, motive b.2)
    (fun b => motive b.2) literal collection slot load call letIn ite closure
    (fun _ h => nomatch h)
    (fun c cs hc hcs d hd => by
      rcases List.mem_cons.1 hd with rfl | hd
      · exact hc
      · exact hcs d hd)
    (fun _ h => nomatch h)
    (fun b bs hb hbs d hd => by
      rcases List.mem_cons.1 hd with rfl | hd
      · exact hb
      · exact hbs d hd)
    (fun _ _ hc => hc) c

/-! ## The order -/

/-- A heap is below another one that has all its objects at the same addresses, pinned or not as
they were, and no fewer addresses, where what is pinned besides leads to nothing. -/
instance : Preorder Heap where
  le h h' := h.slots.size ≤ h'.slots.size ∧ (∀ a e, h.slot? a = some e → h'.slot? a = some e) ∧
    ∀ a o, h'.slot? a = some ⟨true, o⟩ → h.slot? a = some ⟨true, o⟩ ∨ o.children = []
  le_refl _ := ⟨Nat.le_refl _, fun _ _ h => h, fun _ _ h => .inl h⟩
  le_trans _ _ _ h₁ h₂ := ⟨Nat.le_trans h₁.1 h₂.1, fun a e h => h₂.2.1 a e (h₁.2.1 a e h),
    fun a o h => (h₂.2.2 a o h).elim (h₁.2.2 a o) .inr⟩

/-- Whether an entry leads to nothing if it is pinned. -/
def Entry.Settled (e : Entry) : Prop := e.pinned = true → e.object.children = []

namespace Heap

variable {h h' : Heap} {a : Addr} {o : Object}

theorem lt_size_of_slot? {e : Entry} (ha : h.slot? a = some e) : a < h.slots.size := by
  by_contra hlt
  simp [slot?, Array.getElem?_eq_none (Nat.le_of_not_lt hlt)] at ha

theorem get?_eq_some : h.get? a = some o ↔ ∃ e, h.slot? a = some e ∧ e.object = o :=
  Option.map_eq_some_iff

theorem slot?_of_le (hle : h ≤ h') {e : Entry} (ha : h.slot? a = some e) : h'.slot? a = some e :=
  hle.2.1 a e ha

theorem get?_of_le (hle : h ≤ h') (ha : h.get? a = some o) : h'.get? a = some o := by
  obtain ⟨e, he, rfl⟩ := get?_eq_some.1 ha
  exact get?_eq_some.2 ⟨e, slot?_of_le hle he, rfl⟩

theorem le_push (h : Heap) {e : Entry} (he : e.Settled) : h ≤ (h.push e).2 := by
  refine ⟨Nat.le_of_lt (Nat.lt_of_lt_of_eq (Nat.lt_succ_self _) (Array.size_push _).symm),
    fun a e' ha => ?_, fun a o ha => ?_⟩
  · rw [slot?_push_of_lt (lt_size_of_slot? ha)]
    exact ha
  · rcases Nat.lt_or_ge a h.slots.size with hlt | hge
    · rw [slot?_push_of_lt hlt] at ha
      exact .inl ha
    · have hsize : a < h.slots.size + 1 := by
        simpa [push] using lt_size_of_slot? ha
      obtain rfl : a = (h.push e).1 := Nat.le_antisymm (Nat.le_of_lt_succ hsize) hge
      obtain rfl := Option.some.inj ((h.slot?_push_self e).symm.trans ha)
      exact .inr (he rfl)

theorem le_alloc (h : Heap) (o : Object) : h ≤ (h.alloc o).2 := h.le_push nofun

end Heap

/-- A machine is below another one that has all its objects, the same cells, of which the same are
tracked, and its fault. -/
instance : Preorder Machine where
  le m m' := m.heap ≤ m'.heap ∧ (m'.cells = m.cells ∧ m'.tracked = m.tracked) ∧
    ∀ f, m.fault = some f → m'.fault = some f
  le_refl _ := ⟨le_refl _, ⟨rfl, rfl⟩, fun _ h => h⟩
  le_trans _ _ _ h₁ h₂ :=
    ⟨le_trans h₁.1 h₂.1, ⟨h₂.2.1.1.trans h₁.2.1.1, h₂.2.1.2.trans h₁.2.1.2⟩,
      fun f h => h₂.2.2 f (h₁.2.2 f h)⟩

/-- The layout in an object, if it is a variant or a constructor. -/
def Object.layout? : Object → Option Layout
  | .variant l _ => some l
  | .fn ⟨_, _, .construct l, _⟩ => some l
  | _ => none

/-! ### Putting values on the heap -/

/-- Whether a relation between heaps holds where an object without a layout is made. -/
class Heap.StepRelation (R : Heap → Heap → Prop) : Prop extends IsPreorder Heap R where
  alloc {o : Object} (ho : o.layout? = none) (h : Heap) : R h (h.alloc o).2

instance : Heap.StepRelation (LE.le : Heap → Heap → Prop) where
  refl := le_refl
  trans _ _ _ := le_trans
  alloc _ h := h.le_alloc _

namespace Heap

variable {R : Heap → Heap → Prop} [StepRelation R]

theorem leads_encodeObject {o : Object} (ho : o.layout? = none) : Advances R (encodeObject o) :=
  StepRelation.alloc ho

mutual

/-- Values from outside have no layouts: functions and variants cannot be put in. -/
theorem leads_encode (v : Value) : Advances R (encode v) := by
  match v with
  | .bool b => exact .pure _
  | .int n => exact leads_encodeObject rfl
  | .str s => exact leads_encodeObject rfl
  | .vector items => exact (leads_encodeAll items).bind fun _ => leads_encodeObject rfl
  | .set items =>
    exact (leads_encodeAll items).bind fun _ => .bind .get fun _ => leads_encodeObject rfl
  | .map entries =>
    exact (leads_encodeEntries entries).bind fun _ => .bind .get fun _ => leads_encodeObject rfl
  | .fn _ _ => exact .throw _
  | .variant _ _ _ => exact .throw _

theorem leads_encodeAll (vs : List Value) : Advances R (encodeAll vs) := by
  match vs with
  | [] => exact .pure _
  | v :: vs => exact (leads_encode v).bind fun _ => (leads_encodeAll vs).bind fun _ => .pure _

theorem leads_encodeEntries (es : List (Value × Value)) : Advances R (encodeEntries es) := by
  match es with
  | [] => exact .pure _
  | (k, v) :: es =>
    exact (leads_encode k).bind fun _ => (leads_encode v).bind fun _ =>
      (leads_encodeEntries es).bind fun _ => .pure _

end

end Heap

/-! ### Running code -/

/-- Whether a relation between machines holds of the steps that running code is made of: a fault is
recorded, and an object without a layout is made. -/
class Machine.StepRelation (R : Machine → Machine → Prop) : Prop extends IsPreorder Machine R where
  raise (f : Fault) (m : Machine) : R m (raise f m).2
  alloc {o : Object} (ho : o.layout? = none) (m : Machine) : R m (alloc o m).2

/-- Whether a computation leads from each machine to one that is related to it. -/
def Run.Leads (R : Machine → Machine → Prop) {α : Type} (act : Run α) : Prop := ∀ m, R m (act m).2

namespace Run.Leads

variable {R : Machine → Machine → Prop} [IsPreorder Machine R] {α β : Type}

theorem pure (a : α) : Leads R (Pure.pure a : Run α) := fun m => refl m

theorem get : Leads R (MonadState.get : Run Machine) := fun m => refl m

theorem bind {act : Run α} {k : α → Run β} (h : Leads R act) (hk : ∀ a, Leads R (k a)) :
    Leads R (act >>= k) := fun m => IsTrans.trans _ _ _ (h m) (hk _ _)

theorem foldlM {f : β → α → Run β} (h : ∀ b a, Leads R (f b a)) (l : List α) (b : β) :
    Leads R (l.foldlM f b) := by
  induction l generalizing b with
  | nil => exact pure b
  | cons a l ih => exact (h b a).bind fun b' => ih b'

end Run.Leads

/-! ## Ascending lists -/

section Insert

variable {α β : Type} {R : α → β → Prop} {cmp : α → α → Ordering} {cmp' : β → β → Ordering} {x : α}
  {u : β} {xs : List α} {us : List β} {P : α → Prop} {r : α → β}

theorem mem_of_mem_insertBy {y : α} (h : y ∈ insertBy cmp x xs) : y = x ∨ y ∈ xs := by
  induction xs with
  | nil => simpa [insertBy] using h
  | cons z zs ih =>
    rw [insertBy] at h
    split at h <;> simp only [List.mem_cons] at h ⊢ <;> tauto

/-- An item is put into the same place of two lists if it compares the same with their items. -/
theorem forall₂_insertBy (hxs : List.Forall₂ R xs us) (hx : R x u)
    (hcmp : ∀ y v, R y v → cmp x y = cmp' u v) :
    List.Forall₂ R (insertBy cmp x xs) (insertBy cmp' u us) := by
  induction hxs with
  | nil => exact .cons hx .nil
  | @cons y v ys vs hyv hys ih =>
    rw [insertBy, insertBy, hcmp y v hyv]
    cases cmp' u v with
    | lt => exact .cons hx (.cons hyv hys)
    | eq => exact .cons hx hys
    | gt => exact .cons hyv ih

/-- Lists that stand for each other are sorted alike if their items compare alike. -/
theorem forall₂_foldl_insertBy (hxs : List.Forall₂ R xs us)
    (hcmp : ∀ x u y v, R x u → R y v → cmp x y = cmp' u v) :
    List.Forall₂ R (xs.foldl (fun acc x => insertBy cmp x acc) [])
      (us.foldl (fun acc u => insertBy cmp' u acc) []) := by
  refine List.rel_foldl (P := List.Forall₂ R) ?_ .nil hxs
  intro acc acc' hacc x u hx
  exact forall₂_insertBy hacc hx fun y v hy => hcmp x u y v hx hy

theorem forall₂_map_iff :
    List.Forall₂ (fun x u => P x ∧ r x = u) xs us ↔ (∀ x ∈ xs, P x) ∧ xs.map r = us := by
  rw [List.forall₂_and_left, ← List.forall₂_map_left_iff (R := Eq), List.forall₂_eq_eq_eq]

theorem insertBy_map (hx : P x) (hxs : ∀ y ∈ xs, P y)
    (hcmp : ∀ y, P y → cmp' (r x) (r y) = cmp x y) :
    (∀ y ∈ insertBy cmp x xs, P y) ∧
      (insertBy cmp x xs).map r = insertBy cmp' (r x) (xs.map r) := by
  refine forall₂_map_iff.1 (forall₂_insertBy (forall₂_map_iff.2 ⟨hxs, rfl⟩) ⟨hx, rfl⟩ ?_)
  rintro y _ ⟨hy, rfl⟩
  exact (hcmp y hy).symm

theorem foldl_insertBy_map (hxs : ∀ x ∈ xs, P x)
    (hcmp : ∀ x y, P x → P y → cmp' (r x) (r y) = cmp x y) :
    (∀ x ∈ xs.foldl (fun acc x => insertBy cmp x acc) [], P x) ∧
      (xs.foldl (fun acc x => insertBy cmp x acc) []).map r =
        (xs.map r).foldl (fun acc x => insertBy cmp' x acc) [] := by
  refine forall₂_map_iff.1 (forall₂_foldl_insertBy (forall₂_map_iff.2 ⟨hxs, rfl⟩) ?_)
  rintro x _ y _ ⟨hx, rfl⟩ ⟨hy, rfl⟩
  exact (hcmp x y hx hy).symm

end Insert

theorem Object.forall_mem_children_map {P : Addr → Prop} {entries : List (Addr × Addr)} :
    (∀ c ∈ (Object.map entries).children, P c) ↔ ∀ e ∈ entries, P e.1 ∧ P e.2 := by
  rw [children, List.forall_mem_flatMap]
  simp

variable {cmp : Addr → Addr → Ordering} {x y k v : Addr} {items : List Addr} {e : Addr × Addr}
  {entries : List (Addr × Addr)}

theorem insertItem_eq_insertBy (cmp : Addr → Addr → Ordering) (x : Addr) (items : List Addr) :
    insertItem cmp x items = insertBy cmp x items := by
  induction items with
  | nil => rfl
  | cons y ys ih => cases h : cmp x y <;> simp only [insertItem, insertBy, h, ih]

theorem insertEntry_eq_insertBy (cmp : Addr → Addr → Ordering) (k v : Addr)
    (entries : List (Addr × Addr)) :
    insertEntry cmp k v entries = insertBy (fun e e' => cmp e.1 e'.1) (k, v) entries := by
  induction entries with
  | nil => rfl
  | cons e es ih => cases h : cmp k e.1 <;> simp only [insertEntry, insertBy, h, ih]

theorem mem_insertItem (h : y ∈ insertItem cmp x items) : y = x ∨ y ∈ items :=
  mem_of_mem_insertBy (insertItem_eq_insertBy cmp x items ▸ h)

theorem mem_insertEntry (h : e ∈ insertEntry cmp k v entries) : e = (k, v) ∨ e ∈ entries :=
  mem_of_mem_insertBy (insertEntry_eq_insertBy cmp k v entries ▸ h)

/-! ## Machine operations -/

namespace Machine

open Run

variable {R : Machine → Machine → Prop} [StepRelation R]

theorem leads_raise (f : Fault) : Leads R (raise f) := StepRelation.raise f

theorem leads_faultPending : Leads R faultPending := fun m => refl m

theorem leads_object (a : Addr) : Leads R (object a) := fun m => refl m

theorem leads_alloc {o : Object} (ho : o.layout? = none) : Leads R (alloc o) :=
  StepRelation.alloc ho

theorem leads_literal (v : Literal) : Leads R (literal v) := by
  cases v with
  | bool b => exact .pure _
  | int n => exact leads_alloc rfl
  | str s => exact leads_alloc rfl

theorem leads_effect {e : Effect} (he : ∀ o, e = .make o → o.layout? = none) (m : Machine) :
    R m (e.run m).2 := by
  cases e with
  | make o => exact StepRelation.alloc (he o rfl) m
  | bool _ | mark => exact refl m
  | raise f => exact StepRelation.raise f m

theorem leads_vectorConj (v a : Addr) : Leads R (vectorConj v a) := fun m => by
  rw [vectorConj_run]
  refine leads_effect (fun o ho => ?_) m
  unfold Heap.conjVector at ho
  split at ho <;> cases ho
  rfl

theorem leads_setConj (s a : Addr) : Leads R (setConj s a) := fun m => by
  rw [setConj_run]
  refine leads_effect (fun o ho => ?_) m
  unfold Heap.conjSet at ho
  split at ho <;> cases ho
  rfl

theorem leads_mapAssoc (p k v : Addr) : Leads R (mapAssoc p k v) := fun m => by
  rw [mapAssoc_run]
  refine leads_effect (fun o ho => ?_) m
  unfold Heap.assocMap at ho
  split at ho <;> cases ho
  rfl

theorem leads_mapAssocAll (m : Addr) (items : List Addr) : Leads R (mapAssocAll m items) := by
  fun_induction mapAssocAll m items with
  | case1 m k v rest ih => exact (leads_mapAssoc m k v).bind ih
  | case2 m items => exact .pure m

theorem mapAssocAll_eq_foldlM (p : Addr) (items : List Addr) :
    mapAssocAll p items = (pairs items).foldlM (fun p e => mapAssoc p e.1 e.2) p := by
  fun_induction mapAssocAll p items with
  | case1 p k v rest ih => simp only [pairs, List.foldlM_cons, ih]
  | case2 items p hitems =>
    rcases items with _ | ⟨k, _ | ⟨v, rest⟩⟩
    · rfl
    · rfl
    · exact absurd rfl (hitems k v rest)

theorem leads_collection (kind : Collection) (items : List Addr) :
    Leads R (collection kind items) := by
  cases kind with
  | vector => exact (leads_alloc rfl).bind fun v => .foldlM leads_vectorConj items v
  | set => exact (leads_alloc rfl).bind fun s => .foldlM leads_setConj items s
  | map => exact (leads_alloc rfl).bind fun m => leads_mapAssocAll m items

theorem leads_load (c : Cell) : Leads R (load c) := Leads.get.bind fun m => by
  split
  · exact .pure _
  · exact leads_raise _

theorem leads_enter (depth : Nat) (f : Addr) (argc : Nat) : Leads R (enter depth f argc) := by
  refine leads_faultPending.bind fun pending => ?_
  split
  · exact .pure _
  split
  · exact (leads_raise _).bind fun _ => .pure _
  refine (leads_object f).bind fun o => ?_
  split
  · split
    · exact .pure _
    · exact (leads_raise _).bind fun _ => .pure _
  · exact .pure _
  · exact (leads_raise _).bind fun _ => .pure _

theorem load_eq (c : Cell) (m : Machine) : load c m =
    (match m.cell? c with
      | some a => pure a
      | none => raise (.unboundVar c.name) : Run Addr) m := rfl

/-- A function that is entered is where it was called, and nothing else happens. -/
theorem get?_of_enter_eq_some {depth argc : Nat} {f : Addr} {fn : FnObject} {m m' : Machine}
    (h : enter depth f argc m = (some fn, m')) : m' = m ∧ m.heap.get? f = some (.fn fn) := by
  change (if m.fault.isSome = true then _ else _ : Run (Option FnObject)) m = _ at h
  split at h
  · cases h
  split at h
  · cases h
  have hbind : ∀ (act : Run Object) (k : Object → Run (Option FnObject)),
      (act >>= k) m = k (act m).1 (act m).2 := fun _ _ => rfl
  rw [hbind, show object f m = (m.heap.object f, m) from rfl] at h
  cases ho : m.heap.object f with
  | fn g =>
    rw [ho] at h
    dsimp only at h
    split at h <;> cases h
    refine ⟨rfl, ?_⟩
    cases hget : m.heap.get? f with
    | none => simp [Heap.object, hget] at ho
    | some o => rw [← ho, Heap.object_of_get? hget]
  | _ => rw [ho] at h; cases h

end Machine

open Machine Run

section Leads

variable {R : Machine → Machine → Prop} [StepRelation R]

theorem Effect.Native.layout? {h : Heap} {args : List Addr} {arity : Nat} {o : Object}
    (he : (Effect.make o).Native h args arity) : o.layout? = none := by
  cases he <;> rfl

theorem Builtin.leads_run (f : Builtin) (args : List Addr) : Leads R (f.run args) := fun m => by
  rw [f.run_eq]
  exact leads_effect (fun o ho => (ho ▸ f.native_effect args).layout?) m

theorem HostFn.leads_run (f : HostFn) (args : List Addr) : Leads R (f.run args) := fun m => by
  rw [f.run_eq]
  exact leads_effect (fun o ho => (ho ▸ f.native_effect args).layout?) m

/-! ## Code -/

/-- Whether a relation between computations is kept in sequence, and relates each one that is made of
steps to itself. -/
structure Run.Relation (T : ∀ {α : Type}, Run α → Run α → Prop) : Prop where
  bind {α β : Type} {act act' : Run α} {k k' : α → Run β} (h : T act act')
    (hk : ∀ a, T (k a) (k' a)) : T (act >>= k) (act' >>= k')
  step {α : Type} {act : Run α} (h : ∀ {R} [StepRelation R], Leads R act) : T act act

namespace Run.Relation

variable {T : ∀ {α : Type}, Run α → Run α → Prop} (hT : Relation T)
  {call g : Addr → List Addr → Run Addr}

include hT

theorem evalAll {cs : List Code}
    (h : ∀ c ∈ cs, ∀ frame, T (c.eval call frame) (c.eval g frame)) (frame : Frame) :
    T (Code.evalAll call frame cs) (Code.evalAll g frame cs) := by
  induction cs with
  | nil => exact hT.step (.pure _)
  | cons c cs ih =>
    obtain ⟨hc, hcs⟩ := List.forall_mem_cons.1 h
    exact hT.bind (hc frame) fun _ => hT.bind (ih hcs) fun _ => hT.step (.pure _)

theorem evalBindings {bs : List (Local × Code)}
    (h : ∀ b ∈ bs, ∀ frame, T (b.2.eval call frame) (b.2.eval g frame)) (frame : Frame) :
    T (Code.evalBindings call frame bs) (Code.evalBindings g frame bs) := by
  induction bs generalizing frame with
  | nil => exact hT.step (.pure _)
  | cons b bs ih =>
    obtain ⟨hb, hbs⟩ := List.forall_mem_cons.1 h
    exact hT.bind (hb frame) fun _ => ih hbs _

end Run.Relation

namespace Code

variable {T : ∀ {α : Type}, Run α → Run α → Prop} {call g : Addr → List Addr → Run Addr}

/-- **What holds of every step, and is kept in sequence, holds of running code in two ways**, if it
holds of their calls. -/
theorem rel_eval (hT : Relation T) (hcall : ∀ f args, T (call f args) (g f args)) (c : Code)
    (frame : Frame) : T (c.eval call frame) (c.eval g frame) := by
  induction c generalizing frame with
  | literal v => exact hT.step (leads_literal v)
  | collection kind cs ih =>
    exact hT.bind (hT.evalAll ih frame) fun items => hT.step (leads_collection kind items)
  | slot x => exact hT.step (.pure _)
  | load c => exact hT.step (leads_load c)
  | call f cs ihf ih =>
    exact hT.bind (ihf frame) fun f => hT.bind (hT.evalAll ih frame) fun args => hcall f args
  | letIn bs c ihbs ihc => exact hT.bind (hT.evalBindings ihbs frame) fun inner => ihc inner
  | ite t a b iht iha ihb =>
    refine hT.bind (iht frame) fun v => ?_
    split
    · exact iha frame
    · exact ihb frame
  | closure ps xs c => exact hT.step (leads_alloc rfl)

section Leads

variable {R : Machine → Machine → Prop} [StepRelation R]
  (hcall : ∀ f args, Leads R (call f args))

theorem relation_leads : Relation (fun act _ => Leads R act) :=
  ⟨fun h hk => h.bind hk, fun h => h⟩

include hcall

/-- **What holds of every step holds of running code**, if it holds of calls. -/
theorem leads_eval (c : Code) (frame : Frame) : Leads R (c.eval call frame) :=
  rel_eval (g := call) relation_leads hcall c frame

theorem leads_evalAll (cs : List Code) (frame : Frame) : Leads R (evalAll call frame cs) :=
  relation_leads.evalAll (g := call) (fun c _ => leads_eval hcall c) frame

theorem leads_evalBindings (bs : List (Local × Code)) (frame : Frame) :
    Leads R (evalBindings call frame bs) :=
  relation_leads.evalBindings (g := call) (fun b _ => leads_eval hcall b.2) frame

end Leads

end Code

end Leads

/-! ## Growth -/

instance : StepRelation (LE.le : Machine → Machine → Prop) where
  refl := le_refl
  trans _ _ _ := le_trans
  raise f m := by
    refine ⟨le_refl _, ⟨rfl, rfl⟩, fun f' h => ?_⟩
    show (m.fault <|> some f) = some f'
    rw [h]
    rfl
  alloc _ m := ⟨m.heap.le_alloc _, ⟨rfl, rfl⟩, fun _ h => h⟩

/-- A computation that leads from each machine to one above it. -/
abbrev Run.Grows {α : Type} (act : Run α) : Prop := Leads LE.le act

namespace Machine

theorem grows_alloc (o : Object) : Grows (alloc o) := fun m =>
  ⟨m.heap.le_alloc o, ⟨rfl, rfl⟩, fun _ h => h⟩

end Machine

theorem FnObject.grows_run {call : Addr → List Addr → Run Addr}
    (hcall : ∀ f args, Grows (call f args)) (f : FnObject) (args : List Addr) :
    Grows (f.run call args) := by
  unfold FnObject.run
  split
  · exact Builtin.leads_run _ args
  · exact HostFn.leads_run _ args
  · exact grows_alloc _
  · exact Code.leads_eval hcall _ _
  · exact .pure _

theorem call_succ (depth : Nat) (f : Addr) (args : List Addr) (m : Machine) :
    call (depth + 1) f args m =
      (match (Machine.enter (depth + 1) f args.length m).1 with
        | some fn => fn.run (call depth) args
        | none => return faultAddr : Run Addr) (Machine.enter (depth + 1) f args.length m).2 := rfl

theorem grows_call (depth : Nat) (f : Addr) (args : List Addr) : Grows (call depth f args) := by
  induction depth generalizing f args with
  | zero => exact (leads_enter 0 f args.length).bind fun _ => .pure _
  | succ depth ih =>
    refine (leads_enter (depth + 1) f args.length).bind fun fn => ?_
    split
    · exact FnObject.grows_run ih _ args
    · exact .pure _

end TypedLisp
