import Mathlib.Data.List.Forall2
import TypedLisp.Proofs.Runtime.WordTyping

/-!
# What the operations of the machine yield

A run that goes well ends without a fault and with a result that inhabits its type, or it ends with
one of the faults that are allowed (`Yields`). Given arguments that inhabit the types of its
parameters, every built-in function goes well without any fault, and every function of the host
unless it divides by zero.
-/

namespace TypedLisp

variable {m m' : Machine} {h : Heap} {W : StoreTypes} {as : List Addr} {ts : List Ty}

/-- Whether no type rules a fault out: a var that is not bound, too many nested calls, and what a
function of the host itself refuses. -/
def Fault.Benign : Fault → Prop
  | .unboundVar _ | .stackOverflow | .divideByZero => True
  | _ => False

/-- Whether a run ends with a fault that is allowed, or with none and with a result as wanted. -/
structure Yields {α : Type} (F : Fault → Prop) (act : Run α) (m : Machine) (Q : Heap → α → Prop) :
    Prop where
  allowed : ∀ f, (act m).2.fault = some f → F f
  result : (act m).2.fault = none → Q (act m).2.heap (act m).1

variable {F : Fault → Prop}

namespace Yields

variable {α β : Type} {m : Machine} {Q : Heap → α → Prop} {Q' : Heap → β → Prop}

theorem pure (hm : m.fault = none) {a : α} (ha : Q m.heap a) : Yields F (Pure.pure a) m Q :=
  ⟨fun _ hf => (nomatch hm.symm.trans hf), fun _ => ha⟩

theorem of_eq {act act' : Run α} {m' : Machine} (h : act m = act' m') (h' : Yields F act' m' Q) :
    Yields F act m Q := by
  obtain ⟨hallowed, hresult⟩ := h'
  rw [← h] at hallowed hresult
  exact ⟨hallowed, hresult⟩

/-- If the first step ends with a fault then so does the whole, whatever the second step does. -/
theorem bind {act : Run α} {k : α → Run β} (h : Yields F act m Q) (hk : ∀ a, Run.Grows (k a))
    (hyields : ∀ a, (act m).2.fault = none → Q (act m).2.heap a → Yields F (k a) (act m).2 Q') :
    Yields F (act >>= k) m Q' := by
  cases hf : (act m).2.fault with
  | none =>
    have hrun : (act >>= k) m = k (act m).1 (act m).2 := rfl
    exact of_eq hrun (hyields _ hf (h.result hf))
  | some f =>
    have hkept : ((act >>= k) m).2.fault = some f := (hk (act m).1 (act m).2).2.2 f hf
    refine ⟨fun g hg => ?_, fun hnone => nomatch hkept.symm.trans hnone⟩
    obtain rfl := Option.some.inj (hkept.symm.trans hg)
    exact h.allowed f hf

theorem raise (hm : m.fault = none) {f : Fault} (hf : F f) {Q : Heap → Addr → Prop} :
    Yields F (Machine.raise f) m Q := by
  have hfault : (Machine.raise f m).2.fault = some f := by
    show (m.fault <|> some f) = some f
    rw [hm]
    rfl
  refine ⟨fun g hg => ?_, fun hnone => nomatch hfault.symm.trans hnone⟩
  obtain rfl := Option.some.inj (hfault.symm.trans hg)
  exact hf

theorem alloc (hm : m.fault = none) {o : Object} {Q : Heap → Addr → Prop}
    (ho : ∀ h a, m.heap ≤ h → h.get? a = some o → Q h a) : Yields F (Machine.alloc o) m Q :=
  ⟨fun _ hf => (nomatch hm.symm.trans hf),
    fun _ => ho _ _ (m.heap.le_alloc o) (m.heap.get?_push_self ⟨false, o⟩)⟩

end Yields

/-- Whether an effect is a fault that is allowed, or ends with a result as wanted. -/
def Effect.Meets (F : Fault → Prop) (Q : Heap → Addr → Prop) (h : Heap) : Effect → Prop
  | .make o => ∀ h' a, h ≤ h' → h'.get? a = some o → Q h' a
  | .bool b => Q h (boolAddr b)
  | .mark => Q h faultAddr
  | .raise f => F f

theorem Yields.effect (hm : m.fault = none) {act : Run Addr} {e : Effect} {Q : Heap → Addr → Prop}
    (hrun : act m = e.run m) (he : e.Meets F Q m.heap) : Yields F act m Q := by
  refine .of_eq hrun ?_
  cases e with
  | make o => exact .alloc hm he
  | bool b | mark => exact .pure hm he
  | raise f => exact .raise hm he

theorem Machine.object_eq {a : Addr} {o : Object} (h : m.heap.get? a = some o) :
    object a m = (o, m) := by
  rw [object, Heap.object_of_get? h]

/-! ## Typed machines -/

/-- Whether a heap has the single objects. -/
structure Heap.Standard (h : Heap) : Prop where
  slot?_true : h.slot? trueAddr = some ⟨true, .bool true⟩
  slot?_false : h.slot? falseAddr = some ⟨true, .bool false⟩
  slot?_fault : h.slot? faultAddr = some ⟨true, .fault⟩

theorem Heap.Standard.of_le {h' : Heap} (hh : h.Standard) (hle : h ≤ h') : h'.Standard :=
  ⟨Heap.slot?_of_le hle hh.slot?_true, Heap.slot?_of_le hle hh.slot?_false,
    Heap.slot?_of_le hle hh.slot?_fault⟩

theorem Heap.Standard.inhabits_bool (hh : h.Standard) (W : StoreTypes) (b : Bool) :
    Inhabits W h (boolAddr b) .bool := by
  cases b with
  | false => exact .bool (Heap.get?_eq_some.2 ⟨_, hh.slot?_false, rfl⟩)
  | true => exact .bool (Heap.get?_eq_some.2 ⟨_, hh.slot?_true, rfl⟩)

/-- Whether the objects in the cells inhabit the types that are known of the cells. -/
structure Machine.Typed (W : StoreTypes) (m : Machine) : Prop where
  standard : m.heap.Standard
  cells : ∀ i t a, W.cell i = some t → m.cells[i]?.join = some a → Inhabits W m.heap a t

theorem Machine.Typed.of_heap_le (hm : m.Typed W) (hheap : m.heap ≤ m'.heap)
    (hcells : m'.cells = m.cells) : m'.Typed W := by
  refine ⟨hm.standard.of_le hheap, fun i t a ht ha => ?_⟩
  rw [hcells] at ha
  exact (hm.cells i t a ht ha).of_le hheap

theorem Machine.Typed.of_le (hm : m.Typed W) (hle : m ≤ m') :
    m'.Typed W := hm.of_heap_le hle.1 hle.2.1.1

/-! ## Collections -/

namespace Machine

variable {W : StoreTypes} {m : Machine} {t : Ty}

theorem literal_yields (hm : m.Typed W) (hfault : m.fault = none) (v : Literal) :
    Yields F (literal v) m fun h a => Inhabits W h a v.ty := by
  cases v with
  | bool b => exact .pure hfault (hm.standard.inhabits_bool W b)
  | int n => exact .alloc hfault fun _ _ _ ha => .int ha
  | str s => exact .alloc hfault fun _ _ _ ha => .str ha

theorem vectorConj_yields (hfault : m.fault = none) {v a : Addr}
    (hv : Inhabits W m.heap v (.vector t)) (ha : Inhabits W m.heap a t) :
    Yields F (vectorConj v a) m fun h b => Inhabits W h b (.vector t) := by
  obtain ⟨items, hget, hitems⟩ := hv.exists_vector
  refine .of_eq (vectorConj_eq hget a) (.alloc hfault fun h b hle hb => .vector hb ?_)
  refine List.forall_mem_append.2 ⟨fun i hi => (hitems i hi).of_le hle, ?_⟩
  simpa using ha.of_le hle

theorem setConj_yields (hfault : m.fault = none) {s a : Addr}
    (hs : Inhabits W m.heap s (.set t)) (ha : Inhabits W m.heap a t) :
    Yields F (setConj s a) m fun h b => Inhabits W h b (.set t) := by
  obtain ⟨items, hget, hitems⟩ := hs.exists_set
  refine .of_eq (setConj_eq hget a) (.alloc hfault fun h b hle hb => .set hb fun i hi => ?_)
  obtain rfl | hi := mem_insertItem hi
  · exact ha.of_le hle
  · exact (hitems i hi).of_le hle

theorem mapAssoc_yields (hfault : m.fault = none) {p k v : Addr} {tk tv : Ty}
    (hp : Inhabits W m.heap p (.map tk tv)) (hk : Inhabits W m.heap k tk)
    (hv : Inhabits W m.heap v tv) :
    Yields F (mapAssoc p k v) m fun h b => Inhabits W h b (.map tk tv) := by
  obtain ⟨entries, hget, hentries⟩ := hp.exists_map
  refine .of_eq (mapAssoc_eq hget k v) (.alloc hfault fun h b hle hb => ?_)
  have hall : ∀ e ∈ insertEntry m.heap.compare k v entries, Inhabits W h e.1 tk ∧
      Inhabits W h e.2 tv := by
    intro e he
    obtain rfl | he := mem_insertEntry he
    · exact ⟨hk.of_le hle, hv.of_le hle⟩
    · exact ⟨(hentries e he).1.of_le hle, (hentries e he).2.of_le hle⟩
  exact .map hb (fun e he => (hall e he).1) fun e he => (hall e he).2

theorem foldlM_yields {α : Type} (step : Addr → α → Run Addr) (P : Heap → α → Prop)
    {Q : Heap → Addr → Prop} (hgrows : ∀ b x, Run.Grows (step b x))
    (hP : ∀ {h h' x}, h ≤ h' → P h x → P h' x)
    (hstep : ∀ {m : Machine} {b x}, m.fault = none → Q m.heap b → P m.heap x →
      Yields F (step b x) m Q)
    {xs : List α} (hfault : m.fault = none) {b : Addr} (hb : Q m.heap b)
    (hxs : ∀ x ∈ xs, P m.heap x) : Yields F (xs.foldlM step b) m Q := by
  induction xs generalizing m b with
  | nil => exact .pure hfault hb
  | cons x xs ih =>
    obtain ⟨hx, hxs⟩ := List.forall_mem_cons.1 hxs
    rw [List.foldlM_cons]
    refine (hstep hfault hb hx).bind (fun _ => .foldlM hgrows _ _) fun c hfault' hc => ?_
    exact ih hfault' hc fun y hy => hP (hgrows b x m).1 (hxs y hy)

end Machine

theorem InhabitAll.forall_mem {t : Ty} (has : InhabitAll W h as ts) (hts : ∀ u ∈ ts, u = t) :
    ∀ a ∈ as, Inhabits W h a t := by
  induction has with
  | nil => exact List.forall_mem_nil _
  | cons ha _ ih =>
    obtain ⟨rfl, hts⟩ := List.forall_mem_cons.1 hts
    exact List.forall_mem_cons.2 ⟨ha, ih hts⟩

theorem InhabitAll.forall_mem_pairs {k v : Ty} (has : InhabitAll W h as ts)
    (hk : ∀ u ∈ keys ts, u = k) (hv : ∀ u ∈ values ts, u = v) :
    ∀ e ∈ pairs as, Inhabits W h e.1 k ∧ Inhabits W h e.2 v := by
  fun_induction pairs as generalizing ts with
  | case1 a b as ih =>
    cases has with | cons ha has => cases has with | cons hb has =>
    obtain ⟨rfl, hk⟩ := List.forall_mem_cons.1 hk
    obtain ⟨rfl, hv⟩ := List.forall_mem_cons.1 hv
    exact List.forall_mem_cons.2 ⟨⟨ha, hb⟩, ih has hk hv⟩
  | case2 => exact fun e he => absurd he List.not_mem_nil

/-- **The collection of objects that inhabit the types of its items inhabits its type.** -/
theorem Machine.collection_yields (hfault : m.fault = none) {kind : Collection} {items : List Addr}
    {t : Ty} (hitems : InhabitAll W m.heap items ts) (ht : kind.Holds ts t) :
    Yields F (collection kind items) m fun h a => Inhabits W h a t := by
  have hmono : ∀ {u : Ty} {h h' : Heap} {a : Addr}, h ≤ h' → Inhabits W h a u → Inhabits W h' a u :=
    fun hle ha => ha.of_le hle
  have hempty : ∀ o, m.heap ≤ (alloc o m).2.heap := fun o => (grows_alloc o m).1
  cases kind with
  | vector =>
    obtain ⟨e, rfl, hts⟩ := ht
    refine Yields.bind (Q := fun h a => Inhabits W h a (.vector e))
      (.alloc hfault fun _ _ _ ha => .vector ha (List.forall_mem_nil _)) (fun _ => .foldlM leads_vectorConj _ _) ?_
    exact fun a hfault' ha => foldlM_yields vectorConj (fun h a => Inhabits W h a e)
      leads_vectorConj hmono (fun hf hb hx => vectorConj_yields hf hb hx) hfault' ha fun i hi =>
        hmono (hempty _) (hitems.forall_mem hts i hi)
  | set =>
    obtain ⟨e, rfl, hts⟩ := ht
    refine Yields.bind (Q := fun h a => Inhabits W h a (.set e))
      (.alloc hfault fun _ _ _ ha => .set ha (List.forall_mem_nil _)) (fun _ => .foldlM leads_setConj _ _) ?_
    exact fun a hfault' ha => foldlM_yields setConj (fun h a => Inhabits W h a e)
      leads_setConj hmono (fun hf hb hx => setConj_yields hf hb hx) hfault' ha fun i hi =>
        hmono (hempty _) (hitems.forall_mem hts i hi)
  | map =>
    obtain ⟨k, v, rfl, hk, hv⟩ := ht
    refine Yields.bind (Q := fun h a => Inhabits W h a (.map k v))
      (.alloc hfault fun _ _ _ ha => .map ha (by simp) (by simp)) (fun p => leads_mapAssocAll p items) ?_
    intro p hfault' hp
    rw [mapAssocAll_eq_foldlM]
    refine foldlM_yields (fun p (e : Addr × Addr) => mapAssoc p e.1 e.2)
      (fun h (e : Addr × Addr) => Inhabits W h e.1 k ∧ Inhabits W h e.2 v)
      (fun p e => leads_mapAssoc p e.1 e.2) (fun hle he => ⟨hmono hle he.1, hmono hle he.2⟩)
      (fun hfault hb he => mapAssoc_yields hfault hb he.1 he.2) hfault' hp fun e he => ?_
    obtain ⟨hek, hev⟩ := hitems.forall_mem_pairs hk hv e he
    exact ⟨hmono (hempty _) hek, hmono (hempty _) hev⟩

/-! ## Built-in and host functions -/

namespace Effect.Meets

variable {Q : Heap → Addr → Prop} {a b : Addr}

theorem int (n : Int64) : (make (.int n)).Meets F (fun h a => Inhabits W h a .int) h :=
  fun _ _ _ ha => .int ha

theorem str (s : String) : (make (.str s)).Meets F (fun h a => Inhabits W h a .str) h :=
  fun _ _ _ ha => .str ha

theorem onInt (ha : Inhabits W h a .int) {k : Int64 → Effect} (hk : ∀ n, (k n).Meets F Q h) :
    (h.onInt a k).Meets F Q h := by
  obtain ⟨n, hn⟩ := ha.exists_int
  rw [Heap.onInt, Heap.object_of_get? hn]
  exact hk n

theorem onInts (ha : Inhabits W h a .int) (hb : Inhabits W h b .int)
    {k : Int64 → Int64 → Effect} (hk : ∀ x y, (k x y).Meets F Q h) :
    (h.onInts a b k).Meets F Q h :=
  .onInt ha fun x => .onInt hb (hk x)

theorem onStr (ha : Inhabits W h a .str) {k : String → Effect} (hk : ∀ s, (k s).Meets F Q h) :
    (h.onStr a k).Meets F Q h := by
  obtain ⟨s, hs⟩ := ha.exists_str
  rw [Heap.onStr, Heap.object_of_get? hs]
  exact hk s

theorem texted {v : Value} (ha : h.decode a = .ok v)
    (hQ : ∀ s, (make (.str s)).Meets F Q h) : (h.texted a).Meets F Q h := by
  rw [Heap.texted, ha]
  cases v with
  | str s => exact hQ s
  | _ => exact hQ _

theorem divided (hzero : F .divideByZero) (y n : Int64) :
    (Effect.divided y n).Meets F (fun h a => Inhabits W h a .int) h := by
  unfold Effect.divided
  split
  · exact hzero
  · exact .int n

end Effect.Meets

open Machine

variable {args : List Addr} {r : Ty}

/-- **Every built-in function meets its type**, at each instance of it. -/
theorem Builtin.run_yields (hm : m.Typed W) (hfault : m.fault = none) {b : Builtin}
    {g : TyVar → Ty} (ht : (b.ty 0).bind g = .fn ts r) (hargs : InhabitAll W m.heap args ts) :
    Yields F (b.run args) m fun h a => Inhabits W h a r := by
  cases b with
  | add | sub | mul =>
    cases ht
    rcases hargs with _ | ⟨hx, _ | ⟨hy, _ | _⟩⟩
    exact .effect hfault (Builtin.run_eq ..) (.onInts hx hy fun _ _ => .int _)
  | eq | lt | gt =>
    cases ht
    rcases hargs with _ | ⟨hx, _ | ⟨hy, _ | _⟩⟩
    exact .effect hfault (Builtin.run_eq ..)
      (.onInts hx hy fun _ _ => hm.standard.inhabits_bool W _)
  | not =>
    cases ht
    rcases hargs with _ | ⟨hx, _ | _⟩
    obtain ⟨b, hb⟩ := hx.exists_bool
    refine .effect hfault (not_run _) ?_
    rw [Heap.negated, Heap.object_of_get? hb]
    exact hm.standard.inhabits_bool W _
  | count =>
    cases ht
    rcases hargs with _ | ⟨hx, _ | _⟩
    obtain ⟨items, hget, -⟩ := hx.exists_vector
    refine .effect hfault (count_run _) ?_
    rw [Heap.counted, Heap.object_of_get? hget]
    exact .int _
  | conj =>
    cases ht
    rcases hargs with _ | ⟨hx, _ | ⟨hy, _ | _⟩⟩
    exact vectorConj_yields hfault hx hy
  | str =>
    cases ht
    rcases hargs with _ | ⟨hx, _ | _⟩
    obtain ⟨v, hv⟩ := hx.decode
    exact .effect hfault (textOf_run _) (.texted hv .str)
  | concat =>
    cases ht
    rcases hargs with _ | ⟨hx, _ | ⟨hy, _ | _⟩⟩
    exact .effect hfault (concat_run ..) (.onStr hx fun _ => .onStr hy fun _ => .str _)

/-- **Every function of the host meets its type.** -/
theorem HostFn.run_yields (hzero : F .divideByZero) (hfault : m.fault = none) {fn : HostFn}
    (ht : fn.ty = .fn ts r) (hargs : InhabitAll W m.heap args ts) :
    Yields F (fn.run args) m fun h a => Inhabits W h a r := by
  refine .effect hfault (fn.run_eq args) ?_
  cases fn with
  | abs =>
    cases ht
    rcases hargs with _ | ⟨hx, _ | _⟩
    exact .onInt hx fun _ => .int _
  | max | min =>
    cases ht
    rcases hargs with _ | ⟨hx, _ | ⟨hy, _ | _⟩⟩
    exact .onInts hx hy fun _ _ => .int _
  | quot | rem =>
    cases ht
    rcases hargs with _ | ⟨hx, _ | ⟨hy, _ | _⟩⟩
    exact .onInts hx hy fun _ _ => .divided hzero _ _
  | length =>
    cases ht
    rcases hargs with _ | ⟨hx, _ | _⟩
    exact .onStr hx fun _ => .int _
  | upper | lower | trim =>
    cases ht
    rcases hargs with _ | ⟨hx, _ | _⟩
    exact .onStr hx fun _ => .str _
  | «repeat» =>
    cases ht
    rcases hargs with _ | ⟨hx, _ | ⟨hy, _ | _⟩⟩
    exact .onStr hx fun _ => .onInt hy fun _ => .str _

end TypedLisp
