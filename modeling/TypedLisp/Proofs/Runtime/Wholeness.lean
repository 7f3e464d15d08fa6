import TypedLisp.Proofs.Heap.Collection
import TypedLisp.Proofs.Lowering
import TypedLisp.Proofs.Namespaces.Declarations
import TypedLisp.Proofs.Runtime.Safety

/-!
# No mark of a fault without a fault

An operation that is given an object of the wrong kind reports a fault, but the mark of a fault
never turns up where no fault is on record, whether the code has a type or not. An object is whole
if it is not the mark, is complete, and leads to whole objects only (`Heap.Whole`). Code that refers
only to what is in scope (`Code.InScope`) ends with a whole object, or with a fault that an
operation reported (`Code.eval_whole`, `call_whole`).
-/

namespace TypedLisp

open Machine Run

/-- Whether a fault is one that an operation reports. -/
def Fault.Reported (f : Fault) : Prop := f ≠ .escaped

/-! ## Code and what is in scope -/

mutual

/-- Whether code refers only to locals in scope. A function refers to its parameters and its
captures. -/
def Code.InScope (scope : List Local) : Code → Prop
  | .literal _ => True
  | .collection _ items => Code.InScopeAll scope items
  | .slot x => x ∈ scope
  | .load _ => True
  | .call callee args => callee.InScope scope ∧ Code.InScopeAll scope args
  | .letIn bindings body =>
    Code.InScopeLet scope bindings ∧ body.InScope (bindings.map Prod.fst ++ scope)
  | .ite t a b => t.InScope scope ∧ a.InScope scope ∧ b.InScope scope
  | .closure params captures body => captures ⊆ scope ∧ body.InScope (params ++ captures)

/-- The same for several pieces of code. -/
def Code.InScopeAll (scope : List Local) : List Code → Prop
  | [] => True
  | c :: cs => c.InScope scope ∧ Code.InScopeAll scope cs

/-- The same for bindings, each in scope in those after it. -/
def Code.InScopeLet (scope : List Local) : List (Local × Code) → Prop
  | [] => True
  | (x, c) :: bs => c.InScope scope ∧ Code.InScopeLet (x :: scope) bs

end

namespace Expr

variable {α : Type}

/-- **The code of an expression refers only to what is in scope.** -/
theorem inScope_of_lower {e : Expr α} {scope : List Local} {c : Code}
    (h : e.lower scope = .ok c) : c.InScope scope := by
  let P (scope : List Local) (_ : Expr α) (c : Code) : Prop := c.InScope scope
  have hall {scope es cs} (h : List.Forall₂ (P scope) es cs) : Code.InScopeAll scope cs := by
    induction h with
    | nil => trivial
    | cons hc _ ih => exact ⟨hc, ih⟩
  have hlet {scope bs cs} (h : LetCode P scope bs cs) :
      Code.InScopeLet scope cs ∧ cs.map Prod.fst = bs.map Prod.fst := by
    induction h with
    | nil => exact ⟨trivial, rfl⟩
    | cons hc _ ih => exact ⟨⟨hc, ih.1⟩, congrArg _ ih.2⟩
  exact lower_induction (P := P) (fun _ _ => trivial) (fun _ _ => hall) (fun _ => id)
    (fun _ _ => trivial) (fun _ hf hes => ⟨hf, hall hes⟩) (fun _ hes => ⟨trivial, hall hes⟩)
    (fun _ hbs he => ⟨(hlet hbs).1, (hlet hbs).2 ▸ he⟩) (fun _ ht ha hb => ⟨ht, ha, hb⟩)
    (fun _ hsub _ he => ⟨hsub, he⟩) h

end Expr

/-! ## Whole objects -/

/-- Whether a function can be run with a number of arguments and a number of captures. -/
def FnBody.Takes (arity captures : Nat) : FnBody → Prop
  | .builtin b => arity = b.arity
  | .host fn => arity = fn.arity
  | .construct _ => True
  | .code params captured body =>
    arity = params.length ∧ captures = captured.length ∧ body.InScope (params ++ captured)
  | .empty => False

/-- Whether an object is not the mark of a fault, lacks nothing, and can be run if it is a
function. -/
def Object.Complete : Object → Prop
  | .bool _ | .int _ | .str _ | .vector _ | .set _ | .map _ => True
  | .fn f => (∀ x ∈ f.captures, x.isSome) ∧ f.body.Takes f.arity f.captures.length
  | .variant _ fields => ∀ x ∈ fields, x.isSome
  | .fault => False

theorem Object.Complete.exists_parts {o : Object} (ho : o.Complete) :
    ∃ parts, o.HasParts parts ∧ parts ⊆ o.children := by
  cases o with
  | bool | int | str | fn => exact ⟨[], rfl, List.nil_subset _⟩
  | vector items => exact ⟨items, rfl, List.Subset.refl _⟩
  | set items => exact ⟨items, rfl, List.Subset.refl _⟩
  | map entries => exact ⟨_, rfl, List.Subset.refl _⟩
  | variant l fields =>
    obtain ⟨parts, rfl⟩ := exists_eq_map_some ho
    exact ⟨parts, rfl, by simp [Object.children]⟩
  | fault => exact ho.elim

namespace Heap

/-- Whether the object at an address is complete, and so are all that it leads to. -/
inductive Whole (h : Heap) : Addr → Prop where
  | intro {a : Addr} {o : Object} (ha : h.get? a = some o) (ho : o.Complete)
      (hchildren : ∀ c ∈ o.children, Whole h c) : Whole h a

variable {h h' : Heap} {a : Addr}

theorem Whole.of_le (ha : h.Whole a) (hle : h ≤ h') : h'.Whole a := by
  induction ha with
  | intro ha ho _ ih => exact .intro (get?_of_le hle ha) ho ih

theorem Whole.object (ha : h.Whole a) :
    (h.object a).Complete ∧ ∀ c ∈ (h.object a).children, h.Whole c := by
  cases ha with
  | intro ha ho hchildren =>
    rw [object_of_get? ha]
    exact ⟨ho, hchildren⟩

theorem Whole.lt_size (ha : h.Whole a) : a < h.slots.size := by
  cases ha with
  | intro ha _ _ =>
    obtain ⟨_, ha, -⟩ := get?_eq_some.1 ha
    exact lt_size_of_slot? ha

theorem Whole.decode (ha : h.Whole a) : ∃ v, h.decode a = .ok v := by
  refine Readable.decode ?_
  induction ha with
  | intro ha ho _ ih =>
    obtain ⟨parts, hparts, hsubset⟩ := ho.exists_parts
    exact .of_get? ha hparts fun p hp => ih p (hsubset hp)

theorem Whole.collect {roots : List Addr} (ha : h.Whole a) (hreached : h.Reached roots a) :
    (h.collect roots).2.Whole a := by
  induction ha with
  | intro ha ho hchildren ih =>
    refine .intro (hreached.get?_collect.trans ha) ho fun c hc => ih c hc ?_
    exact hreached.child (by rwa [object_of_get? ha]) (hchildren c hc).lt_size

theorem Standard.whole_bool (hh : h.Standard) (b : Bool) : h.Whole (boolAddr b) := by
  cases b with
  | false => exact .intro (get?_eq_some.2 ⟨_, hh.slot?_false, rfl⟩) trivial nofun
  | true => exact .intro (get?_eq_some.2 ⟨_, hh.slot?_true, rfl⟩) trivial nofun

end Heap

/-- Whether all that the cells of a machine hold is whole. -/
structure Machine.Whole (m : Machine) : Prop where
  standard : m.heap.Standard
  cells : ∀ (i : Nat) a, m.cells[i]?.join = some a → m.heap.Whole a

theorem Machine.Whole.of_heap_le {m m' : Machine} (hm : m.Whole) (hheap : m.heap ≤ m'.heap)
    (hcells : m'.cells = m.cells) : m'.Whole := by
  refine ⟨hm.standard.of_le hheap, fun i a ha => ?_⟩
  rw [hcells] at ha
  exact (hm.cells i a ha).of_le hheap

theorem Machine.Whole.of_le {m m' : Machine} (hm : m.Whole) (hle : m ≤ m') : m'.Whole :=
  hm.of_heap_le hle.1 hle.2.1.1

/-! ## Operations -/

/-- Whether a run ends with a whole object, or with a fault that was reported. -/
abbrev YieldsWhole (act : Run Addr) (m : Machine) : Prop :=
  Yields Fault.Reported act m fun h a => h.Whole a

namespace Machine

variable {m : Machine} {a b : Addr}

theorem alloc_whole (hfault : m.fault = none) {o : Object} (ho : o.Complete)
    (hchildren : ∀ c ∈ o.children, m.heap.Whole c) : YieldsWhole (alloc o) m :=
  .alloc hfault fun _ _ hle ha => .intro ha ho fun c hc => (hchildren c hc).of_le hle

theorem literal_whole (hm : m.Whole) (hfault : m.fault = none) (v : Literal) :
    YieldsWhole (literal v) m := by
  cases v with
  | bool b => exact .pure hfault (hm.standard.whole_bool b)
  | int _ | str _ => exact alloc_whole hfault trivial (List.forall_mem_nil _)

theorem vectorConj_whole (hfault : m.fault = none) (ha : m.heap.Whole a) (hb : m.heap.Whole b) :
    YieldsWhole (vectorConj a b) m := by
  refine .of_eq (vectorConj_run a b) ?_
  unfold Heap.conjVector
  split
  · rename_i items hitems
    have hwhole : ∀ c ∈ items, m.heap.Whole c := (hitems ▸ ha.object).2
    exact alloc_whole hfault trivial
      (List.forall_mem_append.2 ⟨hwhole, List.forall_mem_singleton.2 hb⟩)
  · exact .raise hfault nofun

theorem setConj_whole (hfault : m.fault = none) (ha : m.heap.Whole a) (hb : m.heap.Whole b) :
    YieldsWhole (setConj a b) m := by
  refine .of_eq (setConj_run a b) ?_
  unfold Heap.conjSet
  split
  · rename_i items hitems
    have hwhole : ∀ c ∈ items, m.heap.Whole c := (hitems ▸ ha.object).2
    refine alloc_whole hfault trivial fun c hc => ?_
    rcases mem_insertItem hc with rfl | hc
    · exact hb
    · exact hwhole c hc
  · exact .raise hfault nofun

theorem mapAssoc_whole {p k v : Addr} (hfault : m.fault = none) (hp : m.heap.Whole p)
    (hk : m.heap.Whole k) (hv : m.heap.Whole v) : YieldsWhole (mapAssoc p k v) m := by
  refine .of_eq (mapAssoc_run p k v) ?_
  unfold Heap.assocMap
  split
  · rename_i entries hentries
    have hwhole := Object.forall_mem_children_map.1 (hentries ▸ hp.object).2
    refine alloc_whole hfault trivial (Object.forall_mem_children_map.2 fun e he => ?_)
    rcases mem_insertEntry he with rfl | he
    · exact ⟨hk, hv⟩
    · exact hwhole e he
  · exact .raise hfault nofun

theorem collection_whole (hfault : m.fault = none) (kind : Collection) {items : List Addr}
    (hitems : ∀ a ∈ items, m.heap.Whole a) : YieldsWhole (collection kind items) m := by
  have hitems' : ∀ o, ∀ a ∈ items, (alloc o m).2.heap.Whole a := fun o a ha =>
    (hitems a ha).of_le (grows_alloc o m).1
  have hvector : YieldsWhole (alloc (.vector [])) m := alloc_whole hfault trivial (List.forall_mem_nil _)
  have hset : YieldsWhole (alloc (.set [])) m := alloc_whole hfault trivial (List.forall_mem_nil _)
  have hmap : YieldsWhole (alloc (.map [])) m := alloc_whole hfault trivial (List.forall_mem_nil _)
  cases kind with
  | vector =>
    refine hvector.bind (fun _ => .foldlM leads_vectorConj _ _) ?_
    exact fun v hfault' hv => foldlM_yields vectorConj (fun h a => h.Whole a) leads_vectorConj
      (fun hle ha => ha.of_le hle) vectorConj_whole hfault' hv (hitems' _)
  | set =>
    refine hset.bind (fun _ => .foldlM leads_setConj _ _) ?_
    exact fun v hfault' hv => foldlM_yields setConj (fun h a => h.Whole a) leads_setConj
      (fun hle ha => ha.of_le hle) setConj_whole hfault' hv (hitems' _)
  | map =>
    refine hmap.bind (fun p => leads_mapAssocAll p items) ?_
    intro p hfault' hp
    rw [mapAssocAll_eq_foldlM]
    refine foldlM_yields (fun p (e : Addr × Addr) => mapAssoc p e.1 e.2)
      (fun h (e : Addr × Addr) => h.Whole e.1 ∧ h.Whole e.2) (fun p e => leads_mapAssoc p e.1 e.2)
      (fun hle he => ⟨he.1.of_le hle, he.2.of_le hle⟩)
      (fun hfault hb he => mapAssoc_whole hfault hb he.1 he.2) hfault' hp fun e he => ?_
    obtain ⟨hk, hv⟩ := mem_of_mem_pairs he
    exact ⟨hitems' _ _ hk, hitems' _ _ hv⟩

/-! ### Built-in and host functions -/

theorem raise_bind_yields {α : Type} {Q : Heap → α → Prop} (hfault : m.fault = none) {f : Fault}
    (hf : f.Reported) (x : α) : Yields Fault.Reported (do let _ ← raise f; return x) m Q :=
  (Yields.raise (Q := fun _ _ => False) hfault hf).bind (fun _ => .pure _) fun _ _ => False.elim

end Machine

variable {m : Machine} {args : List Addr}

/-- **Every built-in function and every function of the host keeps to whole objects**, whatever
their kinds. -/
theorem Effect.Native.run_whole (hm : m.Whole) (hfault : m.fault = none) {arity : Nat}
    {act : Run Addr} {e : Effect} (hrun : act m = e.run m) (he : e.Native m.heap args arity)
    (hlen : args.length = arity) (hargs : ∀ a ∈ args, m.heap.Whole a) : YieldsWhole act m := by
  refine .of_eq hrun ?_
  cases he with
  | int _ | str _ => exact alloc_whole hfault trivial (List.forall_mem_nil _)
  | vector hv ha hitems =>
    have hwhole := (hitems ▸ (hargs _ hv).object).2
    exact alloc_whole hfault trivial
      (List.forall_mem_append.2 ⟨hwhole, List.forall_mem_singleton.2 (hargs _ ha)⟩)
  | bool b => exact .pure hfault (hm.standard.whole_bool b)
  | mark hne => exact absurd hlen hne
  | wrongKind _ _ | divideByZero => exact .raise hfault (by rintro ⟨⟩)
  | noValue ha hf =>
    obtain ⟨v, hv⟩ := (hargs _ ha).decode
    cases hv.symm.trans hf

/-! ## Frames -/

namespace Frame

/-- Whether the locals in scope stand for whole objects. -/
def Holds (h : Heap) (scope : List Local) (frame : Frame) : Prop :=
  ∀ x ∈ scope, h.Whole (frame.get x)

variable {h h' : Heap} {scope : List Local} {frame : Frame}

theorem Holds.of_le (hframe : frame.Holds h scope) (hle : h ≤ h') : frame.Holds h' scope :=
  fun x hx => (hframe x hx).of_le hle

theorem Holds.bind (hframe : frame.Holds h scope) {x : Local} {a : Addr} (ha : h.Whole a) :
    Holds h (x :: scope) ((x, a) :: frame) := by
  intro y hy
  by_cases hyx : y = x
  · subst hyx
    rwa [get_cons_self]
  · rw [get_cons_of_ne hyx]
    exact hframe y ((List.mem_cons.1 hy).resolve_left hyx)

theorem exists_lookup_zip {xs : List Local} {as : List Addr} (hlen : xs.length = as.length)
    (has : ∀ a ∈ as, h.Whole a) {x : Local} (hx : x ∈ xs) :
    ∃ a, (xs.zip as).lookup x = some a ∧ h.Whole a := by
  have hkeys : x ∈ (xs.zip as).map Prod.fst := by
    rwa [List.map_fst_zip (Nat.le_of_eq hlen)]
  obtain ⟨a, ha⟩ := exists_lookup_of_mem_keys hkeys
  exact ⟨a, ha, has a (List.of_mem_zip (mem_of_lookup ha)).2⟩

theorem Holds.start {params captured : List Local} {args : List Addr}
    {captures : List (Option Addr)} (hparams : params.length = args.length)
    (hcaptured : captured.length = captures.length) (hargs : ∀ a ∈ args, h.Whole a)
    (hset : ∀ x ∈ captures, x.isSome) (hcaptures : ∀ a ∈ captures.filterMap id, h.Whole a) :
    Holds h (params ++ captured) (startFrame params captured args captures) := by
  obtain ⟨cs, rfl⟩ := exists_eq_map_some hset
  have hcs : ∀ a ∈ cs, h.Whole a := by simpa using hcaptures
  have hmap : (cs.map some).map (·.getD faultAddr) = cs := by simp
  intro x hx
  rw [startFrame, Frame.get, List.lookup_append, hmap]
  cases hlookup : (params.zip args).lookup x with
  | some a => exact hargs a (List.of_mem_zip (mem_of_lookup hlookup)).2
  | none =>
    have hxc : x ∈ captured := by
      refine (List.mem_append.1 hx).resolve_left fun hxp => ?_
      obtain ⟨a, ha, -⟩ := exists_lookup_zip hparams hargs hxp
      cases hlookup.symm.trans ha
    obtain ⟨a, ha, hwhole⟩ := exists_lookup_zip (by simpa using hcaptured) hcs hxc
    rw [ha]
    exact hwhole

end Frame

/-! ## Code -/

/-- Whether calls keep to whole objects. -/
def CallsWhole (call : Addr → List Addr → Run Addr) : Prop :=
  ∀ {m : Machine} {f : Addr} {args : List Addr}, m.Whole → m.fault = none → m.heap.Whole f →
    (∀ a ∈ args, m.heap.Whole a) → YieldsWhole (call f args) m

theorem Machine.load_whole (hm : m.Whole) (hfault : m.fault = none) (c : Cell) :
    YieldsWhole (load c) m := by
  have hget : (get : Run Machine) m = (m, m) := rfl
  cases hcell : m.cell? c with
  | none =>
    have heq : load c m = raise (.unboundVar c.name) m := by
      simp only [load, Run.bind_of_eq hget, hcell]
    exact .of_eq heq (.raise hfault (by rintro ⟨⟩))
  | some a =>
    have heq : load c m = (pure a : Run Addr) m := by
      simp only [load, Run.bind_of_eq hget, hcell]
    exact .of_eq heq (.pure hfault (hm.cells c.id a hcell))

namespace Code

variable {call : Addr → List Addr → Run Addr} {scope : List Local} {frame : Frame}

/-- Whether running code keeps to whole objects. -/
def EvalWhole (call : Addr → List Addr → Run Addr) (c : Code) : Prop :=
  ∀ {m : Machine} {scope : List Local} {frame : Frame}, m.Whole → m.fault = none →
    frame.Holds m.heap scope → c.InScope scope → YieldsWhole (c.eval call frame) m

theorem evalAll_whole_of (hgrows : ∀ f args, Grows (call f args)) {cs : List Code}
    (hcs : ∀ c ∈ cs, EvalWhole call c) (hm : m.Whole) (hfault : m.fault = none)
    (hframe : frame.Holds m.heap scope) (hscope : InScopeAll scope cs) :
    Yields Fault.Reported (evalAll call frame cs) m fun h as => ∀ a ∈ as, h.Whole a := by
  induction cs generalizing m with
  | nil => exact .pure hfault (List.forall_mem_nil _)
  | cons c cs ih =>
    obtain ⟨hc, hcs⟩ := List.forall_mem_cons.1 hcs
    have hle := leads_eval hgrows c frame m
    refine (hc hm hfault hframe hscope.1).bind
      (fun _ => (leads_evalAll hgrows cs frame).bind fun _ => .pure _) fun a hfault₁ ha => ?_
    have hle₁ := leads_evalAll hgrows cs frame (c.eval call frame m).2
    refine (ih hcs (hm.of_le hle) hfault₁ (hframe.of_le hle.1) hscope.2).bind (fun _ => .pure _)
      fun as hfault₂ has => ?_
    exact .pure hfault₂ (List.forall_mem_cons.2 ⟨ha.of_le hle₁.1, has⟩)

theorem evalBindings_whole_of (hgrows : ∀ f args, Grows (call f args))
    {bs : List (Local × Code)} (hbs : ∀ b ∈ bs, EvalWhole call b.2) (hm : m.Whole)
    (hfault : m.fault = none) (hframe : frame.Holds m.heap scope) (hscope : InScopeLet scope bs) :
    Yields Fault.Reported (evalBindings call frame bs) m
      fun h inner => inner.Holds h (bs.map Prod.fst ++ scope) := by
  induction bs generalizing m scope frame with
  | nil => exact .pure hfault hframe
  | cons b bs ih =>
    obtain ⟨x, c⟩ := b
    obtain ⟨hb, hbs⟩ := List.forall_mem_cons.1 hbs
    have hle := leads_eval hgrows c frame m
    refine (hb hm hfault hframe hscope.1).bind (fun _ => leads_evalBindings hgrows bs _)
      fun a hfault₁ ha => ?_
    have hrest := ih hbs (hm.of_le hle) hfault₁ ((hframe.of_le hle.1).bind ha) hscope.2
    refine ⟨hrest.allowed, fun hnone y hy => hrest.result hnone y ?_⟩
    simp only [List.map_cons, List.cons_append, List.mem_cons, List.mem_append] at hy ⊢
    tauto

/-- **Code that refers only to what is in scope keeps to whole objects.** -/
theorem eval_whole (hgrows : ∀ f args, Grows (call f args)) (hcall : CallsWhole call) (c : Code) :
    EvalWhole call c := by
  induction c with
  | literal v => exact fun hm hfault _ _ => literal_whole hm hfault v
  | collection k cs ih =>
    intro m scope frame hm hfault hframe hscope
    exact (evalAll_whole_of hgrows ih hm hfault hframe hscope).bind (fun _ => leads_collection k _)
      fun as hfault₁ has => collection_whole hfault₁ k has
  | slot x => exact fun _ hfault hframe hx => .pure hfault (hframe x hx)
  | load c => exact fun hm hfault _ _ => load_whole hm hfault c
  | call f cs ihf ih =>
    rintro m scope frame hm hfault hframe ⟨hf, hcs⟩
    have hle := leads_eval hgrows f frame m
    refine (ihf hm hfault hframe hf).bind
      (fun a => (leads_evalAll hgrows cs frame).bind fun as => hgrows a as) fun a hfault₁ ha => ?_
    have hle₁ := leads_evalAll hgrows cs frame (f.eval call frame m).2
    refine (evalAll_whole_of hgrows ih (hm.of_le hle) hfault₁ (hframe.of_le hle.1) hcs).bind
      (fun as => hgrows a as) fun as hfault₂ has => ?_
    exact hcall ((hm.of_le hle).of_le hle₁) hfault₂ (ha.of_le hle₁.1) has
  | letIn bs c ihbs ihc =>
    rintro m scope frame hm hfault hframe ⟨hbs, hc⟩
    have hle := leads_evalBindings hgrows bs frame m
    exact (evalBindings_whole_of hgrows ihbs hm hfault hframe hbs).bind
      (fun inner => leads_eval hgrows c inner) fun inner hfault₁ hinner =>
        ihc (hm.of_le hle) hfault₁ hinner hc
  | ite t a b iht iha ihb =>
    rintro m scope frame hm hfault hframe ⟨ht, ha, hb⟩
    have hle := leads_eval hgrows t frame m
    have hbranch : ∀ v, Grows (if v = trueAddr then a.eval call frame else b.eval call frame) := by
      intro v
      split
      · exact leads_eval hgrows a frame
      · exact leads_eval hgrows b frame
    refine (iht hm hfault hframe ht).bind hbranch fun v hfault₁ _ => ?_
    split
    · exact iha (hm.of_le hle) hfault₁ (hframe.of_le hle.1) ha
    · exact ihb (hm.of_le hle) hfault₁ (hframe.of_le hle.1) hb
  | closure ps xs c ih =>
    rintro m scope frame hm hfault hframe ⟨hxs, hc⟩
    refine alloc_whole hfault ⟨by simp, rfl, by simp, hc⟩ fun a ha => ?_
    obtain ⟨x, hx, rfl⟩ : ∃ x ∈ xs, frame.get x = a := by simpa [Object.children] using ha
    exact hframe x (hxs hx)

end Code

/-! ## Calls -/

theorem FnObject.run_whole {call : Addr → List Addr → Run Addr}
    (hgrows : ∀ f args, Grows (call f args)) (hcall : CallsWhole call) (hm : m.Whole)
    (hfault : m.fault = none) {f : FnObject} (hf : (Object.fn f).Complete)
    (hcaptures : ∀ a ∈ (Object.fn f).children, m.heap.Whole a) (hlen : f.arity = args.length)
    (hargs : ∀ a ∈ args, m.heap.Whole a) : YieldsWhole (f.run call args) m := by
  obtain ⟨hset, htakes⟩ := hf
  unfold FnObject.run
  cases hbody : f.body with
  | builtin b =>
    rw [hbody] at htakes
    exact (b.native_effect args).run_whole hm hfault (b.run_eq args) (hlen.symm.trans htakes) hargs
  | host fn =>
    rw [hbody] at htakes
    exact (fn.native_effect args).run_whole hm hfault (fn.run_eq args) (hlen.symm.trans htakes) hargs
  | construct l =>
    exact alloc_whole hfault (by simp [Object.Complete]) (by simpa [Object.children] using hargs)
  | code params captured body =>
    rw [hbody] at htakes
    obtain ⟨harity, hcaptured, hscope⟩ := htakes
    exact Code.eval_whole hgrows hcall body hm hfault
      (.start (harity.symm.trans hlen) hcaptured.symm hargs hset hcaptures) hscope
  | empty =>
    rw [hbody] at htakes
    exact htakes.elim

theorem enter_whole (hfault : m.fault = none) {a : Addr} (ha : m.heap.Whole a) (depth argc : Nat) :
    Yields Fault.Reported (enter (depth + 1) a argc) m
      fun _ r => ∃ f, r = some f ∧ m.heap.get? a = some (.fn f) ∧ f.arity = argc := by
  have hpending : faultPending m = (false, m) := by rw [faultPending, hfault]; rfl
  have hrefuse : ∀ {f : Fault} {act : Run (Option FnObject)} {Q : Heap → Option FnObject → Prop},
      f.Reported → act m = (do let _ ← raise f; return none : Run (Option FnObject)) m →
      Yields Fault.Reported act m Q := fun hf heq => .of_eq heq (raise_bind_yields hfault hf none)
  cases ha with
  | @intro _ o hget ho _ =>
    cases o with
    | fn f =>
      by_cases harity : f.arity = argc
      · have henter : enter (depth + 1) a argc m = (pure (some f) : Run (Option FnObject)) m :=
          enter_eq hfault hget harity depth
        exact .of_eq henter (.pure hfault ⟨f, rfl, hget, harity⟩)
      · refine hrefuse (f := .arity f.name f.arity argc) (by rintro ⟨⟩) ?_
        simp only [enter, Run.bind_of_eq hpending, Bool.false_eq_true, if_false,
          Nat.add_one_ne_zero, Run.bind_of_eq (object_eq hget), if_neg harity]
    | fault => exact ho.elim
    | _ =>
      have hkind : ∃ kind, enter (depth + 1) a argc m =
          (do let _ ← raise (.notAFunction kind); return none : Run (Option FnObject)) m := by
        simp only [enter, Run.bind_of_eq hpending, Bool.false_eq_true, if_false,
          Nat.add_one_ne_zero, Run.bind_of_eq (object_eq hget)]
        exact ⟨_, rfl⟩
      obtain ⟨kind, hkind⟩ := hkind
      exact hrefuse (f := .notAFunction kind) (by rintro ⟨⟩) hkind

/-- **A call keeps to whole objects**, whatever number of calls may still be nested in it. -/
theorem call_whole (depth : Nat) : CallsWhole (call depth) := by
  induction depth with
  | zero =>
    intro m a args hm hfault ha hargs
    refine .of_eq ?_ (.raise (f := .stackOverflow) hfault (by rintro ⟨⟩))
    show (faultAddr, (enter 0 a args.length m).2) = _
    rw [enter_zero hfault]
    rfl
  | succ depth ih =>
    intro m a args hm hfault ha hargs
    have henter := enter_whole hfault ha depth args.length
    have hsame := leads_enter (R := LE.le) (depth + 1) a args.length m
    refine henter.bind (fun r => ?_) ?_
    · split
      · exact FnObject.grows_run (grows_call depth) _ args
      · exact .pure _
    · rintro _ hfault₁ ⟨f, rfl, hget, harity⟩
      obtain ⟨hcomplete, hchildren⟩ := ha.object
      rw [Heap.object_of_get? hget] at hcomplete hchildren
      exact FnObject.run_whole (grows_call depth) ih (hm.of_le hsame) hfault₁ hcomplete
        (fun c hc => (hchildren c hc).of_le hsame.1) harity fun c hc => (hargs c hc).of_le hsame.1

end TypedLisp
