import TypedLisp.Proofs.Closures.Environment
import TypedLisp.Proofs.Machine.Matching
import TypedLisp.Proofs.Renumbering.Expressions

/-!
# Code and environments

The code of an expression does on a machine what the expression does in an environment
(`agrees_eval`, `agrees_call`): both make the same objects at the same addresses and end with the
same fault. Where the machine has a function made of code, the store has a closure over the
expression that the code came from, and the two agree on the locals that the code captured
(`Closures.Fn`).
-/

namespace TypedLisp

/-! ## Functions and closures -/

/-- Whether a function stands for the one at an address, where a closure stands for a function made
of code: the code is that of the closure's body, and each captured local has its value from the
environment of the closure. -/
inductive Closures.Fn (T : List (Addr × EnvClosure)) (a : Addr) : FnObject → FnObject → Prop where
  | native {f : FnObject} (h : f.body.Native) : Fn T a f f
  | closure (name : String) {c : EnvClosure} {captured : List Local} {code : Code}
      (hc : T.lookup a = some c) (hcode : c.body.lower (c.params ++ captured) = .ok code)
      (hcaptured : ∀ x ∈ captured, (c.env.lookup x).isSome) :
      Fn T a ⟨name, c.params.length, .code c.params captured code,
        captured.map fun x => c.env.lookup x⟩ ⟨name, c.params.length, .empty, []⟩

theorem Closures.Fn.name_eq {T : List (Addr × EnvClosure)} {a : Addr} {f f' : FnObject}
    (h : Fn T a f f') : f'.name = f.name := by cases h <;> rfl

theorem Closures.Fn.arity_eq {T : List (Addr × EnvClosure)} {a : Addr} {f f' : FnObject}
    (h : Fn T a f f') : f'.arity = f.arity := by cases h <;> rfl

/-- The matching under which every object is where it is, and closures stand for functions made of
code. -/
def Matching.mirror (T : List (Addr × EnvClosure)) : Matching where
  addr := id
  addr_mono := strictMono_id
  addr_single := Matching.unmoved.addr_single
  fn := Closures.Fn T
  name_eq := Closures.Fn.name_eq
  arity_eq := Closures.Fn.arity_eq

theorem Matching.keepsNative_mirror (T : List (Addr × EnvClosure)) : (mirror T).KeepsNative :=
  fun h => .native h

namespace EnvStore

/-- A store comes after another one if its heap has grown and the closures there were are the
same. -/
instance : Preorder EnvStore where
  le σ τ := σ.machine.heap ≤ τ.machine.heap ∧
    ∀ a < σ.machine.heap.slots.size, τ.closures.lookup a = σ.closures.lookup a
  le_refl _ := ⟨le_refl _, fun _ _ => rfl⟩
  le_trans _ _ _ h₁ h₂ := ⟨le_trans h₁.1 h₂.1, fun a ha =>
    (h₂.2 a (Nat.lt_of_lt_of_le ha h₁.1.1)).trans (h₁.2 a ha)⟩

/-- Whether an object of a heap is in the store too, up to closures. -/
abbrev Has (σ : EnvStore) (h : Heap) (a : Addr) : Prop :=
  (Matching.mirror σ.closures).Found h σ.machine.heap a

/-- Whether a store does for a machine. -/
abbrev Mirrors (σ : EnvStore) (m : Machine) : Prop :=
  (Matching.mirror σ.closures).Machines m σ.machine

variable {σ τ : EnvStore} {h k : Heap} {m : Machine} {a : Addr}

theorem Has.of_le (ha : σ.Has h a) (hle : h ≤ k) (hσ : σ ≤ τ) : τ.Has k a := by
  induction ha with
  | @intro a o o' ha ha' ho hlt hchildren ih =>
    refine .intro (Heap.get?_of_le hle ha) (Heap.get?_of_le hσ.1 ha') ?_ hlt ih
    have hsize : a < σ.machine.heap.slots.size :=
      (Matching.Found.intro ha ha' ho hlt hchildren).addr_lt_size
    cases ho with
    | fn hf =>
      cases hf with
      | native hf => exact .fn (.native hf)
      | closure name hc hcode hcaptured =>
        exact .fn (.closure name ((hσ.2 a hsize).trans hc) hcode hcaptured)
    | bool b => exact .bool b
    | int n => exact .int n
    | str s => exact .str s
    | vector items => exact .vector items
    | set items => exact .set items
    | map entries => exact .map entries
    | variant l fields => exact .variant l fields
    | fault => exact .fault

theorem Mirrors.withClosures (hm : σ.Mirrors m) {T : List (Addr × EnvClosure)}
    (hT : ∀ a < σ.machine.heap.slots.size, T.lookup a = σ.closures.lookup a) :
    Mirrors ⟨σ.machine, T⟩ m where
  heaps := ⟨hm.heaps.next, hm.heaps.single, hm.heaps.single_right⟩
  cells_eq := hm.cells_eq
  found i a ha := Has.of_le (τ := ⟨σ.machine, T⟩) (hm.found i a ha) (le_refl _) ⟨le_refl _, hT⟩
  fault_eq := hm.fault_eq

end EnvStore

/-! ## Runs that agree -/

open EnvRun

/-- Whether an evaluation does what a machine does: it is not stuck, it leads to a store that does
for the machine again, and the results are as wanted. -/
def Agrees {α β : Type} (act : Run α) (ref : EnvRun β) (m : Machine) (σ : EnvStore)
    (Q : Heap → EnvStore → α → β → Prop) : Prop :=
  ∃ y τ, ref σ = (.ok y, τ) ∧ τ.Mirrors (act m).2 ∧ m.heap ≤ (act m).2.heap ∧ σ ≤ τ ∧
    Q (act m).2.heap τ (act m).1 y

/-- Whether an address is that of an object that both have. -/
def Located (h : Heap) (σ : EnvStore) (a b : Addr) : Prop := b = a ∧ σ.Has h a

/-- The same for lists. -/
def LocatedAll (h : Heap) (σ : EnvStore) (as bs : List Addr) : Prop := bs = as ∧ ∀ a ∈ as, σ.Has h a

namespace Agrees

variable {α β γ δ : Type} {m : Machine} {σ : EnvStore} {Q : Heap → EnvStore → α → β → Prop}
  {Q' : Heap → EnvStore → γ → δ → Prop}

theorem pure (hm : σ.Mirrors m) {x : α} {y : β} (h : Q m.heap σ x y) :
    Agrees (Pure.pure x) (Pure.pure y) m σ Q := ⟨y, σ, rfl, hm, le_refl _, le_refl _, h⟩

theorem bind {act : Run α} {ref : EnvRun β} {k : α → Run γ} {k' : β → EnvRun δ}
    (h : Agrees act ref m σ Q)
    (hk : ∀ n τ x y, EnvStore.Mirrors τ n → m.heap ≤ n.heap → σ ≤ τ → Q n.heap τ x y →
      Agrees (k x) (k' y) n τ Q') :
    Agrees (act >>= k) (ref >>= k') m σ Q' := by
  obtain ⟨y, τ, href, hm, hle, hσ, hy⟩ := h
  obtain ⟨z, υ, hz, hm', hle', hσ', hQ⟩ := hk _ τ _ y hm hle hσ hy
  exact ⟨z, υ, (bind_ok href).trans hz, hm', le_trans hle hle', le_trans hσ hσ', hQ⟩

theorem get_bind {act : Run α} {k : EnvStore → EnvRun β} (h : Agrees act (k σ) m σ Q) :
    Agrees act (get >>= k) m σ Q := h

theorem lift_bind {act : Run α} {x : Except EnvError γ} {y : γ} {k : γ → EnvRun β}
    (hx : x = .ok y) (h : Agrees act (k y) m σ Q) : Agrees act (liftM x >>= k) m σ Q := by
  subst hx
  exact h

theorem onMachine {act : Run α} {act' : Run β} {P : Heap → Heap → α → β → Prop}
    (h : (Matching.mirror σ.closures).Tracks act act' m σ.machine P)
    (hQ : ∀ k n x y, P k (Machine.heap n) x y → Q k ⟨n, σ.closures⟩ x y) :
    Agrees act (EnvRun.onMachine act') m σ Q :=
  ⟨_, ⟨_, σ.closures⟩, rfl, h.machines, h.le, ⟨h.le_right, fun _ _ => rfl⟩, hQ _ _ _ _ h.result⟩

theorem address {act act' : Run Addr}
    (h : (Matching.mirror σ.closures).Tracks act act' m σ.machine
      (Matching.mirror σ.closures).Address) :
    Agrees act (EnvRun.onMachine act') m σ Located := .onMachine h fun _ _ _ _ h => h

end Agrees

/-- **A closure stands for a function made of code.** -/
theorem agrees_newClosure {m : Machine} {σ : EnvStore} (hm : σ.Mirrors m) (name : String)
    {c : EnvClosure} {captured : List Local} {code : Code}
    (hcode : c.body.lower (c.params ++ captured) = .ok code)
    (hcaptured : ∀ x ∈ captured, ∃ a, c.env.lookup x = some a ∧ σ.Has m.heap a) :
    Agrees (Machine.alloc (.fn ⟨name, c.params.length, .code c.params captured code,
      captured.map fun x => c.env.lookup x⟩)) (newClosure name c) m σ Located := by
  -- the next address is the same in both, and no closure had it before
  have hsize : m.heap.slots.size = σ.machine.heap.slots.size := hm.heaps.next 0
  let T := (σ.machine.heap.slots.size, c) :: σ.closures
  have hT : ∀ a < σ.machine.heap.slots.size, T.lookup a = σ.closures.lookup a := fun a ha =>
    lookup_cons_of_ne (Nat.ne_of_lt ha) _ _
  have hm' : EnvStore.Mirrors ⟨σ.machine, T⟩ m := hm.withClosures hT
  have hσ : σ ≤ ⟨σ.machine, T⟩ := ⟨le_refl _, hT⟩
  have hfn : Closures.Fn T m.heap.slots.size ⟨name, c.params.length, .code c.params captured code,
      captured.map fun x => c.env.lookup x⟩ ⟨name, c.params.length, .empty, []⟩ := by
    refine .closure name (hsize ▸ List.lookup_cons_self) hcode fun x hx => ?_
    obtain ⟨a, ha, -⟩ := hcaptured x hx
    rw [ha]
    rfl
  have htracks := Matching.Tracks.alloc hm' (.fn hfn) fun a ha => by
    obtain ⟨o, ho, ha⟩ := List.mem_filterMap.1 ha
    obtain ⟨x, hx, rfl⟩ := List.mem_map.1 ho
    obtain ⟨b, hb, hfound⟩ := hcaptured x hx
    obtain rfl : b = a := Option.some.inj (hb.symm.trans ha)
    exact EnvStore.Has.of_le hfound (le_refl _) hσ
  exact ⟨_, ⟨_, T⟩, rfl, htracks.machines, htracks.le, ⟨htracks.le_right, hT⟩, hsize.symm,
    htracks.result.2⟩

/-! ## Environments -/

theorem lookup_zip_map {α : Type} (g : Local → α) {x : Local} {xs : List Local} (hx : x ∈ xs) :
    (xs.zip (xs.map g)).lookup x = some (g x) := by
  induction xs with
  | nil => cases hx
  | cons y ys ih =>
    rw [List.map_cons, List.zip_cons_cons]
    by_cases hxy : x = y
    · subst hxy
      exact List.lookup_cons_self
    · rw [lookup_cons_of_ne hxy]
      exact ih ((List.mem_cons.1 hx).resolve_left hxy)

/-- Whether a frame and an environment agree on the locals in scope, and both have what these stand
for. -/
def EnvAgrees (scope : List Local) (frame env : Frame) (h : Heap) (σ : EnvStore) : Prop :=
  ∀ x ∈ scope, ∃ a, frame.lookup x = some a ∧ env.lookup x = some a ∧ σ.Has h a

namespace EnvAgrees

variable {scope : List Local} {frame env : Frame} {h k : Heap} {σ τ : EnvStore}

theorem of_le (henv : EnvAgrees scope frame env h σ) (hle : h ≤ k) (hσ : σ ≤ τ) :
    EnvAgrees scope frame env k τ := fun x hx => by
  obtain ⟨a, hframe, henv, ha⟩ := henv x hx
  exact ⟨a, hframe, henv, EnvStore.Has.of_le ha hle hσ⟩

theorem cons (henv : EnvAgrees scope frame env h σ) (x : Local) {a : Addr} (ha : σ.Has h a) :
    EnvAgrees (x :: scope) ((x, a) :: frame) ((x, a) :: env) h σ := fun y hy => by
  by_cases hyx : y = x
  · subst hyx
    exact ⟨a, List.lookup_cons_self, List.lookup_cons_self, ha⟩
  · rw [lookup_cons_of_ne hyx, lookup_cons_of_ne hyx]
    exact henv y ((List.mem_cons.1 hy).resolve_left hyx)

theorem of_subset {scope' : List Local} (henv : EnvAgrees scope frame env h σ)
    (hsub : scope' ⊆ scope) : EnvAgrees scope' frame env h σ := fun x hx => henv x (hsub hx)

/-- The frame of a function that starts agrees with the environment of its closure on the parameters
and the captured locals. -/
theorem start {params captured : List Local} {args : List Addr}
    (hlen : args.length = params.length) (hargs : ∀ a ∈ args, σ.Has h a)
    (hcaptured : ∀ x ∈ captured, ∃ a, env.lookup x = some a ∧ σ.Has h a) :
    EnvAgrees (params ++ captured)
      (startFrame params captured args (captured.map fun x => env.lookup x))
      (params.zip args ++ env) h σ := fun x hx => by
  rw [startFrame, List.map_map, List.lookup_append, List.lookup_append]
  cases hparam : (params.zip args).lookup x with
  | some a => exact ⟨a, rfl, rfl, hargs a (List.of_mem_zip (mem_of_lookup hparam)).2⟩
  | none =>
    have hnot : x ∉ params := fun hx => by
      have hkey : x ∈ (params.zip args).map Prod.fst := by
        rwa [List.map_fst_zip (Nat.le_of_eq hlen.symm)]
      obtain ⟨a, ha⟩ := exists_lookup_of_mem_keys hkey
      cases hparam.symm.trans ha
    have hx := (List.mem_append.1 hx).resolve_left hnot
    obtain ⟨a, ha, hfound⟩ := hcaptured x hx
    refine ⟨a, ?_, ha, hfound⟩
    rw [lookup_zip_map _ hx, Function.comp_apply, ha]
    rfl

end EnvAgrees

/-! ## Evaluation -/

/-- Whether a closure keeps at least the locals that it closes over. -/
def Keep.Sound (keep : Keep) : Prop :=
  ∀ {params : List Local} {body : Expr Ty} {env : Frame},
    (∀ x ∈ body.closedOver params, ∃ a, env.lookup x = some a) →
    ∃ kept, keep params body env = .ok kept ∧
      ∀ x ∈ body.closedOver params, kept.lookup x = env.lookup x

theorem Keep.sound_whole : Keep.whole.Sound := fun {_ _ env} _ => ⟨env, rfl, fun _ _ => rfl⟩

theorem Keep.sound_captured : Keep.captured.Sound := fun {params body env} h => by
  refine ⟨(body.closedOver params).zip ((body.closedOver params).map env.get), ?_, fun x hx => ?_⟩
  · unfold Keep.captured
    generalize body.closedOver params = captured at h
    induction captured with
    | nil => rfl
    | cons x xs ih =>
      obtain ⟨hx, hxs⟩ := List.forall_mem_cons.1 h
      obtain ⟨a, ha⟩ := hx
      have hfind : env.find x = .ok (env.get x) := by rw [Frame.find, Frame.get, ha]; rfl
      rw [List.mapM_cons, ih hxs, hfind]
      rfl
  · obtain ⟨a, ha⟩ := h x hx
    rw [lookup_zip_map _ hx, Frame.get, ha]
    rfl

/-- Whether calls agree. -/
def CallsAgree (call : Addr → List Addr → Run Addr) (ref : Addr → List Addr → EnvRun Addr) : Prop :=
  ∀ {m : Machine} {σ : EnvStore} {f : Addr} {args : List Addr}, σ.Mirrors m → σ.Has m.heap f →
    (∀ a ∈ args, σ.Has m.heap a) → Agrees (call f args) (ref f args) m σ Located

/-- Whether code agrees with an expression, where the locals in scope agree. -/
def CodeAgrees (keep : Keep) (call : Addr → List Addr → Run Addr)
    (ref : Addr → List Addr → EnvRun Addr) (scope : List Local) (e : Expr Ty) (code : Code) : Prop :=
  ∀ {m : Machine} {σ : EnvStore} {frame env : Frame}, σ.Mirrors m →
    EnvAgrees scope frame env m.heap σ →
    Agrees (code.eval call frame) (e.evalWith keep ref env) m σ Located

section Evaluation

variable {keep : Keep} {call : Addr → List Addr → Run Addr} {ref : Addr → List Addr → EnvRun Addr}
  {m : Machine} {σ : EnvStore}

section Parts

variable {scope : List Local} {frame env : Frame}

theorem agrees_evalAll_of {es : List (Expr Ty)} {codes : List Code}
    (hes : List.Forall₂ (CodeAgrees keep call ref scope) es codes) (hm : σ.Mirrors m)
    (henv : EnvAgrees scope frame env m.heap σ) :
    Agrees (Code.evalAll call frame codes) (Expr.evalAllWith keep ref env es) m σ LocatedAll := by
  induction hes generalizing m σ with
  | nil => exact .pure hm ⟨rfl, List.forall_mem_nil _⟩
  | cons he _ ih =>
    rw [Code.evalAll, Expr.evalAllWith]
    refine (he hm henv).bind ?_
    rintro n τ a _ hn hle hτ ⟨rfl, hfound⟩
    refine (ih hn (henv.of_le hle hτ)).bind ?_
    rintro n τ as _ hn hle hτ ⟨rfl, hall⟩
    exact .pure hn ⟨rfl, List.forall_mem_cons.2 ⟨EnvStore.Has.of_le hfound hle hτ, hall⟩⟩

theorem agrees_evalBindings_of {bs : List (Local × Expr Ty)} {codes : List (Local × Code)}
    (hbs : Expr.LetCode (CodeAgrees keep call ref) scope bs codes) (hm : σ.Mirrors m)
    (henv : EnvAgrees scope frame env m.heap σ) :
    Agrees (Code.evalBindings call frame codes) (Expr.evalBindingsWith keep ref env bs) m σ
      fun h σ frame env => EnvAgrees (bs.map Prod.fst ++ scope) frame env h σ := by
  induction hbs generalizing m σ frame env with
  | nil => exact .pure hm henv
  | @cons _ x _ _ _ _ he _ ih =>
    rw [Code.evalBindings, Expr.evalBindingsWith]
    refine (he hm henv).bind fun n τ a _ hn hle hτ ⟨ha, hfound⟩ => ?_
    subst ha
    obtain ⟨y, τ', hrun, hn', hle', hτ', hinner⟩ := ih hn ((henv.of_le hle hτ).cons x hfound)
    exact ⟨y, τ', hrun, hn', hle', hτ', hinner.of_subset fun y hy => by
      simpa [or_left_comm] using hy⟩

theorem agrees_apply_of (hcall : CallsAgree call ref) {callee : Run Addr} {callee' : EnvRun Addr}
    (hcallee : Agrees callee callee' m σ Located) {es : List (Expr Ty)} {codes : List Code}
    (hes : List.Forall₂ (CodeAgrees keep call ref scope) es codes)
    (henv : EnvAgrees scope frame env m.heap σ) :
    Agrees (do let f ← callee; call f (← Code.evalAll call frame codes))
      (do let f ← callee'; ref f (← Expr.evalAllWith keep ref env es)) m σ Located := by
  refine hcallee.bind fun n τ f _ hn hle hτ ⟨hf, hfound⟩ => ?_
  refine (agrees_evalAll_of hes hn (henv.of_le hle hτ)).bind
    fun n τ as _ hn hle hτ ⟨has, hall⟩ => ?_
  subst hf has
  exact hcall hn (EnvStore.Has.of_le hfound hle hτ) hall

end Parts

/-- **The code of an expression does what the expression does in an environment**, if calls do. -/
theorem agrees_eval (hkeep : keep.Sound) (hcall : CallsAgree call ref) {e : Expr Ty}
    {scope : List Local} {code : Code} (h : e.lower scope = .ok code) :
    CodeAgrees keep call ref scope e code := by
  refine Expr.lower_induction (P := CodeAgrees keep call ref)
    (fun v _ _ _ _ _ hm _ => .address (Matching.tracks_literal hm v)) ?_ ?_
    (fun v _ _ _ _ _ hm _ => .address (Matching.tracks_load hm v.cell)) ?_ ?_ ?_ ?_ ?_ h
  · intro scope es cs k _ hes m σ frame env hm henv
    rw [Code.eval, Expr.evalWith]
    refine (agrees_evalAll_of hes hm henv).bind fun n τ as _ hn _ _ ⟨has, hfound⟩ => ?_
    subst has
    have htracks := Matching.tracks_collection hn k hfound
    rw [show (Matching.mirror τ.closures).addr = id from rfl, List.map_id] at htracks
    exact .address htracks
  · intro scope x _ hx m σ frame env hm henv
    obtain ⟨a, hframe, henv, ha⟩ := henv _ hx
    have hget : frame.get x = a := by rw [Frame.get, hframe]; rfl
    have hfind : env.find x = .ok a := by rw [Frame.find, henv]
    rw [Code.eval, Expr.evalWith, hfind]
    exact .pure hm ⟨hget.symm, hget ▸ ha⟩
  · intro scope f c es cs _ hf hes m σ frame env hm henv
    rw [Code.eval, Expr.evalWith]
    exact agrees_apply_of hcall (hf hm henv) hes henv
  · intro scope v es cs _ _ hes m σ frame env hm henv
    rw [Code.eval, Expr.evalWith, Code.eval]
    exact agrees_apply_of hcall (.address (Matching.tracks_load hm v.cell)) hes henv
  · intro scope bs cs e c _ hbs he m σ frame env hm henv
    rw [Code.eval, Expr.evalWith]
    exact (agrees_evalBindings_of hbs hm henv).bind fun n τ inner inner' hn _ _ hinner =>
      he hn hinner
  · intro scope t a b ct ca cb _ ht ha hb m σ frame env hm henv
    rw [Code.eval, Expr.evalWith]
    refine (ht hm henv).bind fun n τ v _ hn hle hτ ⟨hv, _⟩ => ?_
    subst hv
    split
    · exact ha hn (henv.of_le hle hτ)
    · exact hb hn (henv.of_le hle hτ)
  · intro scope ps e c _ hsub hc _ m σ frame env hm henv
    -- the captured locals are in scope, so the environment has them and the closure keeps them
    have hcaptured : ∀ x ∈ e.closedOver ps, ∃ a, env.lookup x = some a := fun x hx => by
      obtain ⟨a, -, ha, -⟩ := henv x (hsub hx)
      exact ⟨a, ha⟩
    obtain ⟨kept, hkept, hlookup⟩ := hkeep hcaptured
    rw [Code.eval, Expr.evalWith]
    refine .lift_bind hkept ?_
    have hcaptures : (e.closedOver ps).map (fun x => some (frame.get x)) =
        (e.closedOver ps).map fun x => kept.lookup x := List.map_congr_left fun x hx => by
      obtain ⟨a, hframe, ha, -⟩ := henv x (hsub hx)
      rw [hlookup x hx, ha, Frame.get, hframe]
      rfl
    rw [hcaptures]
    refine agrees_newClosure (c := ⟨ps, e, kept⟩) hm "fn" hc fun x hx => ?_
    obtain ⟨a, -, ha, hfound⟩ := henv x (hsub hx)
    exact ⟨a, (hlookup x hx).trans ha, hfound⟩

/-! ## Calls -/

theorem agrees_native (hm : σ.Mirrors m) {a : Addr} {f : FnObject} (hf : f.body.Native)
    {args : List Addr} (hargs : ∀ a ∈ args, σ.Has m.heap a) :
    Agrees (f.run call args) (f.runWith keep ref a args) m σ Located := by
  have htracks := Matching.tracks_native hm hf rfl call call hargs
  rw [show (Matching.mirror σ.closures).addr = id from rfl, List.map_id] at htracks
  obtain ⟨name, arity, body, captures⟩ := f
  cases hf <;> exact .address htracks

/-- **A function does what the closure that stands for it does.** -/
theorem agrees_run (hkeep : keep.Sound) (hcall : CallsAgree call ref) (hm : σ.Mirrors m) {a : Addr}
    {f f' : FnObject} (hf : Closures.Fn σ.closures a f f')
    (hcaptures : ∀ c ∈ f.captures.filterMap id, σ.Has m.heap c) {args : List Addr}
    (harity : f.arity = args.length) (hargs : ∀ a ∈ args, σ.Has m.heap a) :
    Agrees (f.run call args) (f'.runWith keep ref a args) m σ Located := by
  cases hf with
  | native hf => exact agrees_native hm hf hargs
  | @closure name c captured code hc hcode hcaptured =>
    refine .get_bind ?_
    rw [hc]
    refine agrees_eval hkeep hcall hcode hm (.start harity.symm hargs fun x hx => ?_)
    obtain ⟨b, hb⟩ := Option.isSome_iff_exists.1 (hcaptured x hx)
    have hmem : some b ∈ captured.map fun x => c.env.lookup x := List.mem_map.2 ⟨x, hx, hb⟩
    exact ⟨b, hb, hcaptures b (List.mem_filterMap.2 ⟨some b, hmem, rfl⟩)⟩

theorem agrees_enter (hm : σ.Mirrors m) {f : Addr} (hf : σ.Has m.heap f) (depth argc : Nat) :
    Agrees (Machine.enter depth f argc) (onMachine (Machine.enter depth f argc)) m σ
      fun h σ => (Matching.mirror σ.closures).Entered h σ.machine.heap f argc :=
  .onMachine (Matching.tracks_enter hm hf depth argc) fun _ _ _ _ h => h

end Evaluation

/-- **A call does the same in the store**, whatever number of calls may still be nested in it. -/
theorem agrees_call {keep : Keep} (hkeep : keep.Sound) (depth : Nat) :
    CallsAgree (call depth) (callWith keep depth) := by
  induction depth with
  | zero =>
    intro m σ f args hm hf hargs
    exact (agrees_enter hm hf 0 args.length).bind fun n τ _ _ hn _ _ _ =>
      .pure hn ⟨rfl, hn.heaps.found_faultAddr⟩
  | succ depth ih =>
    intro m σ f args hm hf hargs
    refine (agrees_enter hm hf (depth + 1) args.length).bind fun n τ _ _ hn hle hτ hfn => ?_
    cases hfn with
    | none => exact .pure hn ⟨rfl, hn.heaps.found_faultAddr⟩
    | some _ _ hfn harity hc =>
      exact agrees_run hkeep ih hn hfn hc harity fun a ha => EnvStore.Has.of_le (hargs a ha) hle hτ

end TypedLisp
