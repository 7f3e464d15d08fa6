import TypedLisp.Proofs.Runtime.Operations

/-!
# Typed code is safe

Code of a type that runs on a typed machine ends with a benign fault, or with none and with an
object that inhabits the type (`Code.eval_yields`, `call_yields`). The first is by induction on the
code and takes calls as given, the second by induction on how many calls may still be nested.
-/

namespace TypedLisp

open Machine Run

variable {W : StoreTypes} {m : Machine}

/-- Whether calls go well: the called function and the arguments inhabit matching types. -/
def CallsYield (W : StoreTypes) (call : Addr → List Addr → Run Addr) : Prop :=
  ∀ {m : Machine} {f : Addr} {args : List Addr} {ts : List Ty} {r : Ty}, m.Typed W →
    m.fault = none → Inhabits W m.heap f (.fn ts r) → InhabitAll W m.heap args ts →
    Yields Fault.Benign (call f args) m fun h a => Inhabits W h a r

/-! ## Frames -/

namespace Frame

/-- Whether the locals of a frame inhabit the types at which they may be used. -/
def Fits (W : StoreTypes) (h : Heap) (Γ : LocalTypes) (frame : Frame) : Prop :=
  ∀ x t, Γ x t → Inhabits W h (frame.get x) t

variable {h h' : Heap} {Γ : LocalTypes} {frame : Frame}

theorem Fits.of_le (hframe : frame.Fits W h Γ) (hle : h ≤ h') : frame.Fits W h' Γ :=
  fun x t ht => (hframe x t ht).of_le hle

theorem get_cons_self (x : Local) (a : Addr) (frame : Frame) :
    Frame.get ((x, a) :: frame) x = a := by
  simp [Frame.get]

theorem get_cons_of_ne {x y : Local} (hyx : y ≠ x) (a : Addr) (frame : Frame) :
    Frame.get ((x, a) :: frame) y = frame.get y := by
  rw [Frame.get, lookup_cons_of_ne hyx]
  rfl

theorem Fits.bind (hframe : frame.Fits W h Γ) {x : Local} {a : Addr} {S : Ty → Prop}
    (ha : ∀ t, S t → Inhabits W h a t) : Fits W h (Γ.bind x S) ((x, a) :: frame) := by
  rintro y t (⟨rfl, ht⟩ | ⟨hyx, ht⟩)
  · rw [get_cons_self]
    exact ha t ht
  · rw [get_cons_of_ne hyx]
    exact hframe y t ht

theorem rel_lookup_zip {α β : Type} {R : α → β → Prop} {as : List α} {bs : List β}
    (h : List.Forall₂ R as bs) (xs : List Local) (x : Local) :
    Option.Rel R ((xs.zip as).lookup x) ((xs.zip bs).lookup x) := by
  induction h generalizing xs with
  | nil => cases xs <;> exact .none
  | cons hab _ ih =>
    cases xs with
    | nil => exact .none
    | cons y ys =>
      by_cases hx : x = y
      · subst hx
        simpa using Option.Rel.some hab
      · rw [List.zip_cons_cons, List.zip_cons_cons, lookup_cons_of_ne hx, lookup_cons_of_ne hx]
        exact ih ys

theorem Fits.start {params captured : List Local} {args : List Addr} {ts : List Ty}
    {captures : List (Option Addr)} (hargs : InhabitAll W h args ts)
    (hcaptured : Fits W h Γ (captured.zip (captures.map (·.getD faultAddr)))) :
    Fits W h (Γ.enter params ts) (startFrame params captured args captures) := by
  intro x t ht
  have hrel := rel_lookup_zip hargs params x
  rw [startFrame, Frame.get, List.lookup_append]
  rcases ht with ht | ⟨hnone, ht⟩
  · rw [ht] at hrel
    cases ha : (params.zip args).lookup x with
    | none => rw [ha] at hrel; cases hrel
    | some a =>
      rw [ha] at hrel
      cases hrel with
      | some hat => exact hat
  · rw [hnone] at hrel
    cases ha : (params.zip args).lookup x with
    | none => exact hcaptured x t ht
    | some a => rw [ha] at hrel; cases hrel

theorem get_captures {captures : List Local} {x : Local} (hx : x ∈ captures) (frame : Frame) :
    Frame.get (captures.zip ((captures.map fun y => some (frame.get y)).map (·.getD faultAddr))) x =
      frame.get x := by
  induction captures with
  | nil => cases hx
  | cons y ys ih =>
    by_cases hxy : x = y
    · subst hxy
      exact get_cons_self ..
    · exact (get_cons_of_ne hxy ..).trans (ih ((List.mem_cons.1 hx).resolve_left hxy))

end Frame

/-! ## Code -/

theorem Machine.load_yields (hm : m.Typed W) (hfault : m.fault = none) {c : Cell}
    {t u : Ty} (hu : W.cell c.id = some u) (ht : t.InstanceOf u) :
    Yields Fault.Benign (load c) m fun h a => Inhabits W h a t := by
  have hget : (get : Run Machine) m = (m, m) := rfl
  cases hcell : m.cell? c with
  | none =>
    have heq : load c m = raise (.unboundVar c.name) m := by
      simp only [load, Run.bind_of_eq hget, hcell]
    exact .of_eq heq (.raise hfault trivial)
  | some a =>
    have heq : load c m = (pure a : Run Addr) m := by
      simp only [load, Run.bind_of_eq hget, hcell]
    exact .of_eq heq (.pure hfault ((hm.cells c.id u a hu hcell).instanceOf ht))

namespace Code

variable {call : Addr → List Addr → Run Addr} {m : Machine} {Γ : LocalTypes} {frame : Frame}

/-- Whether running code of a type goes well. -/
def EvalYields (W : StoreTypes) (call : Addr → List Addr → Run Addr) (c : Code) : Prop :=
  ∀ {m : Machine} {Γ : LocalTypes} {frame : Frame} {t : Ty}, m.Typed W → m.fault = none →
    frame.Fits W m.heap Γ → c.HasType W.cell Γ t →
    Yields Fault.Benign (c.eval call frame) m fun h a => Inhabits W h a t

theorem evalAll_yields_of (hgrows : ∀ f args, Grows (call f args)) {cs : List Code}
    (hcs : ∀ c ∈ cs, EvalYields W call c) (hm : m.Typed W) (hfault : m.fault = none)
    (hframe : frame.Fits W m.heap Γ) {ts : List Ty} (hts : HaveTypes W.cell Γ cs ts) :
    Yields Fault.Benign (evalAll call frame cs) m fun h as => InhabitAll W h as ts := by
  induction cs generalizing m ts with
  | nil =>
    obtain rfl := hts
    exact .pure hfault .nil
  | cons c cs ih =>
    obtain ⟨hc, hcs⟩ := List.forall_mem_cons.1 hcs
    obtain ⟨t, us, rfl, ht, hus⟩ := hts
    have hle := leads_eval hgrows c frame m
    refine (hc hm hfault hframe ht).bind
      (fun _ => (leads_evalAll hgrows cs frame).bind fun _ => .pure _) fun a hfault₁ ha => ?_
    have hle₁ := leads_evalAll hgrows cs frame (c.eval call frame m).2
    refine (ih hcs (hm.of_le hle) hfault₁ (hframe.of_le hle.1) hus).bind (fun _ => .pure _)
      fun as hfault₂ has => ?_
    exact .pure hfault₂ (.cons (ha.of_le hle₁.1) has)

/-- A local bound by `let` is used at several types, all of which its object inhabits, since there
is one run of the code it is bound to. -/
theorem evalBindings_yields_of (hgrows : ∀ f args, Grows (call f args))
    {bs : List (Local × Code)} (hbs : ∀ b ∈ bs, EvalYields W call b.2) (hm : m.Typed W)
    (hfault : m.fault = none) (hframe : frame.Fits W m.heap Γ) {Γ' : LocalTypes}
    (hΓ : Binds W.cell Γ bs Γ') :
    Yields Fault.Benign (evalBindings call frame bs) m fun h inner => inner.Fits W h Γ' := by
  induction bs generalizing m Γ frame with
  | nil =>
    obtain rfl : Γ' = Γ := hΓ
    exact .pure hfault hframe
  | cons b bs ih =>
    obtain ⟨x, c⟩ := b
    obtain ⟨hb, hbs⟩ := List.forall_mem_cons.1 hbs
    obtain ⟨S, ⟨t₀, ht₀⟩, hS, hΓ⟩ := hΓ
    have hle := leads_eval hgrows c frame m
    have hall : Yields Fault.Benign (c.eval call frame) m fun h a => ∀ t, S t → Inhabits W h a t :=
      ⟨(hb hm hfault hframe (hS t₀ ht₀)).allowed,
        fun hnone t ht => (hb hm hfault hframe (hS t ht)).result hnone⟩
    refine hall.bind (fun _ => leads_evalBindings hgrows bs _) fun a hfault₁ ha => ?_
    exact ih hbs (hm.of_le hle) hfault₁ ((hframe.of_le hle.1).bind ha) hΓ

/-- **Code of a type runs to an object that inhabits the type**, unless there is a benign fault. -/
theorem eval_yields (hgrows : ∀ f args, Grows (call f args)) (hcall : CallsYield W call) (c : Code) :
    EvalYields W call c := by
  induction c with
  | literal v =>
    rintro m Γ frame _ hm hfault hframe rfl
    exact literal_yields hm hfault v
  | collection k cs ih =>
    rintro m Γ frame t hm hfault hframe ⟨ts, hts, ht⟩
    refine (evalAll_yields_of hgrows ih hm hfault hframe hts).bind (fun _ => leads_collection k _) ?_
    exact fun as hfault₁ has => collection_yields hfault₁ has ht
  | slot x => exact fun hm hfault hframe ht => .pure hfault (hframe x _ ht)
  | load c => exact fun hm hfault hframe ⟨u, hu, ht⟩ => load_yields hm hfault hu ht
  | call f cs ihf ih =>
    rintro m Γ frame t hm hfault hframe ⟨ts, hf, hts⟩
    have hle := leads_eval hgrows f frame m
    refine (ihf hm hfault hframe hf).bind
      (fun a => (leads_evalAll hgrows cs frame).bind fun as => hgrows a as) fun a hfault₁ ha => ?_
    have hle₁ := leads_evalAll hgrows cs frame (f.eval call frame m).2
    refine (evalAll_yields_of hgrows ih (hm.of_le hle) hfault₁ (hframe.of_le hle.1) hts).bind
      (fun as => hgrows a as) fun as hfault₂ has => ?_
    exact hcall ((hm.of_le hle).of_le hle₁) hfault₂ (ha.of_le hle₁.1) has
  | letIn bs c ihbs ihc =>
    rintro m Γ frame t hm hfault hframe ⟨Γ', hbs, hc⟩
    have hle := leads_evalBindings hgrows bs frame m
    refine (evalBindings_yields_of hgrows ihbs hm hfault hframe hbs).bind
      (fun inner => leads_eval hgrows c inner) fun inner hfault₁ hinner => ?_
    exact ihc (hm.of_le hle) hfault₁ hinner hc
  | ite t a b iht iha ihb =>
    rintro m Γ frame r hm hfault hframe ⟨ht, ha, hb⟩
    have hle := leads_eval hgrows t frame m
    have hbranch : ∀ v, Grows (if v = trueAddr then a.eval call frame else b.eval call frame) := by
      intro v
      split
      · exact leads_eval hgrows a frame
      · exact leads_eval hgrows b frame
    refine (iht hm hfault hframe ht).bind hbranch fun v hfault₁ _ => ?_
    split
    · exact iha (hm.of_le hle) hfault₁ (hframe.of_le hle.1) ha
    · exact ihb (hm.of_le hle) hfault₁ (hframe.of_le hle.1) hb
  | closure ps xs c ih =>
    rintro m Γ frame _ hm hfault hframe ⟨ts, r, rfl, hlen, hc⟩
    refine .alloc hfault fun h a hle ha => .code ha rfl rfl hlen (fun x t ht => ?_) hc
    have hget := Frame.get_captures ht.1 frame
    exact hget ▸ (hframe x t ht.2).of_le hle

end Code

/-! ## Calls -/

theorem FnObject.run_yields {call : Addr → List Addr → Run Addr}
    (hgrows : ∀ f args, Grows (call f args)) (hcall : CallsYield W call)
    (hm : m.Typed W) (hfault : m.fault = none) {a : Addr} {f : FnObject} {args : List Addr}
    {ts : List Ty} {r : Ty} (hf : m.heap.get? a = some (.fn f))
    (ha : Inhabits W m.heap a (.fn ts r)) (hargs : InhabitAll W m.heap args ts) :
    Yields Fault.Benign (f.run call args) m fun h a => Inhabits W h a r := by
  unfold FnObject.run
  cases ha with
  | @builtin _ _ b g _ _ ha hbody _ ht =>
    cases hf.symm.trans ha
    rw [hbody]
    exact Builtin.run_yields hm hfault ht hargs
  | @host _ _ fn _ _ ha hbody _ ht =>
    cases hf.symm.trans ha
    rw [hbody]
    exact HostFn.run_yields trivial hfault ht hargs
  | @construct _ _ d c tag g ha hbody _ hd hc =>
    cases hf.symm.trans ha
    rw [hbody]
    obtain ⟨hlen, hfields⟩ := List.forall₂_iff_zip.1 (List.forall₂_map_right_iff.1 hargs)
    exact .alloc hfault fun h a hle ha =>
      .variant ha hd hc hlen (fun p hp => (hfields hp).of_le hle) rfl
  | @code _ _ params captured body Γ _ _ ha hbody _ _ hcaptured hcode =>
    cases hf.symm.trans ha
    rw [hbody]
    exact Code.eval_yields hgrows hcall body hm hfault (.start hargs hcaptured) hcode
  | @variant _ d _ _ _ g _ _ _ _ _ _ ht => obtain h | ⟨_, h⟩ := d.ty_bind g <;> cases ht.trans h

theorem enter_eq (hfault : m.fault = none) {a : Addr} {f : FnObject} {argc : Nat}
    (hf : m.heap.get? a = some (.fn f)) (harity : f.arity = argc) (depth : Nat) :
    enter (depth + 1) a argc m = (some f, m) := by
  have hpending : faultPending m = (false, m) := by rw [faultPending, hfault]; rfl
  simp only [enter, Run.bind_of_eq hpending, Bool.false_eq_true, if_false, Nat.add_one_ne_zero,
    Run.bind_of_eq (object_eq hf), if_pos harity]
  rfl

theorem enter_zero (hfault : m.fault = none) (a : Addr) (argc : Nat) :
    enter 0 a argc m = (none, m.record .stackOverflow) := by
  have hpending : faultPending m = (false, m) := by rw [faultPending, hfault]; rfl
  simp only [enter, Run.bind_of_eq hpending, Bool.false_eq_true, if_false, if_true]
  rfl

/-- **A call goes well**, whatever number of calls may still be nested in it. -/
theorem call_yields (depth : Nat) : CallsYield W (call depth) := by
  induction depth with
  | zero =>
    intro m a args ts r hm hfault ha hargs
    refine .of_eq ?_ (.raise (f := .stackOverflow) hfault trivial)
    show (faultAddr, (enter 0 a args.length m).2) = _
    rw [enter_zero hfault]
    rfl
  | succ depth ih =>
    intro m a args ts r hm hfault ha hargs
    obtain ⟨f, hf, harity⟩ := ha.exists_fn
    have henter := enter_eq hfault hf (harity.trans hargs.length_eq.symm) depth
    have heq : call (depth + 1) a args m = f.run (call depth) args m := Run.bind_of_eq henter
    exact .of_eq heq (FnObject.run_yields (grows_call depth) ih hm hfault hf ha hargs)

end TypedLisp
