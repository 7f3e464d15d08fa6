import TypedLisp.Proofs.Machine.Matching
import TypedLisp.Proofs.Renumbering.Expressions

/-!
# Running code under other numbers

Code with its locals renumbered does the same as the code, on a machine where the objects made from
some point on have other addresses (`Matching.tracks_eval`, `Matching.tracks_call`). Functions made
at different times may be renumbered in different ways: what a local is called matters only inside
the function that has it.
-/

namespace TypedLisp

/-! ## Functions -/

/-- Whether the body of one function is that of another one with its locals renumbered. -/
inductive FnBody.Renumbered : FnBody → FnBody → Prop where
  | builtin (b : Builtin) : Renumbered (.builtin b) (.builtin b)
  | host (h : HostFn) : Renumbered (.host h) (.host h)
  | construct (l : Layout) : Renumbered (.construct l) (.construct l)
  | code (ρ : Renumbering) (params captured : List Local) (body : Code) :
      Renumbered (.code params captured body)
        (.code (params.map ρ.onLocal) (captured.map ρ.onLocal) (ρ.onCode body))
  | empty : Renumbered .empty .empty

/-- Whether one function is another one with its locals renumbered and its captures moved. -/
structure FnObject.Renumbered (addr : Addr → Addr) (f f' : FnObject) : Prop where
  name_eq : f'.name = f.name
  arity_eq : f'.arity = f.arity
  captures_eq : f'.captures = f.captures.map (Option.map addr)
  body : f.body.Renumbered f'.body

theorem FnBody.Renumbered.refl (b : FnBody) : b.Renumbered b := by
  cases b with
  | code params captured body =>
    have h := FnBody.Renumbered.code .id params captured body
    rwa [Renumbering.map_onLocal_id, Renumbering.map_onLocal_id, Renumbering.onCode_id] at h
  | _ => constructor

namespace Matching

variable {μ : Matching}

/-- Whether functions stand for one another if they are the same up to numbers and addresses. -/
def Renumbers (μ : Matching) : Prop :=
  ∀ {a : Addr} {f f' : FnObject}, μ.fn a f f' ↔ f.Renumbered μ.addr f'

theorem Renumbers.keepsNative (hμ : μ.Renumbers) : μ.KeepsNative := fun h => by
  refine hμ.2 ⟨rfl, rfl, rfl, ?_⟩
  cases h <;> constructor

theorem Renumbers.sameCaptures (hμ : μ.Renumbers) : μ.SameCaptures :=
  fun h => (hμ.1 h).captures_eq

/-- The matching under which the addresses from `cut` on are moved up by `gap`. -/
def shifted (cut gap : Nat) (hcut : faultAddr < cut) : Matching where
  addr := shift cut gap
  addr_mono := strictMono_shift cut gap
  addr_single _ ha := shift_of_lt (Nat.lt_of_le_of_lt ha hcut) gap
  fn _ := FnObject.Renumbered (shift cut gap)
  name_eq h := h.name_eq
  arity_eq h := h.arity_eq

theorem renumbers_shifted {cut gap : Nat} {hcut : faultAddr < cut} :
    (shifted cut gap hcut).Renumbers := Iff.rfl

/-! ## Frames -/

variable {m m' : Machine} {h h' k k' : Heap}

/-- Whether one frame is another one with its locals renumbered, and what it holds is found in both
heaps. -/
structure Frames (μ : Matching) (ρ : Renumbering) (h h' : Heap) (frame frame' : Frame) : Prop where
  eq : frame' = frame.map fun e => (ρ.onLocal e.1, μ.addr e.2)
  found : ∀ e ∈ frame, μ.Found h h' e.2

namespace Frames

variable {ρ : Renumbering} {frame frame' : Frame}

theorem of_le (hframe : μ.Frames ρ h h' frame frame') (hle : h ≤ k) (hle' : h' ≤ k') :
    μ.Frames ρ k k' frame frame' :=
  ⟨hframe.eq, fun e he => (hframe.found e he).of_le hle hle'⟩

theorem get_eq (hframe : μ.Frames ρ h h' frame frame') (x : Local) :
    frame'.get (ρ.onLocal x) = μ.addr (frame.get x) := by
  rw [hframe.eq, Frame.get, lookup_map_of_injective ρ.onLocal_injective, Frame.get]
  cases frame.lookup x with
  | none => exact μ.addr_faultAddr.symm
  | some a => rfl

theorem found_get (hframe : μ.Frames ρ h h' frame frame') (hh : μ.Heaps h h') (x : Local) :
    μ.Found h h' (frame.get x) := by
  rw [Frame.get]
  cases hx : frame.lookup x with
  | none => exact hh.found_faultAddr
  | some a => exact hframe.found _ (mem_of_lookup hx)

theorem cons (hframe : μ.Frames ρ h h' frame frame') (x : Local) {a : Addr}
    (ha : μ.Found h h' a) : μ.Frames ρ h h' ((x, a) :: frame) ((ρ.onLocal x, μ.addr a) :: frame') :=
  ⟨by rw [hframe.eq]; rfl, List.forall_mem_cons.2 ⟨ha, hframe.found⟩⟩

/-- The parameters of a function stand for its arguments, and the captured locals for its
captures. -/
theorem start (hh : μ.Heaps h h') {params captured : List Local} {args : List Addr}
    {captures : List (Option Addr)} (hargs : ∀ a ∈ args, μ.Found h h' a)
    (hcaptures : ∀ c ∈ captures.filterMap id, μ.Found h h' c) :
    μ.Frames ρ h h' (startFrame params captured args captures)
      (startFrame (params.map ρ.onLocal) (captured.map ρ.onLocal) (args.map μ.addr)
        (captures.map (Option.map μ.addr))) := by
  have hslot : ∀ c : Option Addr, (c.map μ.addr).getD faultAddr = μ.addr (c.getD faultAddr) := by
    rintro (_ | a)
    · exact μ.addr_faultAddr.symm
    · rfl
  constructor
  · have hcaps : (captures.map (Option.map μ.addr)).map (·.getD faultAddr) =
        (captures.map (·.getD faultAddr)).map μ.addr := by
      simp only [List.map_map, Function.comp_def, hslot]
    rw [startFrame, hcaps, List.zip_map, List.zip_map, ← List.map_append]
    rfl
  · refine List.forall_mem_append.2 ⟨fun e he => hargs e.2 (List.of_mem_zip he).2, fun e he => ?_⟩
    obtain ⟨c, hc, heq⟩ := List.mem_map.1 (List.of_mem_zip he).2
    rw [← heq]
    cases c with
    | none => exact hh.found_faultAddr
    | some a => exact hcaptures a (List.mem_filterMap.2 ⟨_, hc, rfl⟩)

end Frames

/-! ## Code -/

/-- Whether calls on two machines track one another. -/
def CallsTrack (μ : Matching) (call call' : Addr → List Addr → Run Addr) : Prop :=
  ∀ {m m' : Machine} {f : Addr} {args : List Addr}, μ.Machines m m' → μ.Found m.heap m'.heap f →
    (∀ a ∈ args, μ.Found m.heap m'.heap a) →
    μ.Tracks (call f args) (call' (μ.addr f) (args.map μ.addr)) m m' μ.Address

/-- Whether code tracks itself with its locals renumbered. -/
def CodeTracks (μ : Matching) (call call' : Addr → List Addr → Run Addr) (c : Code) : Prop :=
  ∀ {m m' : Machine} {ρ : Renumbering} {frame frame' : Frame}, μ.Machines m m' →
    μ.Frames ρ m.heap m'.heap frame frame' →
    μ.Tracks (c.eval call frame) ((ρ.onCode c).eval call' frame') m m' μ.Address

section Code

variable {ρ : Renumbering} {call call' : Addr → List Addr → Run Addr}
  {frame frame' : Frame}

theorem tracks_evalAll_of {cs : List Code} (hcs : ∀ c ∈ cs, μ.CodeTracks call call' c)
    (hm : μ.Machines m m') (hframe : μ.Frames ρ m.heap m'.heap frame frame') :
    μ.Tracks (Code.evalAll call frame cs) (Code.evalAll call' frame' (cs.map ρ.onCode)) m m'
      μ.Addresses := by
  induction cs generalizing m m' with
  | nil => exact .pure hm ⟨rfl, List.forall_mem_nil _⟩
  | cons c cs ih =>
    obtain ⟨hc, hcs⟩ := List.forall_mem_cons.1 hcs
    rw [List.map_cons, Code.evalAll, Code.evalAll]
    refine (hc hm hframe).bind ?_
    rintro n n' a _ hn hle hle' ⟨rfl, hfound⟩
    refine (ih hcs hn (hframe.of_le hle hle')).bind ?_
    rintro n n' as _ hn hle hle' ⟨rfl, hall⟩
    exact .pure hn ⟨rfl, List.forall_mem_cons.2 ⟨hfound.of_le hle hle', hall⟩⟩

theorem tracks_evalBindings_of {bs : List (Local × Code)}
    (hbs : ∀ b ∈ bs, μ.CodeTracks call call' b.2) (hm : μ.Machines m m')
    (hframe : μ.Frames ρ m.heap m'.heap frame frame') :
    μ.Tracks (Code.evalBindings call frame bs)
      (Code.evalBindings call' frame' (bs.map fun b => (ρ.onLocal b.1, ρ.onCode b.2))) m m'
      fun h h' => μ.Frames ρ h h' := by
  induction bs generalizing m m' frame frame' with
  | nil => exact .pure hm hframe
  | cons b bs ih =>
    obtain ⟨x, c⟩ := b
    obtain ⟨hb, hbs⟩ := List.forall_mem_cons.1 hbs
    rw [List.map_cons, Code.evalBindings, Code.evalBindings]
    refine (hb hm hframe).bind fun n n' a _ hn hle hle' ⟨ha, hfound⟩ => ?_
    subst ha
    exact ih hbs hn ((hframe.of_le hle hle').cons x hfound)

end Code

/-- **Renumbered code does the same as the code**, if calls do. -/
theorem tracks_eval (hμ : μ.Renumbers) {call call' : Addr → List Addr → Run Addr}
    (hcall : μ.CallsTrack call call') (c : Code) : μ.CodeTracks call call' c := by
  induction c with
  | literal v => exact fun hm _ => tracks_literal hm v
  | collection kind cs ih =>
    intro m m' ρ frame frame' hm hframe
    rw [Renumbering.onCode, Renumbering.onCodes_eq_map, Code.eval, Code.eval]
    refine (tracks_evalAll_of ih hm hframe).bind ?_
    rintro n n' as _ hn - - ⟨rfl, hfound⟩
    exact tracks_collection hn kind hfound
  | slot x =>
    intro m m' ρ frame frame' hm hframe
    exact .pure hm ⟨hframe.get_eq x, hframe.found_get hm.heaps x⟩
  | load c => exact fun hm _ => tracks_load hm c
  | call f cs ihf ih =>
    intro m m' ρ frame frame' hm hframe
    rw [Renumbering.onCode, Renumbering.onCodes_eq_map, Code.eval, Code.eval]
    refine (ihf hm hframe).bind ?_
    rintro n n' a _ hn hle hle' ⟨rfl, hf⟩
    refine (tracks_evalAll_of ih hn (hframe.of_le hle hle')).bind ?_
    rintro n n' as _ hn hle hle' ⟨rfl, hfound⟩
    exact hcall hn (hf.of_le hle hle') hfound
  | letIn bs c ihbs ihc =>
    intro m m' ρ frame frame' hm hframe
    rw [Renumbering.onCode, Renumbering.onCodeBindings_eq_map, Code.eval, Code.eval]
    exact (tracks_evalBindings_of ihbs hm hframe).bind fun n n' inner inner' hn _ _ hinner =>
      ihc hn hinner
  | ite t a b iht iha ihb =>
    intro m m' ρ frame frame' hm hframe
    rw [Renumbering.onCode, Code.eval, Code.eval]
    refine (iht hm hframe).bind ?_
    rintro n n' v _ hn hle hle' ⟨rfl, -⟩
    -- `true` is a single object, so the test is the object `true` on both machines or on neither
    have htest : μ.addr v = trueAddr ↔ v = trueAddr := by
      rw [← μ.addr_injective.eq_iff (a := v), addr_trueAddr]
    simp only [htest]
    split
    · exact iha hn (hframe.of_le hle hle')
    · exact ihb hn (hframe.of_le hle hle')
  | closure ps xs c ih =>
    intro m m' ρ frame frame' hm hframe
    rw [Renumbering.onCode, Code.eval, Code.eval]
    refine .alloc hm (.fn (hμ.2 ⟨rfl, List.length_map _, ?_, .code ρ ps xs c⟩)) fun a ha => ?_
    · simp only [List.map_map]
      refine List.map_congr_left fun x _ => ?_
      exact congrArg some (hframe.get_eq x)
    · obtain ⟨x, -, rfl⟩ : ∃ x ∈ xs, frame.get x = a := by simpa [Object.children] using ha
      exact hframe.found_get hm.heaps x

/-! ## Calls -/

theorem tracks_run (hμ : μ.Renumbers) {call call' : Addr → List Addr → Run Addr}
    (hcall : μ.CallsTrack call call') (hm : μ.Machines m m') {a : Addr} {f f' : FnObject}
    (hf : μ.fn a f f') (hcaptures : ∀ c ∈ f.captures.filterMap id, μ.Found m.heap m'.heap c)
    {args : List Addr} (hargs : ∀ a ∈ args, μ.Found m.heap m'.heap a) :
    μ.Tracks (f.run call args) (f'.run call' (args.map μ.addr)) m m' μ.Address := by
  obtain ⟨name, arity, body, captures⟩ := f
  obtain ⟨name', arity', body', captures'⟩ := f'
  obtain ⟨-, -, hcaps, hbody⟩ := hμ.1 hf
  simp only at hcaps hbody
  subst hcaps
  cases hbody with
  | builtin b => exact tracks_native hm (.builtin b) rfl call call' hargs
  | host h => exact tracks_native hm (.host h) rfl call call' hargs
  | construct l => exact tracks_native hm (.construct l) rfl call call' hargs
  | code ρ params captured c => exact tracks_eval hμ hcall c hm (.start hm.heaps hargs hcaptures)
  | empty => exact tracks_faultAddr hm

/-- **A call does the same on both machines**, whatever number of calls may still be nested in
it. -/
theorem tracks_call (hμ : μ.Renumbers) (depth : Nat) : μ.CallsTrack (call depth) (call depth) := by
  induction depth with
  | zero =>
    intro m m' f args hm hf hargs
    unfold call
    rw [List.length_map]
    exact (tracks_enter hm hf 0 args.length).bind fun n n' _ _ hn _ _ _ => tracks_faultAddr hn
  | succ depth ih =>
    intro m m' f args hm hf hargs
    unfold call
    rw [List.length_map]
    refine (tracks_enter hm hf (depth + 1) args.length).bind fun n n' _ _ hn hle hle' hfn => ?_
    cases hfn with
    | none => exact tracks_faultAddr hn
    | some _ _ hf _ hc => exact tracks_run hμ ih hn hf hc fun a ha => (hargs a ha).of_le hle hle'

end Matching

end TypedLisp
