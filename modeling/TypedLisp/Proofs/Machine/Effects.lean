import Mathlib.Tactic.Common
import TypedLisp.Machine.Function

/-!
# What the operations of the machine do

An operation on objects reads those that it is given, and then it does one thing: it makes an
object, gives one of the single objects, or raises a fault. `Effect` is that one thing, as a
function of the heap, and the operations come to their effects (`Builtin.run_eq`, `HostFn.run_eq`).
What effects there are, whatever the function, is `Effect.Native`.
-/

namespace TypedLisp

/-- What an operation does when it has read the objects it is given. -/
inductive Effect where
  /-- Makes an object. -/
  | make (o : Object)
  /-- Gives a boolean. -/
  | bool (b : Bool)
  /-- Gives the mark of a fault. -/
  | mark
  /-- Raises a fault. -/
  | raise (f : Fault)

namespace Effect

/-- Has an effect on the machine. -/
def run : Effect → Run Addr
  | .make o => Machine.alloc o
  | .bool b => return boolAddr b
  | .mark => return faultAddr
  | .raise f => Machine.raise f

/-- The report of an object of the wrong kind. -/
def wrongKind (expected : String) (found : Object) : Effect :=
  .raise (.wrongKind expected found.kind)

end Effect

/-! ## The effects of operations -/

namespace Heap

variable (h : Heap)

theorem object_of_get? {h : Heap} {a : Addr} {o : Object} (ha : h.get? a = some o) :
    h.object a = o := by simp [object, ha]

/-- What is done with the integer at an address. -/
def onInt (a : Addr) (k : Int64 → Effect) : Effect :=
  match h.object a with
  | .int n => k n
  | o => .wrongKind "Int" o

/-- What is done with the string at an address. -/
def onStr (a : Addr) (k : String → Effect) : Effect :=
  match h.object a with
  | .str s => k s
  | o => .wrongKind "Str" o

/-- What is done with two integers. -/
def onInts (a b : Addr) (k : Int64 → Int64 → Effect) : Effect :=
  h.onInt a fun x => h.onInt b fun y => k x y

theorem onInts_eq {h : Heap} {a b : Addr} {x y : Int64} (ha : h.get? a = some (.int x))
    (hb : h.get? b = some (.int y)) (k : Int64 → Int64 → Effect) : h.onInts a b k = k x y := by
  simp only [onInts, onInt, object_of_get? ha, object_of_get? hb]

/-- What it is to add an item to a vector. -/
def conjVector (v a : Addr) : Effect :=
  match h.object v with
  | .vector items => .make (.vector (items ++ [a]))
  | o => .wrongKind "vector" o

/-- What it is to add an item to a set. -/
def conjSet (s a : Addr) : Effect :=
  match h.object s with
  | .set items => .make (.set (insertItem h.compare a items))
  | o => .wrongKind "set" o

/-- What it is to add an entry to a map. -/
def assocMap (p k v : Addr) : Effect :=
  match h.object p with
  | .map entries => .make (.map (insertEntry h.compare k v entries))
  | o => .wrongKind "map" o

/-- What it is to count items. -/
def counted (a : Addr) : Effect :=
  match h.object a with
  | .vector items | .set items => .make (.int (.ofNat items.length))
  | .map entries => .make (.int (.ofNat entries.length))
  | o => .wrongKind "collection" o

/-- What it is to give the text of a value. -/
def texted (a : Addr) : Effect :=
  match h.decode a with
  | .ok (.str s) => .make (.str s)
  | .ok v => .make (.str v.text)
  | .error f => .raise f

/-- What it is to give the opposite of a boolean. -/
def negated (a : Addr) : Effect :=
  match h.object a with
  | .bool b => .bool !b
  | o => .wrongKind "Bool" o

end Heap

/-- What a division does, if it is defined. -/
def Effect.divided (divisor result : Int64) : Effect :=
  if divisor == 0 then .raise .divideByZero else .make (.int result)

/-- What a built-in function does. -/
def Builtin.effect (h : Heap) : Builtin → List Addr → Effect
  | .add, [a, b] => h.onInts a b fun x y => .make (.int (x + y))
  | .sub, [a, b] => h.onInts a b fun x y => .make (.int (x - y))
  | .mul, [a, b] => h.onInts a b fun x y => .make (.int (x * y))
  | .eq, [a, b] => h.onInts a b fun x y => .bool (x == y)
  | .lt, [a, b] => h.onInts a b fun x y => .bool (x < y)
  | .gt, [a, b] => h.onInts a b fun x y => .bool (y < x)
  | .not, [a] => h.negated a
  | .count, [a] => h.counted a
  | .conj, [a, b] => h.conjVector a b
  | .str, [a] => h.texted a
  | .concat, [a, b] => h.onStr a fun s => h.onStr b fun t => .make (.str (s ++ t))
  | _, _ => .mark

/-- What a function of the host does. -/
def HostFn.effect (h : Heap) : HostFn → List Addr → Effect
  | .abs, [a] => h.onInt a fun x => .make (.int (if x < 0 then -x else x))
  | .max, [a, b] => h.onInts a b fun x y => .make (.int (if x < y then y else x))
  | .min, [a, b] => h.onInts a b fun x y => .make (.int (if y < x then y else x))
  | .quot, [a, b] => h.onInts a b fun x y => .divided y (x / y)
  | .rem, [a, b] => h.onInts a b fun x y => .divided y (x % y)
  | .length, [a] => h.onStr a fun s => .make (.int (.ofNat s.length))
  | .upper, [a] => h.onStr a fun s => .make (.str (Text.upper s))
  | .lower, [a] => h.onStr a fun s => .make (.str (Text.lower s))
  | .trim, [a] => h.onStr a fun s => .make (.str (Text.trim s))
  | .repeat, [a, b] => h.onStr a fun s => h.onInt b fun n => .make (.str (repeatText s n))
  | _, _ => .mark

/-! ## Operations come to their effects -/

theorem Run.bind_of_eq {α β : Type} {act : Run α} {k : α → Run β} {a : α} {m m' : Machine}
    (h : act m = (a, m')) : (act >>= k) m = k a m' := by
  show k (act m).1 (act m).2 = _
  rw [h]

namespace Machine

variable (m : Machine)

theorem object_bind {α : Type} (a : Addr) (k : Object → Run α) :
    (object a >>= k) m = k (m.heap.object a) m := rfl

theorem record_record (f g : Fault) : (m.record f).record g = m.record f := by
  obtain ⟨heap, cells, tracked, _ | fault⟩ := m <;> rfl

theorem intArg_cases (a : Addr) :
    (∃ n, intArg a m = (some n, m) ∧ ∀ k, m.heap.onInt a k = k n) ∨
      ∃ f, intArg a m = (none, m.record f) ∧ ∀ k, m.heap.onInt a k = .raise f := by
  unfold intArg Heap.onInt
  rw [object_bind]
  cases m.heap.object a with
  | int n => exact .inl ⟨n, rfl, fun _ => rfl⟩
  | _ => exact .inr ⟨_, rfl, fun _ => rfl⟩

theorem strArg_cases (a : Addr) :
    (∃ s, strArg a m = (some s, m) ∧ ∀ k, m.heap.onStr a k = k s) ∨
      ∃ f, strArg a m = (none, m.record f) ∧ ∀ k, m.heap.onStr a k = .raise f := by
  unfold strArg Heap.onStr
  rw [object_bind]
  cases m.heap.object a with
  | str s => exact .inl ⟨s, rfl, fun _ => rfl⟩
  | _ => exact .inr ⟨_, rfl, fun _ => rfl⟩

theorem intArg_record (a : Addr) (f : Fault) :
    ∃ n, intArg a (m.record f) = (n, m.record f) := by
  rcases intArg_cases (m.record f) a with ⟨n, hn, -⟩ | ⟨g, hg, -⟩
  · exact ⟨_, hn⟩
  · exact ⟨_, hg.trans (by rw [record_record])⟩

variable {m}

theorem withInts_run (a b : Addr) {op : Int64 → Int64 → Run Addr} {k : Int64 → Int64 → Effect}
    (hop : ∀ x y, op x y m = (k x y).run m) :
    withInts a b op m = (m.heap.onInts a b k).run m := by
  unfold withInts Heap.onInts
  rcases intArg_cases m a with ⟨x, hx, hx'⟩ | ⟨f, hf, hf'⟩
  · rcases intArg_cases m b with ⟨y, hy, hy'⟩ | ⟨g, hg, hg'⟩
    · rw [Run.bind_of_eq hx, Run.bind_of_eq hy, hx', hy', ← hop]
    · rw [Run.bind_of_eq hx, Run.bind_of_eq hg, hx', hg']
      rfl
  · obtain ⟨y, hy⟩ := intArg_record m b f
    rw [Run.bind_of_eq hf, Run.bind_of_eq hy, hf']
    rfl

theorem withStr_run (a : Addr) {op : String → Run Addr} {k : String → Effect}
    (hop : ∀ s, op s m = (k s).run m) : withStr a op m = (m.heap.onStr a k).run m := by
  unfold withStr
  rcases strArg_cases m a with ⟨s, hs, hs'⟩ | ⟨f, hf, hf'⟩
  · rw [Run.bind_of_eq hs, hs', ← hop]
  · rw [Run.bind_of_eq hf, hf']
    rfl

theorem vectorConj_run (v a : Addr) : vectorConj v a m = (m.heap.conjVector v a).run m := by
  unfold vectorConj Heap.conjVector
  rw [object_bind]
  cases m.heap.object v <;> rfl

theorem vectorConj_eq {v : Addr} {items : List Addr} (hv : m.heap.get? v = some (.vector items))
    (a : Addr) : vectorConj v a m = alloc (.vector (items ++ [a])) m := by
  rw [vectorConj_run, Heap.conjVector, Heap.object_of_get? hv]
  rfl

theorem setConj_run (s a : Addr) : setConj s a m = (m.heap.conjSet s a).run m := by
  unfold setConj Heap.conjSet
  rw [object_bind]
  cases m.heap.object s <;> rfl

theorem setConj_eq {s : Addr} {items : List Addr} (hs : m.heap.get? s = some (.set items))
    (a : Addr) : setConj s a m = alloc (.set (insertItem m.heap.compare a items)) m := by
  rw [setConj_run, Heap.conjSet, Heap.object_of_get? hs]
  rfl

theorem mapAssoc_run (p k v : Addr) : mapAssoc p k v m = (m.heap.assocMap p k v).run m := by
  unfold mapAssoc Heap.assocMap
  rw [object_bind]
  cases m.heap.object p <;> rfl

theorem mapAssoc_eq {p : Addr} {entries : List (Addr × Addr)}
    (hp : m.heap.get? p = some (.map entries)) (k v : Addr) :
    mapAssoc p k v m = alloc (.map (insertEntry m.heap.compare k v entries)) m := by
  rw [mapAssoc_run, Heap.assocMap, Heap.object_of_get? hp]
  rfl

theorem count_run (a : Addr) : count a m = (m.heap.counted a).run m := by
  unfold count Heap.counted
  rw [object_bind]
  cases m.heap.object a <;> rfl

theorem not_run (a : Addr) : Machine.not a m = (m.heap.negated a).run m := by
  unfold Machine.not Heap.negated
  rw [object_bind]
  cases m.heap.object a <;> rfl

theorem textOf_run (a : Addr) : textOf a m = (m.heap.texted a).run m := by
  unfold textOf Heap.texted
  rw [Run.bind_of_eq (show (get : Run Machine) m = (m, m) from rfl)]
  rcases m.heap.decode a with f | v
  · rfl
  · cases v <;> rfl

theorem concat_run (a b : Addr) : Machine.concat a b m =
    (m.heap.onStr a fun s => m.heap.onStr b fun t => .make (.str (s ++ t))).run m := by
  unfold Machine.concat Heap.onStr
  rw [object_bind]
  cases m.heap.object a with
  | str s =>
    dsimp only
    rw [object_bind]
    cases m.heap.object b <;> rfl
  | _ => rfl

theorem divided_run (y n : Int64) :
    (if y == 0 then raise .divideByZero else newInt n : Run Addr) m = (Effect.divided y n).run m := by
  unfold Effect.divided
  split <;> rfl

end Machine

open Machine

variable {m : Machine}

/-- **A built-in function comes to its effect.** -/
theorem Builtin.run_eq (f : Builtin) (args : List Addr) :
    f.run args m = (f.effect m.heap args).run m := by
  match args with
  | [] => cases f <;> rfl
  | [a] =>
    cases f with
    | not => exact not_run a
    | count => exact count_run a
    | str => exact textOf_run a
    | _ => rfl
  | [a, b] =>
    cases f with
    | add | sub | mul | eq | lt | gt => exact withInts_run a b fun _ _ => rfl
    | conj => exact vectorConj_run a b
    | concat => exact concat_run a b
    | _ => rfl
  | _ :: _ :: _ :: _ => cases f <;> rfl

/-- **A function of the host comes to its effect.** -/
theorem HostFn.run_eq (f : HostFn) (args : List Addr) :
    f.run args m = (f.effect m.heap args).run m := by
  match args with
  | [] => cases f <;> rfl
  | [a] =>
    cases f with
    | abs =>
      simp only [HostFn.run, HostFn.effect]
      rcases intArg_cases m a with ⟨x, hx, hx'⟩ | ⟨f, hf, hf'⟩
      · rw [Run.bind_of_eq hx, hx']
        rfl
      · rw [Run.bind_of_eq hf, hf']
        rfl
    | length | upper | lower | trim => exact withStr_run a fun _ => rfl
    | _ => rfl
  | [a, b] =>
    cases f with
    | max | min => exact withInts_run a b fun _ _ => rfl
    | quot | rem => exact withInts_run a b fun _ _ => divided_run _ _
    | «repeat» =>
      simp only [HostFn.run, HostFn.effect]
      rcases strArg_cases m a with ⟨s, hs, hs'⟩ | ⟨f, hf, hf'⟩
      · rcases intArg_cases m b with ⟨n, hn, hn'⟩ | ⟨g, hg, hg'⟩
        · rw [Run.bind_of_eq hs, Run.bind_of_eq hn, hs', hn']
          rfl
        · rw [Run.bind_of_eq hs, Run.bind_of_eq hg, hs', hg']
          rfl
      · obtain ⟨n, hn⟩ := intArg_record m b f
        rw [Run.bind_of_eq hf, Run.bind_of_eq hn, hf']
        rfl
    | _ => rfl
  | _ :: _ :: _ :: _ => cases f <;> rfl

/-! ## What effects there are -/

/-- The effects that built-in and host functions have on some arguments. -/
inductive Effect.Native (h : Heap) (args : List Addr) (arity : Nat) : Effect → Prop where
  | int (n : Int64) : Native h args arity (.make (.int n))
  | str (s : String) : Native h args arity (.make (.str s))
  | vector {v a : Addr} {items : List Addr} (hv : v ∈ args) (ha : a ∈ args)
      (hitems : h.object v = .vector items) : Native h args arity (.make (.vector (items ++ [a])))
  | bool (b : Bool) : Native h args arity (.bool b)
  | mark (hlen : args.length ≠ arity) : Native h args arity .mark
  | wrongKind (expected : String) (o : Object) : Native h args arity (.wrongKind expected o)
  | divideByZero : Native h args arity (.raise .divideByZero)
  /-- An object has no value to give the text of. -/
  | noValue {a : Addr} {f : Fault} (ha : a ∈ args) (hf : h.decode a = .error f) :
    Native h args arity (.raise f)

namespace Effect.Native

variable {h : Heap} {args : List Addr} {arity : Nat} {a b : Addr}

theorem onInt {k : Int64 → Effect} (hk : ∀ n, Native h args arity (k n)) :
    Native h args arity (h.onInt a k) := by
  unfold Heap.onInt
  split
  · exact hk _
  · exact .wrongKind _ _

theorem onInts {k : Int64 → Int64 → Effect} (hk : ∀ x y, Native h args arity (k x y)) :
    Native h args arity (h.onInts a b k) := .onInt fun x => .onInt (hk x)

theorem onStr {k : String → Effect} (hk : ∀ s, Native h args arity (k s)) :
    Native h args arity (h.onStr a k) := by
  unfold Heap.onStr
  split
  · exact hk _
  · exact .wrongKind _ _

theorem divided (y n : Int64) : Native h args arity (.divided y n) := by
  unfold Effect.divided
  split
  · exact .divideByZero
  · exact .int n

end Effect.Native

variable {h : Heap}

theorem Builtin.native_effect (f : Builtin) (args : List Addr) :
    (f.effect h args).Native h args f.arity := by
  match args with
  | [] => cases f <;> exact .mark nofun
  | [a] =>
    cases f with
    | not =>
      show Effect.Native h _ _ (h.negated a)
      unfold Heap.negated
      split
      · exact .bool _
      · exact .wrongKind _ _
    | count =>
      show Effect.Native h _ _ (h.counted a)
      unfold Heap.counted
      split
      · exact .int _
      · exact .int _
      · exact .int _
      · exact .wrongKind _ _
    | str =>
      show Effect.Native h _ _ (h.texted a)
      unfold Heap.texted
      split
      · exact .str _
      · exact .str _
      · exact .noValue (List.mem_singleton_self a) ‹_›
    | _ => exact .mark nofun
  | [a, b] =>
    cases f with
    | add | sub | mul => exact .onInts fun _ _ => .int _
    | eq | lt | gt => exact .onInts fun _ _ => .bool _
    | conj =>
      show Effect.Native h _ _ (h.conjVector a b)
      unfold Heap.conjVector
      split
      · exact .vector (v := a) (by simp) (by simp) ‹_›
      · exact .wrongKind _ _
    | concat => exact .onStr fun _ => .onStr fun _ => .str _
    | _ => exact .mark nofun
  | _ :: _ :: _ :: _ => cases f <;> exact .mark nofun

theorem HostFn.native_effect (f : HostFn) (args : List Addr) :
    (f.effect h args).Native h args f.arity := by
  match args with
  | [] => cases f <;> exact .mark nofun
  | [a] =>
    cases f with
    | abs => exact .onInt fun _ => .int _
    | length => exact .onStr fun _ => .int _
    | upper | lower | trim => exact .onStr fun _ => .str _
    | _ => exact .mark nofun
  | [a, b] =>
    cases f with
    | max | min => exact .onInts fun _ _ => .int _
    | quot | rem => exact .onInts fun _ _ => .divided _ _
    | «repeat» => exact .onStr fun _ => .onInt fun _ => .str _
    | _ => exact .mark nofun
  | _ :: _ :: _ :: _ => cases f <;> exact .mark nofun

end TypedLisp
