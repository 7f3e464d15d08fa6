import Mathlib.Algebra.Order.Ring.Int
import Mathlib.Data.Int.ModEq
import TypedLisp.Proofs.Machine.Effects

/-!
# Division of integers

The functions `quot` and `rem` of the host divide toward zero. Quotient and remainder belong
together modulo `2 ^ 64` for all integers from `-2 ^ 63` up to `2 ^ 63`, also for `-2 ^ 63` and `-1`,
where the exact quotient is out of range and wraps (`Machine.quot_rem_consistent`).
-/

namespace TypedLisp

/-! ## Quotient and remainder -/

section

variable (a b : Int64)

theorem modEq_quot_mul_add_rem :
    a.toInt ≡ (a / b).toInt * b.toInt + (a % b).toInt [ZMOD 2 ^ 64] := by
  have hquot : (a / b).toInt ≡ a.toInt.tdiv b.toInt [ZMOD 2 ^ 64] := by
    rw [Int64.toInt_div]
    exact Int.bmod_emod (m := 2 ^ 64)
  have hexact : a.toInt.tdiv b.toInt * b.toInt + (a % b).toInt = a.toInt := by
    rw [Int64.toInt_mod, Int.tdiv_mul_add_tmod]
  calc a.toInt
      = a.toInt.tdiv b.toInt * b.toInt + (a % b).toInt := hexact.symm
    _ ≡ (a / b).toInt * b.toInt + (a % b).toInt [ZMOD 2 ^ 64] :=
        (hquot.symm.mul_right _).add_right _

theorem abs_rem_lt {a b : Int64} (hb : b ≠ 0) : |(a % b).toInt| < |b.toInt| := by
  have hne : b.toInt.natAbs ≠ 0 := fun h => hb (Int64.toInt_inj.1 (Int.natAbs_eq_zero.1 h))
  rw [Int64.toInt_mod, Int.abs_eq_natAbs, Int.abs_eq_natAbs, Int.natAbs_tmod]
  exact Int.ofNat_lt.2 (Nat.mod_lt _ (Nat.pos_of_ne_zero hne))

theorem rem_eq_zero_or_sign_eq : a % b = 0 ∨ (a % b).toInt.sign = a.toInt.sign := by
  by_cases hdvd : b.toInt ∣ a.toInt
  · refine .inl (Int64.toInt_inj.1 ?_)
    rw [Int64.toInt_mod, Int.tmod_eq_zero_of_dvd hdvd]
    rfl
  · refine .inr ?_
    rw [Int64.toInt_mod, Int.sign_tmod, if_neg hdvd]

end

namespace Machine

variable {m : Machine} {p q : Addr} {a b : Int64}

/-! ## Calls -/

theorem divided_zero (n : Int64) : (Effect.divided 0 n).run m = raise .divideByZero m := rfl

theorem divided_of_ne_zero (hb : b ≠ 0) (n : Int64) :
    (Effect.divided b n).run m = newInt n m := by
  rw [Effect.divided, if_neg (mt beq_iff_eq.1 hb)]
  rfl

theorem newInt_ne_raise (n : Int64) (f : Fault) : newInt n m ≠ raise f m := by
  intro h
  have hsize : (newInt n m).2.heap.slots.size = m.heap.slots.size + 1 := Array.size_push _
  rw [h] at hsize
  exact Nat.ne_of_lt (Nat.lt_succ_self _) hsize

theorem divided_eq_raise_iff (n : Int64) :
    (Effect.divided b n).run m = raise .divideByZero m ↔ b = 0 := by
  constructor
  · intro h
    by_contra hb
    rw [divided_of_ne_zero hb] at h
    exact newInt_ne_raise n _ h
  · rintro rfl
    exact divided_zero n

section

variable (hp : m.heap.get? p = some (.int a)) (hq : m.heap.get? q = some (.int b))

include hp hq

theorem run_quot : HostFn.quot.run [p, q] m = (Effect.divided b (a / b)).run m := by
  rw [HostFn.run_eq]
  exact congrArg (·.run m) (Heap.onInts_eq hp hq _)

theorem run_rem : HostFn.rem.run [p, q] m = (Effect.divided b (a % b)).run m := by
  rw [HostFn.run_eq]
  exact congrArg (·.run m) (Heap.onInts_eq hp hq _)

/-- **Division of integers is consistent.** A division by zero raises a fault, and no other division
does. Any other gives the exact quotient truncated toward zero, wrapped to 64 bits, and a remainder
that is smaller than the divisor and has the sign of what is divided. What is divided is congruent
to the quotient times the divisor plus the remainder. -/
theorem quot_rem_consistent :
    (b ≠ 0 → ∃ d r : Int64, HostFn.quot.run [p, q] m = newInt d m ∧
      HostFn.rem.run [p, q] m = newInt r m ∧
      d.toInt = (a.toInt.tdiv b.toInt).bmod (2 ^ 64) ∧
      a.toInt ≡ d.toInt * b.toInt + r.toInt [ZMOD 2 ^ 64] ∧
      |r.toInt| < |b.toInt| ∧ (r = 0 ∨ r.toInt.sign = a.toInt.sign)) ∧
    (HostFn.quot.run [p, q] m = raise .divideByZero m ↔ b = 0) ∧
    (HostFn.rem.run [p, q] m = raise .divideByZero m ↔ b = 0) := by
  rw [run_quot hp hq, run_rem hp hq]
  refine ⟨fun hb => ?_, divided_eq_raise_iff _, divided_eq_raise_iff _⟩
  exact ⟨a / b, a % b, divided_of_ne_zero hb _, divided_of_ne_zero hb _, Int64.toInt_div a b,
    modEq_quot_mul_add_rem a b, abs_rem_lt hb, rem_eq_zero_or_sign_eq a b⟩

end

/-- A machine with `-2 ^ 63` at address 3 and `-1` at address 4. -/
def leastAndMinusOne : Machine := (newInt (-1) (newInt Int64.minValue .empty).2).2

/-- The one quotient that is out of range wraps to what is divided, and nothing remains. -/
theorem quot_rem_consistent_least :
    leastAndMinusOne.heap.get? 3 = some (.int Int64.minValue) ∧
      leastAndMinusOne.heap.get? 4 = some (.int (-1)) ∧
      ∃ d r : Int64, HostFn.quot.run [3, 4] leastAndMinusOne = newInt d leastAndMinusOne ∧
        HostFn.rem.run [3, 4] leastAndMinusOne = newInt r leastAndMinusOne ∧
        d.toInt = -2 ^ 63 ∧ r.toInt = 0 := by
  obtain ⟨d, r, hquot, hrem, hd, -, hr, -⟩ :=
    (quot_rem_consistent (m := leastAndMinusOne) (p := 3) (q := 4) (a := Int64.minValue) (b := -1)
      rfl rfl).1 (by decide)
  refine ⟨rfl, rfl, d, r, hquot, hrem, hd.trans (by decide), ?_⟩
  exact Int.abs_lt_one_iff.1 (hr.trans_eq (by decide))

end Machine

end TypedLisp
