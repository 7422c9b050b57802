import SignOff.Number.Power
import SignOff.Text.Numeral

/-!
# Integers of 64 bits

Versions, and the numbers within a record that an application comes from, have 64 bits with a sign. A sum
that does not fit wraps around: behind the greatest of these integers the least one follows.
-/

namespace SignOff

/-- The number has 64 bits with a sign. -/
def IsInt64 (n : Int) : Prop := Text.int64Least ≤ n ∧ n ≤ Text.int64Greatest

instance (n : Int) : Decidable (IsInt64 n) := inferInstanceAs (Decidable (_ ∧ _))

/-- The number of 64 bits that a sum or a difference leaves. -/
def wrapInt64 (n : Int) : Int := n.bmod (Power.ofTwo 64)

/-- A number that fits is left as it is. -/
theorem wrapInt64_of_isInt64 {n : Int} (h : IsInt64 n) : wrapInt64 n = n :=
  Int.bmod_eq_of_le h.1 (Int.lt_add_one_of_le h.2)

/-- What is left fits. -/
theorem isInt64_wrapInt64 (n : Int) : IsInt64 (wrapInt64 n) :=
  ⟨Int.le_bmod (Power.ofTwo_pos 64), Int.le_of_lt_add_one (Int.bmod_lt (Power.ofTwo_pos 64))⟩

/-- It does not matter where in a sum it is wrapped around. -/
theorem wrapInt64_add (m n : Int) : wrapInt64 (wrapInt64 m + n) = wrapInt64 (m + n) := Int.bmod_add_bmod

/-- The difference to a sum is what has been added, as long as this fits. -/
theorem wrapInt64_sub_of_add {m n : Int} (h : IsInt64 n) : wrapInt64 (wrapInt64 (m + n) - m) = n := by
  calc
    wrapInt64 (wrapInt64 (m + n) - m) = wrapInt64 (m + n - m) := Int.bmod_sub_bmod
    _ = wrapInt64 n := by rw [Int.add_comm m n, Int.add_sub_cancel]
    _ = n := wrapInt64_of_isInt64 h

/-- Fewer than two to the power 64 steps upwards do not lead back, unless there are none. -/
theorem eq_zero_of_wrapInt64_add {m : Int} {k : Nat} (hk : k < Power.ofTwo 64)
    (h : wrapInt64 (m + k) = wrapInt64 m) : k = 0 := by
  have hzero : (m + k - m).bmod (Power.ofTwo 64) = 0 := Int.bmod_eq_bmod_iff_bmod_sub_eq_zero.1 h
  rw [Int.add_comm m k, Int.add_sub_cancel, Int.bmod_eq_iff (Power.ofTwo_pos 64)] at hzero
  obtain ⟨-, -, hdvd⟩ := hzero
  rw [Int.zero_sub, Int.dvd_neg, Int.natCast_dvd_natCast] at hdvd
  exact Nat.eq_zero_of_dvd_of_lt hdvd hk

end SignOff
