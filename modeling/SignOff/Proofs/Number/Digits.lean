import Mathlib.Data.List.TakeWhile
import SignOff.Number.Shortest

/-!
# Digits of numbers

Digits that follow others count for a power of ten less. The digits of a decimal that stands for a binary number
begin with one that is not zero, as no multiple of zero reads back as a number that is not zero.
-/

namespace SignOff

namespace Text

/-- The digits in front count as many powers of ten more as there are digits behind them. -/
theorem digitsValue_append (high low : List Char) :
    digitsValue (high ++ low) = digitsValue high * Power.ofTen low.length + digitsValue low := by
  rw [digitsValue, Nat.ofDigitChars_append, Nat.ofDigitChars_eq_ofDigitChars_zero, Nat.mul_comm]
  rfl

/-- Zeros alone are the number zero. -/
theorem digitsValue_replicate_zero (n : Nat) : digitsValue (List.replicate n '0') = 0 := by
  rw [digitsValue, Nat.ofDigitChars_replicate_zero, Nat.mul_zero]

/-- The digits of a number start with a zero only if it is zero. -/
theorem eq_zero_of_digits {n : Nat} {ds : List Char} (h : digits n = '0' :: ds) : n = 0 := by
  induction n using Nat.strongRecOn generalizing ds with
  | ind n ih =>
    by_cases hsmall : n < 10
    · have hdigit : ∀ n < 10, Nat.digitChar n = '0' → n = 0 := by decide
      rw [digits, Nat.toDigits_of_lt_base hsmall, List.cons.injEq] at h
      exact hdigit n hsmall h.1
    · rw [digits, Nat.toDigits_of_base_le (by decide) (by omega)] at h
      change digits (n / 10) ++ _ = _ at h
      cases hhigh : digits (n / 10) with
      | nil => exact absurd hhigh (digits_ne_nil _)
      | cons d high =>
        rw [hhigh, List.cons_append, List.cons.injEq] at h
        have hzero := ih (n / 10) (by omega) (h.1 ▸ hhigh)
        omega

end Text

/-- The decimal has digits, and the first of them is not zero. -/
structure Decimal.Proper (x : Decimal) : Prop where
  isDigit : ∀ c ∈ x.digits, c.isDigit = true
  head : ∃ d ds, x.digits = d :: ds ∧ d ≠ '0'

namespace Binary64

/-! ## The digits of a decimal that reads back -/

/-- Digits are what is left without their trailing zeros, and those zeros. -/
theorem stripZeros_append (ds : List Char) : ∃ n, stripZeros ds ++ List.replicate n '0' = ds := by
  have hzeros : ∀ c ∈ (ds.reverse.takeWhile (· == '0')).reverse, c = '0' := fun c hc => by
    simpa using List.mem_takeWhile_imp (List.mem_reverse.1 hc)
  refine ⟨(ds.reverse.takeWhile (· == '0')).reverse.length, ?_⟩
  rw [← List.eq_replicate_of_mem hzeros, stripZeros, ← List.reverse_append, List.takeWhile_append_dropWhile,
    List.reverse_reverse]

/-- The digits of a number that is not zero make a proper decimal without their trailing zeros. -/
theorem proper_stripZeros_digits {n : Nat} (h : n ≠ 0) (point : Int) :
    (Decimal.mk (stripZeros (Text.digits n)) point).Proper := by
  obtain ⟨zeros, hsplit⟩ := stripZeros_append (Text.digits n)
  constructor
  case isDigit =>
    intro c hc
    exact Text.digits_isDigit (n := n) (hsplit ▸ List.mem_append_left _ hc)
  case head =>
    dsimp only
    cases hds : stripZeros (Text.digits n) with
    | nil =>
      have hzero : Text.digitsValue (Text.digits n) = 0 := by
        rw [← hsplit, hds, List.nil_append, Text.digitsValue_replicate_zero]
      rw [Text.digitsValue_digits] at hzero
      contradiction
    | cons d ds =>
      refine ⟨d, ds, rfl, ?_⟩
      rintro rfl
      rw [hds, List.cons_append] at hsplit
      exact h (Text.eq_zero_of_digits hsplit.symm)

variable {x : Binary64} {power : Int} {c : Nat}

/-- What is found on a grid reads back. -/
theorem readsBack_of_onGrid? (h : x.onGrid? power = some c) : x.readsBack power c = true := by
  unfold onGrid? at h
  dsimp only at h
  split at h
  · contradiction
  · next hbelow _ => exact Option.some.inj h ▸ hbelow
  · next _ habove => exact Option.some.inj h ▸ habove
  · next hbelow habove =>
    split_ifs at h <;> rw [← Option.some.inj h] <;> assumption

/-- Zero does not read back as any other number. -/
theorem readsBack_zero (h : x.significand ≠ 0) (power : Int) : x.readsBack power 0 = false := by
  have hlower : 0 < x.lowerEnd := by
    unfold lowerEnd
    split <;> omega
  have hlow : 0 < x.gridNum power x.lowerEnd :=
    Nat.mul_pos (Nat.mul_pos hlower (Power.ofTwo_pos _)) (Power.ofTen_pos _)
  unfold readsBack
  simp [Nat.not_le.2 hlow]

/-- The search ends on a grid not above the first one, with what is found there. -/
theorem onGrid?_of_search {top : Int} {tries : Nat} (h : x.search top tries = some (c, power)) :
    x.onGrid? power = some c := by
  induction tries generalizing top with
  | zero => contradiction
  | succ tries ih =>
    rw [search] at h
    split at h
    · next found =>
      cases h
      exact found
    · exact ih h

/-- The shortest decimal of a number that is not zero is proper. -/
theorem proper_shortest (h : x.significand ≠ 0) : x.shortest.Proper := by
  unfold shortest
  split
  · next c power hsearch =>
    refine proper_stripZeros_digits (fun hc => ?_) _
    subst hc
    have hreads := readsBack_of_onGrid? (onGrid?_of_search hsearch)
    rw [readsBack_zero h] at hreads
    contradiction
  · -- Without a grid point all decimal places are written: there are enough of them to make up for the halves.
    refine proper_stripZeros_digits (Nat.ne_of_gt (Nat.div_pos ?_ (Power.ofTwo_pos _))) _
    calc x.den ≤ Power.ofTen (-x.exponent).toNat := Nat.pow_le_pow_left (by decide) _
      _ ≤ x.num * Power.ofTen (-x.exponent).toNat := Nat.le_mul_of_pos_left _ <|
          Nat.mul_pos (Nat.pos_of_ne_zero h) (Power.ofTwo_pos _)

end Binary64

end SignOff
