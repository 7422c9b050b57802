import SignOff.Proofs.Json.Numerals
import SignOff.Proofs.Number.ShortDecimals

/-!
# What numerals denote

A numeral denotes a rational. The reader makes a number of it, and that number is written as a numeral again, which
need not denote the same: a binary number has only 53 bits. Whole numbers of 64 bits are kept, and so are decimals
of fifteen digits unless they are very large or very small.
-/

namespace SignOff

namespace Json.Numeral

/-- The digits of a numeral without their point, as a number. -/
def significand (x : Numeral) : Nat := Text.digitsValue (x.whole ++ x.fraction)

/-- The power of ten that the last digit counts for. -/
def power (x : Numeral) : Int := x.exponent.getD 0 - x.fraction.length

/-- What a numeral denotes. -/
def rational (x : Numeral) : ℚ := (if x.negative then -1 else 1) * (x.significand * 10 ^ x.power)

/-- The numeral is a whole number of 64 bits, or has fifteen digits and a last one that counts for a power of ten
between the twenty-second ones. -/
def Exact (x : Numeral) : Prop :=
  (x.fraction = [] ∧ x.exponent = none ∧
    if x.negative then Text.int64Least ≤ -x.significand else x.significand ≤ Text.nat64Greatest) ∨
  (x.significand < Power.ofTen 15 ∧ x.power.natAbs ≤ 22)

instance (x : Numeral) : Decidable x.Exact := by
  unfold Exact
  infer_instance

/-- A numeral denotes its digits as a whole number, moved by the exponent and by the digits of the fraction. -/
theorem rational_mk (negative : Bool) (whole fraction : List Char) (exponent : Option Int) :
    rational ⟨negative, whole, fraction, exponent⟩ = (if negative then -1 else 1) *
      (Text.digitsValue (whole ++ fraction) * 10 ^ (exponent.getD 0 - fraction.length)) := rfl

end Json.Numeral

/-! ## Numerals of decimals -/

/-- The numeral of a decimal denotes its size, with the sign. -/
theorem Decimal.rational_numeral {layout : DecimalLayout} {negative : Bool} {x : Decimal} (h : x.Proper) :
    (x.numeral layout negative).rational = (if negative then -1 else 1) * x.size := by
  obtain ⟨d, ds, hdigits, -⟩ := h.head
  have hlength : x.digits.length = ds.length + 1 := by rw [hdigits, List.length_cons]
  unfold numeral
  dsimp only
  split
  · split
    · have hdigits : ['0'] ++ (List.replicate x.point.natAbs '0' ++ x.digits) =
          List.replicate (x.point.natAbs + 1) '0' ++ x.digits := rfl
      have hpower : (0 : Int) - (List.replicate x.point.natAbs '0' ++ x.digits).length = x.point - x.digits.length := by
        rw [List.length_append, List.length_replicate]
        omega
      rw [Json.Numeral.rational_mk, Option.getD_none, hpower, hdigits, Text.digitsValue_append,
        Text.digitsValue_replicate_zero, Nat.zero_mul, Nat.zero_add, size]
    split
    · next hshort =>
      have hdigits : x.digits ++ List.replicate (x.point.toNat - x.digits.length) '0' ++ ['0'] =
          x.digits ++ List.replicate (x.point.toNat - x.digits.length + 1) '0' := by
        rw [List.append_assoc, List.replicate_succ']
      have hpower : x.point - x.digits.length = (x.point.toNat - x.digits.length + 1 : Nat) + (0 - (1 : Nat)) := by
        omega
      rw [Json.Numeral.rational_mk, Option.getD_none, List.length_singleton, hdigits, Text.digitsValue_append,
        Text.digitsValue_replicate_zero, List.length_replicate, Nat.add_zero, size, hpower, zpow_add₀ (by norm_num),
        zpow_natCast, Nat.cast_mul, Power.cast_ofTen, mul_assoc]
    · have hpower : (0 : Int) - (x.digits.drop x.point.toNat).length = x.point - x.digits.length := by
        rw [List.length_drop]
        omega
      rw [Json.Numeral.rational_mk, Option.getD_none, List.take_append_drop, hpower, size]
  · have hpower : x.point - 1 - (x.digits.drop 1).length = x.point - x.digits.length := by
      rw [List.length_drop]
      omega
    rw [Json.Numeral.rational_mk, Option.getD_some, List.take_append_drop, hpower, size]

/-! ## Numerals that are written again -/

namespace Json

/-- Further digits make a number no smaller. -/
theorem le_ofDigitChars (n : Nat) (cs : List Char) : n ≤ Nat.ofDigitChars 10 cs n := by
  rw [Nat.ofDigitChars_eq_ofDigitChars_zero]
  exact Nat.le_trans (Nat.le_mul_of_pos_left n (Power.ofTen_pos cs.length)) (Nat.le_add_right _ _)

/-- Digits are all collected if their number fits in 64 bits. -/
theorem collectDigits_of_le {n : Nat} {cs : List Char} (h : Nat.ofDigitChars 10 cs n ≤ Text.nat64Greatest) :
    collectDigits n cs = (Nat.ofDigitChars 10 cs n, 0) := by
  induction cs generalizing n with
  | nil => rfl
  | cons c cs ih =>
    rw [Nat.ofDigitChars_cons] at h ⊢
    rw [collectDigits, if_pos (Nat.le_trans (le_ofDigitChars _ cs) h), ih h]

namespace Numeral

variable {x : Numeral}

/-- A numeral whose digits fit in 64 bits becomes the binary number of its decimal. -/
theorem binary?_of_le (h : x.significand ≤ Text.nat64Greatest) :
    x.binary? = (Binary64.ofDecimal? x.significand x.power).map fun size =>
      if x.negative then size.negate else size := by
  have hsignificand : Nat.ofDigitChars 10 x.fraction (Nat.ofDigitChars 10 x.whole 0) = x.significand := by
    rw [significand, Text.digitsValue, Nat.ofDigitChars_append]
  have hwhole : collectDigits 0 x.whole = (Nat.ofDigitChars 10 x.whole 0, 0) :=
    collectDigits_of_le (Nat.le_trans (hsignificand ▸ le_ofDigitChars _ _) h)
  have hfraction : collectDigits (Nat.ofDigitChars 10 x.whole 0) x.fraction = (x.significand, 0) := by
    rw [collectDigits_of_le (hsignificand ▸ h), hsignificand]
  have hpower : ((0 : Nat) : Int) - (x.fraction.length - (0 : Nat)) + x.exponent.getD 0 = x.power := by
    rw [power]
    omega
  unfold binary?
  simp only [hwhole, hfraction, hpower]
  cases Binary64.ofDecimal? x.significand x.power <;> rfl

/-- The binary number of a short decimal is written as a numeral that denotes the same. -/
theorem rational_of_binary? {size : Binary64} (h : x.binary? = some size) (hsmall : x.significand < Power.ofTen 15)
    (hpower : x.power.natAbs ≤ 22) : (JsonNumber.binary size).numeral.rational = x.rational := by
  have hfits : x.significand ≤ Text.nat64Greatest := Nat.le_of_lt (Nat.lt_trans hsmall (by decide))
  rw [binary?_of_le hfits, Option.map_eq_some_iff] at h
  obtain ⟨plain, hplain, rfl⟩ := h
  -- The sign changes neither the interval nor the digits.
  obtain ⟨signed, hsigned⟩ : ∃ signed, signed = if x.negative then plain.negate else plain := ⟨_, rfl⟩
  rw [← hsigned]
  rcases Nat.eq_zero_or_pos x.significand with hzero | hpos
  · have hisZero : signed.isZero = true := by
      rw [hzero] at hplain
      have hplain := Binary64.isZero_of_ofDecimal?_zero (Nat.le_trans hpower (by decide)) hplain
      rw [hsigned]
      split <;> exact hplain
    have hnone : significand ⟨signed.negative, ['0'], ['0'], none⟩ = 0 := rfl
    rw [JsonNumber.numeral, if_pos hisZero, rational, rational, hzero, hnone]
    simp
  · obtain ⟨hrounds, hpositive⟩ :=
      Binary64.rounds_of_ofDecimal? hpos (Nat.lt_trans hsmall (by decide)) hpower hplain
    have hsame : signed.Rounds (x.significand * 10 ^ x.power) ∧ signed.negative = x.negative := by
      rw [hsigned]
      cases x.negative with
      | true => exact ⟨⟨hrounds.mem, hrounds.full⟩, by simp [Binary64.negate, hpositive]⟩
      | false => exact ⟨hrounds, hpositive⟩
    have hne := hsame.1.significand_ne_zero (Binary64.decimal_bounds hpos hsmall hpower).1
    rw [JsonNumber.numeral, Binary64.isZero, if_neg (by simpa using hne),
      Decimal.rational_numeral (Binary64.proper_shortest hne), hsame.2,
      Binary64.size_shortest hsame.1 hpos hsmall hpower, rational]

/-- Where the reader makes a number of an exact numeral, the numeral of that number denotes the same. -/
theorem rational_of_value? {n : JsonNumber} (h : x.value? = some n) (hexact : x.Exact) :
    n.numeral.rational = x.rational := by
  have hwhole {m : Int} (hfraction : x.fraction = []) (hexponent : x.exponent = none)
      (hnegative : decide (m < 0) = x.negative) (hm : m.natAbs = Text.digitsValue x.whole) :
      (JsonNumber.whole m).numeral.rational = x.rational := by
    simp only [JsonNumber.numeral, rational, significand, power, hfraction, hexponent, hnegative, hm,
      List.append_nil, Text.digitsValue_digits]
  unfold value? at h
  dsimp only at h
  split at h
  · next hplain =>
    cases h
    simp only [Bool.and_eq_true, List.isEmpty_iff, Option.isNone_iff_eq_none, Bool.not_eq_true'] at hplain
    exact hwhole hplain.1.1.1 hplain.1.1.2 (by rw [hplain.1.2]; simp) rfl
  split at h
  · next hminus =>
    cases h
    simp only [Bool.and_eq_true, List.isEmpty_iff, Option.isNone_iff_eq_none, bne_iff_ne] at hminus
    refine hwhole hminus.1.1.1.1 hminus.1.1.1.2 ?_ (by simp)
    rw [hminus.1.1.2, decide_eq_true_eq, Int.ofNat_eq_natCast]
    omega
  · next hplain hminus =>
    obtain ⟨size, hsize, rfl⟩ := Option.map_eq_some_iff.1 h
    rcases hexact with ⟨hfraction, hexponent, hfits⟩ | ⟨hsmall, hpower⟩
    · -- Of the whole numbers of 64 bits only the negative zero is no whole number for the reader.
      have hzero : x.significand = 0 := by
        have hdigits : x.significand = Text.digitsValue x.whole := by rw [significand, hfraction, List.append_nil]
        cases hnegative : x.negative <;>
          simp [hnegative, hfraction, hexponent, ← hdigits] at hfits hplain hminus
        · omega
        · by_contra hne
          have hlarge := hminus hne
          omega
      exact rational_of_binary? hsize (hzero ▸ Power.ofTen_pos 15) (by simp [power, hfraction, hexponent])
    · exact rational_of_binary? hsize hsmall hpower

end Numeral

end Json

end SignOff
