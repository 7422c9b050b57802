import Mathlib.Algebra.Order.Field.Power
import Mathlib.Data.Rat.Cast.Order
import Mathlib.Order.Interval.Set.OrdConnected
import Mathlib.Tactic.FieldSimp
import Mathlib.Tactic.Linarith
import Mathlib.Tactic.Positivity
import Mathlib.Tactic.Ring
import SignOff.Number.Shortest

/-!
# Rounding to binary numbers

A ratio is rounded to a number whose interval it lies in, and that number has a full significand unless its
exponent is the least one. Natural numbers of 53 bits and the powers of ten up to the twenty-second are rounded
to themselves. So a decimal with such a significand and such a power of ten is rounded only once.
-/

namespace SignOff

/-! ## Powers as rationals -/

namespace Power

@[simp] theorem cast_ofTwo (k : Nat) : (ofTwo k : ℚ) = 2 ^ k := Nat.cast_pow 2 k

@[simp] theorem cast_ofTen (k : Nat) : (ofTen k : ℚ) = 10 ^ k := Nat.cast_pow 10 k

/-- A power with an exponent of either sign is a quotient of powers, one of which is one. -/
theorem pow_toNat_div (base : ℚ) (h : base ≠ 0) (e : Int) : base ^ e.toNat / base ^ (-e).toNat = base ^ e := by
  rw [← zpow_natCast, ← zpow_natCast, ← zpow_sub₀ h]
  congr 1
  omega

end Power

namespace Binary64

/-- The size of a binary number. -/
def size (x : Binary64) : ℚ := x.significand * 2 ^ x.exponent

/-- The size of a number is its numerator over its denominator. -/
theorem num_div_den (x : Binary64) : (x.num : ℚ) / x.den = x.size := by
  rw [num, den, size, Nat.cast_mul, Power.cast_ofTwo, Power.cast_ofTwo, mul_div_assoc,
    Power.pow_toNat_div 2 two_ne_zero]

/-- Denominators are positive. -/
theorem den_pos (x : Binary64) : 0 < x.den := Power.ofTwo_pos _

/-- The least real that may round to the number. -/
def low (x : Binary64) : ℚ := x.lowerEnd * 2 ^ (x.exponent - 2)

/-- The greatest real that may round to the number. -/
def high (x : Binary64) : ℚ := x.upperEnd * 2 ^ (x.exponent - 2)

/-- The reals that round to the number; the ends do if the significand is even. -/
def interval (x : Binary64) : Set ℚ :=
  if x.significand % 2 = 0 then Set.Icc x.low x.high else Set.Ioo x.low x.high

/-- The rounded number of a ratio: the ratio is in its interval, and no bit of the significand is wasted. -/
structure Rounds (x : Binary64) (q : ℚ) : Prop where
  mem : q ∈ x.interval
  full : fullSignificand ≤ x.significand ∨ x.exponent = leastExponent

/-! ## One rounding -/

/-- The rounded quotient is at most a half away, and nearer than that if it is odd. -/
theorem roundDiv_near (num : Nat) {den : Nat} (h : 0 < den) :
    (num : ℚ) / den ≤ roundDiv num den + 1 / 2 ∧ (roundDiv num den : ℚ) - 1 / 2 ≤ num / den ∧
      (roundDiv num den % 2 = 1 →
        (num : ℚ) / den < roundDiv num den + 1 / 2 ∧ (roundDiv num den : ℚ) - 1 / 2 < num / den) := by
  obtain ⟨habove, hbelow, hodd⟩ : 2 * num ≤ 2 * (roundDiv num den * den) + den ∧
      2 * (roundDiv num den * den) ≤ 2 * num + den ∧ (roundDiv num den % 2 = 1 →
        2 * num < 2 * (roundDiv num den * den) + den ∧ 2 * (roundDiv num den * den) < 2 * num + den) := by
    have hsplit : num / den * den + num % den = num := Nat.div_add_mod' num den
    have hrest : num % den < den := Nat.mod_lt num h
    have hnext : (num / den + 1) * den = num / den * den + den := Nat.succ_mul _ _
    unfold roundDiv
    simp only [Bool.or_eq_true, Bool.and_eq_true, decide_eq_true_eq, beq_iff_eq]
    split
    · generalize num / den * den = below at *
      omega
    · rw [hnext]
      generalize num / den * den = below at *
      omega
  have hden : (0 : ℚ) < den := by exact_mod_cast h
  rw [div_le_iff₀ hden, le_div_iff₀ hden, div_lt_iff₀ hden, lt_div_iff₀ hden]
  generalize roundDiv num den = n at *
  have habove : (2 * num : ℚ) ≤ 2 * (n * den) + den := by exact_mod_cast habove
  have hbelow : (2 * (n * den) : ℚ) ≤ 2 * num + den := by exact_mod_cast hbelow
  refine ⟨by linarith, by linarith, fun h => ?_⟩
  obtain ⟨hless, hmore⟩ := hodd h
  have hless : (2 * num : ℚ) < 2 * (n * den) + den := by exact_mod_cast hless
  have hmore : (2 * (n * den) : ℚ) < 2 * num + den := by exact_mod_cast hmore
  exact ⟨by linarith, by linarith⟩

/-- The scaled ratio is the ratio times a power of two. -/
theorem scaledNum_div_scaledDen (num den : Nat) (e : Int) :
    (scaledNum num e : ℚ) / scaledDen den e = num / den * 2 ^ (-e) := by
  have hpow := Power.pow_toNat_div 2 two_ne_zero (-e)
  rw [neg_neg] at hpow
  rw [scaledNum, scaledDen, Nat.cast_mul, Nat.cast_mul, Power.cast_ofTwo, Power.cast_ofTwo, mul_div_mul_comm, hpow]

/-- Scaled denominators are positive. -/
theorem scaledDen_pos {den : Nat} (h : 0 < den) (e : Int) : 0 < scaledDen den e :=
  Nat.mul_pos h (Power.ofTwo_pos _)

/-- The quotient lies in the range of the logarithms. -/
theorem ratio_mem_log2 {num den : Nat} (hnum : 0 < num) (hden : 0 < den) :
    (2 : ℚ) ^ ((num.log2 : Int) - den.log2 - 1) < num / den ∧
      (num : ℚ) / den < 2 ^ ((num.log2 : Int) - den.log2 + 1) := by
  have hnumLow : (2 : ℚ) ^ num.log2 ≤ num := by exact_mod_cast Nat.log2_self_le hnum.ne'
  have hnumHigh : (num : ℚ) < 2 ^ (num.log2 + 1) := by exact_mod_cast Nat.lt_log2_self
  have hdenLow : (2 : ℚ) ^ den.log2 ≤ den := by exact_mod_cast Nat.log2_self_le hden.ne'
  have hdenHigh : (den : ℚ) < 2 ^ (den.log2 + 1) := by exact_mod_cast Nat.lt_log2_self
  have hdenPos : (0 : ℚ) < den := by exact_mod_cast hden
  constructor
  · calc (2 : ℚ) ^ ((num.log2 : Int) - den.log2 - 1) = 2 ^ num.log2 / 2 ^ (den.log2 + 1) := by
          rw [sub_sub, zpow_sub₀ two_ne_zero, zpow_natCast]
          norm_cast
      _ < num / den := div_lt_div₀' hnumLow hdenHigh (by positivity) hdenPos
  · calc (num : ℚ) / den < 2 ^ (num.log2 + 1) / 2 ^ den.log2 :=
          div_lt_div₀ hnumHigh hdenLow (by positivity) (by positivity)
      _ = 2 ^ ((num.log2 : Int) - den.log2 + 1) := by
          rw [sub_add_eq_add_sub, zpow_sub₀ two_ne_zero, zpow_natCast]
          norm_cast

theorem cast_fullSignificand : (fullSignificand : ℚ) = 2 ^ 52 := Power.cast_ofTwo 52

/-- In units of the exponent the quotient has 53 bits before the point, or fewer if the exponent is the least. -/
theorem quotientExponent_scales {num den : Nat} (hnum : 0 < num) (hden : 0 < den) :
    (num : ℚ) / den * 2 ^ (-quotientExponent num den) < 2 ^ 53 ∧
      ((2 : ℚ) ^ 52 ≤ num / den * 2 ^ (-quotientExponent num den) ∨ quotientExponent num den = leastExponent) := by
  obtain ⟨guess, hguess⟩ : ∃ guess : Int, guess = (num.log2 : Int) - den.log2 - 53 := ⟨_, rfl⟩
  obtain ⟨hlow, hhigh⟩ := ratio_mem_log2 hnum hden
  have hratio : (0 : ℚ) < num / den := by positivity
  have hshift (e : Int) (k : Nat) : (2 : ℚ) ^ (e + k) * 2 ^ (-e) = 2 ^ k := by
    rw [← zpow_add₀ two_ne_zero, ← zpow_natCast]
    congr 1
    omega
  have hbelow : scaledNum num guess / scaledDen den guess < 2 * fullSignificand ↔
      (num : ℚ) / den * 2 ^ (-guess) < 2 ^ 53 := by
    rw [Nat.div_lt_iff_lt_mul (scaledDen_pos hden _), ← scaledNum_div_scaledDen,
      div_lt_iff₀ (by exact_mod_cast scaledDen_pos hden guess), ← Nat.cast_lt (α := ℚ), Nat.cast_mul, Nat.cast_mul,
      cast_fullSignificand]
    norm_num
  -- The guess is right, or one too small where the quotient is nearer to the end of the range.
  obtain ⟨e, he, hless, hmore⟩ : ∃ e, quotientExponent num den = max e leastExponent ∧
      (num : ℚ) / den * 2 ^ (-e) < 2 ^ 53 ∧ (2 : ℚ) ^ 52 ≤ num / den * 2 ^ (-e) := by
    unfold quotientExponent
    dsimp only
    rw [← hguess]
    split
    · next hfits =>
      refine ⟨guess, rfl, hbelow.1 hfits, ?_⟩
      rw [← hshift guess 52]
      gcongr
      exact le_of_lt (lt_of_le_of_lt (zpow_le_zpow_right₀ one_le_two (by omega)) hlow)
    · next hlarge =>
      rw [hbelow, not_lt] at hlarge
      refine ⟨guess + 1, rfl, ?_, ?_⟩
      · rw [← hshift (guess + 1) 53]
        gcongr
        exact lt_of_lt_of_le hhigh (zpow_le_zpow_right₀ one_le_two (by omega))
      · have hhalf : (num : ℚ) / den * 2 ^ (-(guess + 1)) = num / den * 2 ^ (-guess) / 2 := by
          rw [neg_add, zpow_add₀ two_ne_zero, zpow_neg_one]
          ring
        linarith
  rw [he]
  rcases le_total leastExponent e with hle | hle
  · rw [max_eq_left hle]
    exact ⟨hless, Or.inl hmore⟩
  · rw [max_eq_right hle]
    refine ⟨lt_of_le_of_lt ?_ hless, Or.inr rfl⟩
    gcongr
    exact one_le_two

/-- A real is in the interval if it is between the ends in quarters of the last place. -/
theorem mem_interval_iff {x : Binary64} {q : ℚ} : q ∈ x.interval ↔
    if x.significand % 2 = 0 then x.lowerEnd ≤ 4 * (q * 2 ^ (-x.exponent)) ∧ 4 * (q * 2 ^ (-x.exponent)) ≤ x.upperEnd
    else x.lowerEnd < 4 * (q * 2 ^ (-x.exponent)) ∧ 4 * (q * 2 ^ (-x.exponent)) < x.upperEnd := by
  have hunit : (0 : ℚ) < 2 ^ (x.exponent - 2) := by positivity
  have hquarters : 4 * (q * 2 ^ (-x.exponent)) = q / 2 ^ (x.exponent - 2) := by
    rw [zpow_sub₀ two_ne_zero, zpow_neg]
    field_simp
    ring
  rw [hquarters]
  unfold interval low high
  split
  · rw [Set.mem_Icc, le_div_iff₀ hunit, div_le_iff₀ hunit]
  · rw [Set.mem_Ioo, lt_div_iff₀ hunit, div_lt_iff₀ hunit]

/-- What is within a half of a significand in units of the exponent is in the interval of the number, if the
significand is full or the exponent the least. -/
theorem mem_interval_of_near {negative : Bool} {n : Nat} {e : Int} {q : ℚ} (hq : 0 ≤ q)
    (habove : q * 2 ^ (-e) ≤ n + 1 / 2) (hbelow : (n : ℚ) - 1 / 2 ≤ q * 2 ^ (-e))
    (hodd : n % 2 = 1 → q * 2 ^ (-e) < n + 1 / 2 ∧ (n : ℚ) - 1 / 2 < q * 2 ^ (-e))
    (hfull : (2 : ℚ) ^ 52 ≤ q * 2 ^ (-e) ∨ e = leastExponent) : q ∈ interval ⟨negative, n, e⟩ := by
  have hlower : (lowerEnd ⟨negative, n, e⟩ : ℚ) ≤ 4 * n - 2 ∨
      n % 2 = 0 ∧ (lowerEnd ⟨negative, n, e⟩ : ℚ) ≤ 4 * (q * 2 ^ (-e)) := by
    unfold lowerEnd
    split
    · next hleft =>
      -- Below a power of two the next number is only half as far away.
      simp only [Bool.and_eq_true, beq_iff_eq, bne_iff_ne] at hleft
      obtain ⟨rfl, hne⟩ := hleft
      have hcast : ((4 * fullSignificand - 1 : Nat) : ℚ) ≤ 4 * fullSignificand := by
        exact_mod_cast Nat.sub_le _ _
      rw [cast_fullSignificand] at hcast
      exact Or.inr ⟨rfl, by linarith [hfull.resolve_right hne]⟩
    · rcases Nat.eq_zero_or_pos n with rfl | hpos
      · exact Or.inr ⟨rfl, by simpa using by positivity⟩
      · refine Or.inl (le_of_eq ?_)
        change ((4 * n - 2 : Nat) : ℚ) = 4 * n - 2
        rw [Nat.cast_sub (by omega)]
        push_cast
        rfl
  have hupper : (upperEnd ⟨negative, n, e⟩ : ℚ) = 4 * n + 2 := by simp [upperEnd]
  rw [mem_interval_iff, hupper]
  dsimp only
  split
  · refine ⟨?_, by linarith⟩
    rcases hlower with hlower | ⟨-, hlower⟩
    · linarith
    · exact hlower
  · next hne =>
    obtain ⟨hless, hmore⟩ := hodd (Nat.mod_two_ne_zero.1 hne)
    refine ⟨?_, by linarith⟩
    rcases hlower with hlower | ⟨heven, -⟩
    · linarith
    · contradiction

/-- Near the end of a range of exponents a real is in the interval of the first number of the next range. -/
theorem mem_interval_of_carry {negative : Bool} {e : Int} {q : ℚ} (he : leastExponent ≤ e)
    (habove : q * 2 ^ (-e) ≤ 2 * fullSignificand + 1 / 2) (hbelow : 2 * (fullSignificand : ℚ) - 1 / 2 ≤ q * 2 ^ (-e)) :
    q ∈ interval ⟨negative, fullSignificand, e + 1⟩ := by
  have hhalf : q * 2 ^ (-(e + 1)) = q * 2 ^ (-e) / 2 := by
    rw [neg_add, zpow_add₀ two_ne_zero, zpow_neg_one]
    ring
  have hlower : lowerEnd ⟨negative, fullSignificand, e + 1⟩ + 1 = 4 * fullSignificand := by
    have hne : e + 1 ≠ leastExponent := by omega
    have hpositive : 0 < fullSignificand := Power.ofTwo_pos 52
    simp only [lowerEnd, beq_self_eq_true, bne_iff_ne.2 hne, Bool.and_self, if_true]
    omega
  have hlower : (lowerEnd ⟨negative, fullSignificand, e + 1⟩ : ℚ) + 1 = 4 * fullSignificand := by
    exact_mod_cast hlower
  rw [mem_interval_iff]
  dsimp only
  rw [if_pos (show fullSignificand % 2 = 0 from rfl), hhalf, upperEnd]
  push_cast
  constructor <;> linarith

/-- A ratio is rounded to a number whose interval it lies in, with the sign that is asked for. -/
theorem rounds_of_ofRatio? {negative : Bool} {num den : Nat} {x : Binary64} (hnum : 0 < num) (hden : 0 < den)
    (h : ofRatio? negative num den = some x) : x.Rounds (num / den) ∧ x.negative = negative := by
  obtain ⟨hfits, hfull⟩ := quotientExponent_scales hnum hden
  have hnear := roundDiv_near (scaledNum num (quotientExponent num den))
    (scaledDen_pos hden (quotientExponent num den))
  rw [scaledNum_div_scaledDen] at hnear
  have hleast : leastExponent ≤ quotientExponent num den := Int.le_max_right _ _
  have hratio : (0 : ℚ) ≤ num / den := by positivity
  unfold ofRatio? at h
  simp only [Nat.ne_of_gt hnum, beq_iff_eq, if_false, Option.ite_none_right_eq_some, Option.some.injEq] at h
  obtain ⟨-, h⟩ := h
  generalize quotientExponent num den = e at *
  generalize roundDiv (scaledNum num e) (scaledDen den e) = n at *
  obtain ⟨habove, hbelow, hodd⟩ := hnear
  split at h
  · next htop =>
    subst h htop
    push_cast at habove hbelow
    exact ⟨⟨mem_interval_of_carry hleast habove hbelow, Or.inl le_rfl⟩, rfl⟩
  · subst h
    refine ⟨⟨mem_interval_of_near hratio habove hbelow hodd hfull, ?_⟩, rfl⟩
    refine hfull.imp_left fun hfull => ?_
    rw [← cast_fullSignificand] at hfull
    have hless : (fullSignificand : ℚ) < n + 1 := by linarith
    exact Nat.lt_succ_iff.1 (by exact_mod_cast hless)

/-! ## Numbers that are rounded to themselves -/

/-- A natural number of 53 bits is rounded to itself. -/
theorem size_of_ofNat? {n : Nat} {x : Binary64} (hpos : 0 < n) (hsmall : n < Power.ofTwo 53)
    (h : ofNat? n = some x) : x.size = n ∧ x.negative = false := by
  have hexponent : quotientExponent n 1 ≤ 0 := by
    have hlog : n.log2 < 53 := (Nat.log2_lt (Nat.ne_of_gt hpos)).2 hsmall
    have hone : Nat.log2 1 = 0 := rfl
    unfold quotientExponent
    dsimp only
    refine max_le ?_ (by decide)
    split <;> omega
  have hround (k : Nat) : roundDiv k 1 = k := by simp [roundDiv, Nat.mod_one]
  have hden : scaledDen 1 (quotientExponent n 1) = 1 := by
    rw [scaledDen, Int.toNat_eq_zero.2 hexponent, Power.ofTwo_zero]
  have hscaled : (scaledNum n (quotientExponent n 1) : ℚ) = n * 2 ^ (-quotientExponent n 1) := by
    have hdiv := scaledNum_div_scaledDen n 1 (quotientExponent n 1)
    rwa [hden, Nat.cast_one, div_one, div_one] at hdiv
  unfold ofNat? ofRatio? at h
  simp only [Nat.ne_of_gt hpos, beq_iff_eq, if_false, Option.ite_none_right_eq_some, Option.some.injEq, hden,
    hround] at h
  obtain ⟨-, rfl⟩ := h
  generalize quotientExponent n 1 = e at *
  have hsize : (scaledNum n e : ℚ) * 2 ^ e = n := by
    rw [hscaled, mul_assoc, ← zpow_add₀ two_ne_zero, neg_add_cancel, zpow_zero, mul_one]
  split
  · next hcarry =>
    refine ⟨?_, rfl⟩
    rw [hcarry] at hsize
    rw [size, zpow_add₀ two_ne_zero, zpow_one, ← hsize]
    push_cast
    ring
  · exact ⟨hsize, rfl⟩

/-- The first powers of ten are rounded to themselves. -/
theorem size_of_powerOfTen? {k : Nat} {x : Binary64} (hk : k ≤ 22) (h : powerOfTen? k = some x) :
    x.size = 10 ^ k ∧ x.negative = false := by
  have hall : ∀ k ≤ 22, (powerOfTen? k).all fun x => x.num == Power.ofTen k * x.den && !x.negative := by
    decide +kernel
  have hx := hall k hk
  simp only [h, Option.all_some, Bool.and_eq_true, beq_iff_eq, Bool.not_eq_true'] at hx
  have hden : (x.den : ℚ) ≠ 0 := by exact_mod_cast x.den_pos.ne'
  refine ⟨?_, hx.2⟩
  rw [← num_div_den, hx.1, Nat.cast_mul, Power.cast_ofTen, mul_div_cancel_right₀ _ hden]

/-! ## Decimals that are rounded once -/

/-- The numerator of a number other than zero is positive. -/
theorem num_pos {x : Binary64} (h : 0 < x.size) : 0 < x.num := by
  rw [Nat.pos_iff_ne_zero]
  intro hzero
  rw [← num_div_den, hzero] at h
  simp at h

/-- A product is the exact one, rounded; it is negative when just one factor is. -/
theorem rounds_of_mul? {x y z : Binary64} (hx : 0 < x.size) (hy : 0 < y.size) (h : x.mul? y = some z) :
    z.Rounds (x.size * y.size) ∧ z.negative = (x.negative != y.negative) := by
  have hrounds := rounds_of_ofRatio? (Nat.mul_pos (num_pos hx) (num_pos hy)) (Nat.mul_pos x.den_pos y.den_pos) h
  rwa [Nat.cast_mul, Nat.cast_mul, mul_div_mul_comm, num_div_den, num_div_den] at hrounds

/-- A quotient is the exact one, rounded; it is negative when just one of dividend and divisor is. -/
theorem rounds_of_div? {x y z : Binary64} (hx : 0 < x.size) (hy : 0 < y.size) (h : x.div? y = some z) :
    z.Rounds (x.size / y.size) ∧ z.negative = (x.negative != y.negative) := by
  have hrounds := rounds_of_ofRatio? (Nat.mul_pos (num_pos hx) y.den_pos) (Nat.mul_pos x.den_pos (num_pos hy)) h
  rwa [Nat.cast_mul, Nat.cast_mul, ← div_div_div_eq, num_div_den, num_div_den] at hrounds

/-- A decimal with a significand of 53 bits and one of the first powers of ten is rounded once. -/
theorem rounds_of_ofDecimal? {significand : Nat} {exponent : Int} {x : Binary64} (hpos : 0 < significand)
    (hsmall : significand < Power.ofTwo 53) (hexponent : exponent.natAbs ≤ 22)
    (h : ofDecimal? significand exponent = some x) :
    x.Rounds (significand * 10 ^ exponent) ∧ x.negative = false := by
  obtain ⟨s, hs, h⟩ := Option.bind_eq_some_iff.1 h
  obtain ⟨hsize, hpositive⟩ := size_of_ofNat? hpos hsmall hs
  have hsizePos : 0 < s.size := by rw [hsize]; exact_mod_cast hpos
  have hgreatest : exponent.natAbs ≤ greatestPower := Nat.le_trans hexponent (by decide)
  split at h
  · next hneg =>
    rw [shrinkSteps, shrink?, if_pos hgreatest] at h
    obtain ⟨p, hp, hdiv⟩ := Option.bind_eq_some_iff.1 h
    obtain ⟨hpower, hplus⟩ := size_of_powerOfTen? hexponent hp
    have hrounds := rounds_of_div? hsizePos (by rw [hpower]; positivity) hdiv
    have habs : exponent = -(exponent.natAbs : Int) := by omega
    rw [hsize, hpower, hpositive, hplus] at hrounds
    rwa [habs, zpow_neg, zpow_natCast, ← div_eq_mul_inv]
  · next hneg =>
    obtain ⟨p, hp, hmul⟩ := Option.bind_eq_some_iff.1 h
    obtain ⟨hpower, hplus⟩ := size_of_powerOfTen? hexponent hp
    have hrounds := rounds_of_mul? hsizePos (by rw [hpower]; positivity) hmul
    have habs : exponent = (exponent.natAbs : Int) := by omega
    rw [hsize, hpower, hpositive, hplus] at hrounds
    rwa [habs, zpow_natCast]

/-- Nothing but zero becomes of zero. -/
theorem isZero_of_ofDecimal?_zero {exponent : Int} {x : Binary64} (hexponent : exponent.natAbs ≤ greatestPower)
    (h : ofDecimal? 0 exponent = some x) : x.isZero = true := by
  have hratio {negative : Bool} {num den : Nat} (hnum : num = 0) (h : ofRatio? negative num den = some x) :
      x.isZero = true := by
    subst hnum
    exact Option.some.inj h ▸ rfl
  unfold ofDecimal? at h
  obtain ⟨zero, hzero, h⟩ := Option.bind_eq_some_iff.1 h
  have hnum : zero.num = 0 := Option.some.inj hzero ▸ Nat.zero_mul _
  split at h
  · rw [shrinkSteps, shrink?, if_pos hexponent] at h
    obtain ⟨p, -, hdiv⟩ := Option.bind_eq_some_iff.1 h
    exact hratio (by rw [hnum, Nat.zero_mul]) hdiv
  · obtain ⟨p, -, hmul⟩ := Option.bind_eq_some_iff.1 h
    exact hratio (by rw [hnum, Nat.zero_mul]) hmul

end Binary64

end SignOff
