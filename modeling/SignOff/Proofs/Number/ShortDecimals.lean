import SignOff.Proofs.Number.Digits
import SignOff.Proofs.Number.Rounding

/-!
# Short decimals are found again

The interval of a binary number is less wide than the grid of a decimal of fifteen digits that rounds to it, so
no other point of that grid, or of a coarser one, is in the interval. The search for the shortest decimal goes
over the coarser grids first, so what it finds is that decimal. This holds for powers of ten near one, where the
decimal is rounded only once.
-/

namespace SignOff

/-- The size of a decimal. -/
def Decimal.size (x : Decimal) : ℚ := Text.digitsValue x.digits * 10 ^ (x.point - x.digits.length)

namespace Binary64

variable {x : Binary64} {power top : Int} {c : Nat} {q : ℚ}

/-! ## Intervals -/

/-- Between two numbers in the interval all numbers are in it. -/
theorem ordConnected_interval (x : Binary64) : x.interval.OrdConnected := by
  unfold interval
  split
  · exact Set.ordConnected_Icc
  · exact Set.ordConnected_Ioo

/-- A number has its significand many units of its last place. -/
theorem size_mul_unit (x : Binary64) : x.size * 2 ^ (-x.exponent) = x.significand := by
  rw [size, mul_assoc, ← zpow_add₀ two_ne_zero, add_neg_cancel, zpow_zero, mul_one]

/-- A number that is not zero is inside of its interval. -/
theorem size_mem_interval (h : x.significand ≠ 0) : x.size ∈ x.interval := by
  have hlower : x.lowerEnd < 4 * x.significand := by
    unfold lowerEnd
    split <;> omega
  have hlower : (x.lowerEnd : ℚ) < 4 * x.significand := by exact_mod_cast hlower
  have hupper : (x.upperEnd : ℚ) = 4 * x.significand + 2 := by simp [upperEnd]
  rw [mem_interval_iff, size_mul_unit, hupper]
  split <;> constructor <;> linarith

/-- What is in the interval is at most a half of the last place away. -/
theorem near_of_mem_interval (h : q ∈ x.interval) :
    x.size - 2 ^ x.exponent / 2 ≤ q ∧ q ≤ x.size + 2 ^ x.exponent / 2 := by
  have hunit : (0 : ℚ) < 2 ^ x.exponent := by positivity
  have hlower : (4 * x.significand : ℚ) ≤ x.lowerEnd + 2 := by
    have hnat : 4 * x.significand ≤ x.lowerEnd + 2 := by
      unfold lowerEnd
      split <;> omega
    exact_mod_cast hnat
  have hupper : (x.upperEnd : ℚ) = 4 * x.significand + 2 := by simp [upperEnd]
  have hq : q * 2 ^ (-x.exponent) = q / 2 ^ x.exponent := by rw [zpow_neg, div_eq_mul_inv]
  have hmem : (x.lowerEnd : ℚ) ≤ 4 * (q / 2 ^ x.exponent) ∧ 4 * (q / 2 ^ x.exponent) ≤ x.upperEnd := by
    rw [mem_interval_iff, hq] at h
    split at h
    · exact h
    · exact ⟨h.1.le, h.2.le⟩
  have hlow : (x.significand - 1 / 2 : ℚ) ≤ q / 2 ^ x.exponent := by linarith
  have hhigh : q / 2 ^ x.exponent ≤ (x.significand + 1 / 2 : ℚ) := by linarith
  rw [le_div_iff₀ hunit] at hlow
  rw [div_le_iff₀ hunit] at hhigh
  rw [size]
  constructor <;> linarith

/-! ## Grids of powers of ten -/

/-- The ratio on the grid is so many quarters of a unit, counted in powers of ten. -/
theorem gridNum_div_gridDen (x : Binary64) (power : Int) (quarters : Nat) :
    (x.gridNum power quarters : ℚ) / x.gridDen power = quarters * 2 ^ (x.exponent - 2) / 10 ^ power := by
  have htwo := Power.pow_toNat_div 2 two_ne_zero (x.exponent - 2)
  have hten := Power.pow_toNat_div 10 (by norm_num) (-power)
  rw [neg_neg, zpow_neg] at hten
  simp only [gridNum, gridDen, Nat.cast_mul, Power.cast_ofTwo, Power.cast_ofTen]
  rw [mul_div_mul_comm, hten, mul_div_assoc, htwo, div_eq_mul_inv]

/-- Denominators on the grid are positive. -/
theorem gridDen_pos (x : Binary64) (power : Int) : (0 : ℚ) < x.gridDen power := by
  exact_mod_cast Nat.mul_pos (Power.ofTwo_pos _) (Power.ofTen_pos _)

/-- Points of a grid are compared with quarters of the last place as whole numbers. -/
theorem gridNum_le_iff {quarters : Nat} :
    x.gridNum power quarters ≤ c * x.gridDen power ↔ (quarters : ℚ) * 2 ^ (x.exponent - 2) ≤ c * 10 ^ power := by
  have hten : (0 : ℚ) < 10 ^ power := by positivity
  rw [← Nat.cast_le (α := ℚ), Nat.cast_mul, ← div_le_iff₀ (x.gridDen_pos power), gridNum_div_gridDen,
    div_le_iff₀ hten]

/-- Comparing on the grid is comparing a decimal with so many quarters of a unit. -/
theorem le_gridNum_iff {quarters : Nat} :
    c * x.gridDen power ≤ x.gridNum power quarters ↔ (c : ℚ) * 10 ^ power ≤ quarters * 2 ^ (x.exponent - 2) := by
  have hten : (0 : ℚ) < 10 ^ power := by positivity
  rw [← Nat.cast_le (α := ℚ), Nat.cast_mul, ← le_div_iff₀ (x.gridDen_pos power), gridNum_div_gridDen,
    le_div_iff₀ hten]

/-- A point of a grid reads back when it is in the interval. -/
theorem readsBack_iff : x.readsBack power c = true ↔ (c : ℚ) * 10 ^ power ∈ x.interval := by
  unfold readsBack interval
  simp only [beq_iff_eq]
  split
  · simp only [Bool.and_eq_true, decide_eq_true_eq, gridNum_le_iff, le_gridNum_iff, Set.mem_Icc, low, high]
  · simp only [Bool.and_eq_true, decide_eq_true_eq, ← not_le, gridNum_le_iff, le_gridNum_iff, Set.mem_Ioo, low, high]

/-- If a grid has a point in the interval, one of the neighbours of the number on it is found. -/
theorem exists_onGrid? (h : x.significand ≠ 0) (hc : (c : ℚ) * 10 ^ power ∈ x.interval) :
    ∃ d, x.onGrid? power = some d := by
  have hsize := size_mem_interval h
  obtain ⟨below, hbelow⟩ : ∃ below, below = x.gridNum power (4 * x.significand) / x.gridDen power := ⟨_, rfl⟩
  have hquarters : ((4 * x.significand : Nat) : ℚ) * 2 ^ (x.exponent - 2) = x.size := by
    rw [size, zpow_sub₀ two_ne_zero]
    push_cast
    ring
  have hden : 0 < x.gridDen power := by exact_mod_cast x.gridDen_pos power
  have hunder : (below : ℚ) * 10 ^ power ≤ x.size := by
    rw [← hquarters, ← le_gridNum_iff, hbelow]
    exact Nat.div_mul_le_self _ _
  have hover : x.size < (below + 1 : Nat) * 10 ^ power := by
    rw [← hquarters, ← not_le, ← le_gridNum_iff, not_le, hbelow]
    exact Nat.lt_mul_of_div_lt (Nat.lt_succ_self _) hden
  have hreads : x.readsBack power below = true ∨ x.readsBack power (below + 1) = true := by
    rw [readsBack_iff, readsBack_iff]
    rcases Nat.lt_or_ge below c with hlt | hle
    · right
      refine (ordConnected_interval x).out hsize hc ⟨hover.le, ?_⟩
      gcongr
      exact hlt
    · left
      refine (ordConnected_interval x).out hc hsize ⟨?_, hunder⟩
      gcongr
  unfold onGrid?
  dsimp only
  rw [← hbelow]
  split
  · next hnot hnext => simp [hnot, hnext] at hreads
  · exact ⟨_, rfl⟩
  · exact ⟨_, rfl⟩
  · split_ifs <;> exact ⟨_, rfl⟩

/-- The search ends on a grid not finer than one on which something is found. -/
theorem exists_search {tries : Nat} (hpower : power ≤ top) (htries : top < power + tries)
    (h : ∃ d, x.onGrid? power = some d) : ∃ d found, x.search top tries = some (d, found) ∧ power ≤ found := by
  induction tries generalizing top with
  | zero => omega
  | succ tries ih =>
    rw [search]
    cases htop : x.onGrid? top with
    | some d => exact ⟨d, top, rfl, hpower⟩
    | none =>
      have hne : power ≠ top := by
        rintro rfl
        simp [htop] at h
      exact ih (by omega) (by push_cast at htries; omega)

/-- The power of ten above a ratio is found if it is among those that are tried. -/
theorem scaleFrom_spec {num den tries k : Nat}
    (h : ∃ j, k ≤ j ∧ j < k + tries ∧ num < Power.ofTen j * den) :
    num < Power.ofTen (scaleFrom num den tries k) * den ∧
      ∀ j, k ≤ j → j < scaleFrom num den tries k → Power.ofTen j * den ≤ num := by
  induction tries generalizing k with
  | zero =>
    obtain ⟨j, hk, hj, -⟩ := h
    omega
  | succ tries ih =>
    rw [scaleFrom]
    split
    · next hfound => exact ⟨hfound, fun j hk hj => by omega⟩
    · next hnot =>
      obtain ⟨j, hk, hj, hnum⟩ := h
      have hne : k ≠ j := by
        rintro rfl
        exact hnot hnum
      obtain ⟨hless, hmore⟩ := ih (k := k + 1) ⟨j, by omega, by omega, hnum⟩
      refine ⟨hless, fun i hki hi => ?_⟩
      rcases Nat.eq_or_lt_of_le hki with rfl | hki
      · exact Nat.le_of_not_lt hnot
      · exact hmore i hki hi

/-- The scale is the power of ten above the number, if that has at most as many places as are looked at. -/
theorem scale_spec (hlow : (10 : ℚ) ^ (-(widest : Int)) ≤ x.size) (hhigh : x.size < 10 ^ (widest - 1 : Int)) :
    (10 : ℚ) ^ (x.scale - 1) ≤ x.size ∧ x.size < 10 ^ x.scale := by
  have hden : (0 : ℚ) < x.den := by exact_mod_cast x.den_pos
  have hless (j : Nat) : x.num * Power.ofTen widest < Power.ofTen j * x.den ↔
      x.size < (10 : ℚ) ^ ((j : Int) - widest) := by
    rw [← Nat.cast_lt (α := ℚ), Nat.cast_mul, Nat.cast_mul, ← div_lt_iff₀ hden, mul_div_right_comm, num_div_den,
      Power.cast_ofTen, Power.cast_ofTen, zpow_sub₀ (by norm_num), zpow_natCast, zpow_natCast,
      lt_div_iff₀ (by positivity)]
  have hexists : ∃ j, 0 ≤ j ∧ j < 0 + 2 * widest ∧ x.num * Power.ofTen widest < Power.ofTen j * x.den :=
    ⟨2 * widest - 1, by decide, by decide, (hless _).2 hhigh⟩
  obtain ⟨habove, hbelow⟩ := scaleFrom_spec hexists
  unfold scale
  generalize scaleFrom (x.num * Power.ofTen widest) x.den (2 * widest) 0 = k at *
  rw [hless] at habove
  refine ⟨?_, habove⟩
  cases k with
  | zero =>
    rw [Nat.cast_zero, zero_sub] at habove
    exact absurd habove (not_lt.2 hlow)
  | succ k =>
    have hmore := hbelow k (Nat.zero_le _) (Nat.lt_succ_self _)
    rw [← not_lt, hless, not_lt] at hmore
    rwa [Nat.cast_succ, sub_right_comm, add_sub_cancel_right]

/-! ## Decimals of fifteen digits -/

/-- With a full significand the last place is small against the number. -/
theorem unit_le_size (h : fullSignificand ≤ x.significand) : 2 ^ 52 * (2 : ℚ) ^ x.exponent ≤ x.size := by
  rw [size, ← cast_fullSignificand]
  gcongr

/-- A decimal that is not tiny is rounded to a number with a full significand. -/
theorem Rounds.full_of_le (h : x.Rounds q) (hq : (10 : ℚ) ^ (-22 : Int) ≤ q) : fullSignificand ≤ x.significand := by
  by_contra hsmall
  have hleast : x.exponent = leastExponent := h.full.resolve_left hsmall
  obtain ⟨-, hhigh⟩ := near_of_mem_interval h.mem
  have hsize : x.size ≤ 2 ^ 52 * 2 ^ x.exponent := by
    rw [size, ← cast_fullSignificand]
    gcongr
    exact Nat.le_of_not_le hsmall
  refine absurd hq (not_le.2 ?_)
  calc q ≤ (2 ^ 52 + 1 / 2) * 2 ^ x.exponent := by linarith
    _ ≤ (2 ^ 52 + 1 / 2) * 2 ^ (-200 : Int) := by
        rw [hleast]
        gcongr
        · exact one_le_two
        · decide
    _ < 10 ^ (-22 : Int) := by norm_num

/-- What a ratio that is not too small rounds to is not zero. -/
theorem Rounds.significand_ne_zero (h : x.Rounds q) (hq : (10 : ℚ) ^ (-22 : Int) ≤ q) : x.significand ≠ 0 :=
  Nat.ne_of_gt (Nat.lt_of_lt_of_le (Power.ofTwo_pos 52) (h.full_of_le hq))

/-- Two points of a grid that is wider than the interval are the same if both are in the interval. -/
theorem eq_of_mem_interval {d : Nat} (hwide : (2 : ℚ) ^ x.exponent < 10 ^ power)
    (hc : (c : ℚ) * 10 ^ power ∈ x.interval) (hd : (d : ℚ) * 10 ^ power ∈ x.interval) : c = d := by
  have hten : (0 : ℚ) < 10 ^ power := by positivity
  obtain ⟨hcLow, hcHigh⟩ := near_of_mem_interval hc
  obtain ⟨hdLow, hdHigh⟩ := near_of_mem_interval hd
  have hless {a b : Nat} (h : (a : ℚ) * 10 ^ power - b * 10 ^ power < 10 ^ power) : a < b + 1 := by
    have hsum : (a : ℚ) * 10 ^ power < (b + 1) * 10 ^ power := by linarith
    exact_mod_cast lt_of_mul_lt_mul_right hsum hten.le
  have hcd : c < d + 1 := hless (by linarith)
  have hdc : d < c + 1 := hless (by linarith)
  omega

/-- The size of digits does not depend on the zeros at their end. -/
theorem size_stripZeros (ds : List Char) (power : Int) :
    (Decimal.mk (stripZeros ds) (power + ds.length)).size = Text.digitsValue ds * 10 ^ power := by
  obtain ⟨n, hsplit⟩ := stripZeros_append ds
  have hvalue : Text.digitsValue ds = Text.digitsValue (stripZeros ds) * Power.ofTen n := by
    conv_lhs => rw [← hsplit, Text.digitsValue_append, Text.digitsValue_replicate_zero, List.length_replicate,
      Nat.add_zero]
  have hlength : ds.length = (stripZeros ds).length + n := by
    conv_lhs => rw [← hsplit, List.length_append, List.length_replicate]
  have hpower : power + (ds.length : Int) - (stripZeros ds).length = n + power := by omega
  rw [Decimal.size, hpower, zpow_add₀ (by norm_num), zpow_natCast, hvalue, Nat.cast_mul, Power.cast_ofTen]
  ring

/-- The grid of a decimal of fifteen digits, or of the number if that is coarser, is wider than the interval, and
the search reaches it. -/
theorem grid_of_rounds {significand : Nat} {exponent : Int} (h : x.Rounds (significand * 10 ^ exponent))
    (hfull : fullSignificand ≤ x.significand) (hsmall : significand < Power.ofTen 15)
    (htop : (10 : ℚ) ^ top ≤ x.size ∧ x.size < 10 ^ (top + 1)) :
    (2 : ℚ) ^ x.exponent < 10 ^ min exponent top ∧ top < min exponent top + (17 : Nat) := by
  have hunit := unit_le_size hfull
  obtain ⟨hlow, hhigh⟩ := near_of_mem_interval h.mem
  have hfew : (significand : ℚ) * 10 ^ exponent < 10 ^ 15 * 10 ^ exponent := by
    have hcast : (significand : ℚ) < 10 ^ 15 := by
      rw [← Power.cast_ofTen]
      exact_mod_cast hsmall
    gcongr
  rcases le_total exponent top with hle | hle
  · rw [min_eq_left hle]
    have hwide : (2 : ℚ) ^ x.exponent < 10 ^ exponent := by linarith
    have hreach : (10 : ℚ) ^ top < 10 ^ (exponent + 16) := by
      rw [zpow_add₀ (by norm_num)]
      norm_num
      linarith
    have hless : top < exponent + 16 := (zpow_lt_zpow_iff_right₀ (by norm_num)).1 hreach
    exact ⟨hwide, by omega⟩
  · rw [min_eq_right hle]
    rw [zpow_add₀ (by norm_num), zpow_one] at htop
    exact ⟨by linarith, by omega⟩

/-- The number itself is of the size of the decimal, so its scale is found. -/
theorem scale_of_rounds (h : x.Rounds q) (hfull : fullSignificand ≤ x.significand) (hleast : (10 : ℚ) ^ (-22 : Int) ≤ q)
    (hgreatest : q < 10 ^ 37) : (10 : ℚ) ^ (x.scale - 1) ≤ x.size ∧ x.size < 10 ^ x.scale := by
  have hunit := unit_le_size hfull
  have hpositive : (0 : ℚ) < 2 ^ x.exponent := by positivity
  obtain ⟨hlow, hhigh⟩ := near_of_mem_interval h.mem
  refine scale_spec ?_ ?_
  · calc (10 : ℚ) ^ (-(widest : Int)) ≤ 10 ^ (-23 : Int) := zpow_le_zpow_right₀ (by norm_num) (by decide)
      _ = 10 ^ (-22 : Int) / 10 := by norm_num
      _ ≤ q / 10 := by gcongr
      _ ≤ x.size := by linarith
  · calc x.size < 10 ^ 38 := by linarith
      _ = 10 ^ (38 : Int) := by norm_num
      _ ≤ 10 ^ (widest - 1 : Int) := zpow_le_zpow_right₀ (by norm_num) (by decide)

/-- A point of a grid is a point of every finer grid. -/
theorem exists_finer {finer : Int} (c : Nat) (h : finer ≤ power) :
    ∃ d : Nat, (c : ℚ) * 10 ^ power = d * 10 ^ finer := by
  refine ⟨c * Power.ofTen (power - finer).toNat, ?_⟩
  have hpower : power = (power - finer).toNat + finer := by omega
  conv_lhs => rw [hpower, zpow_add₀ (by norm_num), zpow_natCast]
  rw [Nat.cast_mul, Power.cast_ofTen]
  ring

/-- Decimals of fifteen digits that are rounded once are neither tiny nor huge. -/
theorem decimal_bounds {significand : Nat} {exponent : Int} (hpos : 0 < significand)
    (hsmall : significand < Power.ofTen 15) (hexponent : exponent.natAbs ≤ 22) :
    (10 : ℚ) ^ (-22 : Int) ≤ significand * 10 ^ exponent ∧ (significand : ℚ) * 10 ^ exponent < 10 ^ 37 := by
  have hone : (1 : ℚ) ≤ significand := by exact_mod_cast hpos
  have hcast : (significand : ℚ) < 10 ^ 15 := by
    rw [← Power.cast_ofTen]
    exact_mod_cast hsmall
  constructor
  · calc (10 : ℚ) ^ (-22 : Int) ≤ 10 ^ exponent := zpow_le_zpow_right₀ (by norm_num) (by omega)
      _ ≤ significand * 10 ^ exponent := le_mul_of_one_le_left (by positivity) hone
  · calc (significand : ℚ) * 10 ^ exponent < 10 ^ 15 * 10 ^ exponent := by gcongr
      _ ≤ 10 ^ 15 * 10 ^ (22 : Int) := by
          gcongr
          · norm_num
          · omega
      _ = 10 ^ 37 := by norm_num

/-- The shortest decimal of a number to which a decimal of fifteen digits is rounded has the size of that decimal. -/
theorem size_shortest {significand : Nat} {exponent : Int} (h : x.Rounds (significand * 10 ^ exponent))
    (hpos : 0 < significand) (hsmall : significand < Power.ofTen 15) (hexponent : exponent.natAbs ≤ 22) :
    x.shortest.size = significand * 10 ^ exponent := by
  obtain ⟨hleast, hgreatest⟩ := decimal_bounds hpos hsmall hexponent
  have hfull := h.full_of_le hleast
  have hne := h.significand_ne_zero hleast
  have htop : (10 : ℚ) ^ (x.scale - 1) ≤ x.size ∧ x.size < 10 ^ (x.scale - 1 + 1) := by
    rw [sub_add_cancel]
    exact scale_of_rounds h hfull hleast hgreatest
  obtain ⟨hwide, hreach⟩ := grid_of_rounds h hfull hsmall htop
  -- The decimal is on a grid that the search reaches, and what the search finds is on that grid too.
  obtain ⟨d, hd⟩ := exists_finer significand (min_le_left exponent (x.scale - 1))
  obtain ⟨c, power, hsearch, hpower⟩ := exists_search (min_le_right exponent (x.scale - 1)) hreach
    (exists_onGrid? hne (hd ▸ h.mem))
  obtain ⟨e, he⟩ := exists_finer c hpower
  have hmem : (c : ℚ) * 10 ^ power ∈ x.interval :=
    readsBack_iff.1 (readsBack_of_onGrid? (onGrid?_of_search hsearch))
  have hsame : e = d := eq_of_mem_interval hwide (he ▸ hmem) (hd ▸ h.mem)
  unfold shortest
  rw [hsearch]
  dsimp only
  rw [size_stripZeros, Text.digitsValue_digits, he, hsame, hd]

end Binary64

end SignOff
