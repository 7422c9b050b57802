import SignOff.Proofs.Json.Scalar
import SignOff.Proofs.Number.Digits

/-!
# Numerals that are written

Every number is written as a numeral, and from the text the reader takes just that numeral. So a number is read
back from its text when it is the number of its own numeral. Whole numbers of 64 bits always are. Whether a
binary number is depends on the two roundings of the reader, so that is a property of the number.
-/

namespace SignOff

namespace Json

/-! ## Texts of numerals -/

/-- The digits after a point, if there are any. -/
def fractionText : List Char → List Char
  | [] => []
  | ds => '.' :: ds

/-- The exponent after its letter, if there is one. -/
def exponentText : Option Int → List Char
  | none => []
  | some e => 'e' :: signedExponent e

namespace Numeral

/-- The text of a numeral. -/
def text (x : Numeral) : List Char :=
  (if x.negative then ['-'] else []) ++ (x.whole ++ (fractionText x.fraction ++ exponentText x.exponent))

/-- The numeral is made of digits, and of its whole part only a zero by itself starts with zero. -/
structure Proper (x : Numeral) : Prop where
  whole : ∀ c ∈ x.whole, c.isDigit = true
  head : ∃ d ds, x.whole = d :: ds ∧ (d = '0' → ds = [])
  fraction : ∀ c ∈ x.fraction, c.isDigit = true

end Numeral

/-- Digits are taken up to the first character that is none. -/
theorem takeDigits_append {ds rest : List Char} (hds : ∀ c ∈ ds, c.isDigit = true) (hne : ds ≠ [])
    (hrest : ∀ c ∈ rest.head?, c.isDigit = false) : takeDigits (ds ++ rest) = .ok (ds, rest) := by
  have hrun : rest.takeWhile Char.isDigit = [] ∧ rest.dropWhile Char.isDigit = rest := by
    cases rest with
    | nil => exact ⟨rfl, rfl⟩
    | cons c rest => simp [hrest c rfl]
  rw [takeDigits, List.takeWhile_append_of_pos hds, List.dropWhile_append_of_pos hds, hrun.1, hrun.2,
    List.append_nil, if_neg (by simpa using hne)]

/-- A fraction and an exponent do not start with a digit. -/
theorem isDigit_head_of_fractionText {fraction : List Char} {exponent : Option Int} :
    ∀ c ∈ (fractionText fraction ++ exponentText exponent).head?, c.isDigit = false := by
  intro c hc
  cases fraction with
  | nil =>
    cases exponent with
    | none => contradiction
    | some e => exact Option.some.inj hc ▸ rfl
  | cons d ds => exact Option.some.inj hc ▸ rfl

/-- An exponent is taken off its own text. -/
theorem takeExponent_exponentText (exponent : Option Int) :
    takeExponent (exponentText exponent) = .ok (exponent, []) := by
  cases exponent with
  | none => rfl
  | some e =>
    have hdigits : takeDigits (Text.digits e.natAbs) = .ok (Text.digits e.natAbs, []) := by
      have hread := @takeDigits_append _ [] (fun _ h => Text.digits_isDigit h) (Text.digits_ne_nil e.natAbs) (by simp)
      rwa [List.append_nil] at hread
    have htake : takeSigned (signedExponent e) = .ok (e, []) := by
      rw [signedExponent]
      split
      · next hneg =>
        have habs : -Int.ofNat e.natAbs = e := by rw [Int.ofNat_eq_natCast]; omega
        simp only [takeSigned, hdigits, bind, Except.bind, Text.digitsValue_digits, habs]
      · next hneg =>
        have habs : Int.ofNat e.natAbs = e := by rw [Int.ofNat_eq_natCast]; omega
        simp only [takeSigned, hdigits, bind, Except.bind, Text.digitsValue_digits, habs]
    rw [exponentText, takeExponent, if_pos (by decide), htake]
    rfl

/-- A fraction is taken off its own text, and the exponent is left. -/
theorem takeFraction_fractionText {fraction : List Char} (h : ∀ c ∈ fraction, c.isDigit = true)
    (exponent : Option Int) :
    takeFraction (fractionText fraction ++ exponentText exponent) = .ok (fraction, exponentText exponent) := by
  cases fraction with
  | nil => cases exponent <;> rfl
  | cons d ds =>
    exact takeDigits_append h (List.cons_ne_nil d ds) (@isDigit_head_of_fractionText [] exponent)

/-- A numeral is taken from its text. -/
theorem readNumeral_text {x : Numeral} (h : x.Proper) : readNumeral x.text = .ok (x, []) := by
  obtain ⟨d, ds, hwhole, hzero⟩ := h.head
  have htakeWhole : takeWhole (x.whole ++ (fractionText x.fraction ++ exponentText x.exponent)) =
      .ok (x.whole, fractionText x.fraction ++ exponentText x.exponent) := by
    rw [takeWhole, takeDigits_append h.whole (by simp [hwhole]) isDigit_head_of_fractionText]
    simp only [bind, Except.bind, hwhole]
    split
    · next heq =>
      obtain ⟨rfl, rfl⟩ := List.cons.inj heq
      exact absurd (hzero rfl) (List.cons_ne_nil _ _)
    · rfl
  have hparts : readParts x.negative (x.whole ++ (fractionText x.fraction ++ exponentText x.exponent)) =
      .ok (x, []) := by
    rw [readParts, htakeWhole]
    simp [bind, Except.bind, takeFraction_fractionText h.fraction, takeExponent_exponentText]
  rw [Numeral.text]
  cases hnegative : x.negative with
  | true =>
    rw [hnegative] at hparts
    exact hparts
  | false =>
    have hminus : d ≠ '-' := by
      rintro rfl
      exact absurd (h.whole '-' (hwhole ▸ List.mem_cons_self)) (by decide)
    rw [hnegative, hwhole, List.cons_append] at hparts
    rw [if_neg Bool.false_ne_true, List.nil_append, hwhole, List.cons_append, readNumeral_of_ne hminus, hparts]

end Json

/-! ## The numerals of numbers -/

/-- The numeral of a decimal, plain or with an exponent. -/
def Decimal.numeral (layout : DecimalLayout) (negative : Bool) (x : Decimal) : Json.Numeral :=
  let power := x.point - 1
  if layout.leastPlain ≤ power ∧ power ≤ layout.greatestPlain then
    if x.point ≤ 0 then ⟨negative, ['0'], List.replicate x.point.natAbs '0' ++ x.digits, none⟩
    else if x.digits.length ≤ x.point.toNat then
      ⟨negative, x.digits ++ List.replicate (x.point.toNat - x.digits.length) '0', ['0'], none⟩
    else ⟨negative, x.digits.take x.point.toNat, x.digits.drop x.point.toNat, none⟩
  else ⟨negative, x.digits.take 1, x.digits.drop 1, some power⟩

namespace Decimal

variable {layout : DecimalLayout} {negative : Bool} {x : Decimal}

/-- The text of a decimal is that of its numeral. -/
theorem text_numeral (h : x.Proper) : (x.numeral layout negative).text =
    (if negative then ['-'] else []) ++ Json.decimalText layout x := by
  obtain ⟨d, ds, hdigits, -⟩ := h.head
  unfold numeral Json.decimalText
  dsimp only
  split
  · unfold Json.plainDecimal
    dsimp only
    split
    · cases x.point.natAbs <;>
        simp [Json.Numeral.text, hdigits, Json.fractionText, Json.exponentText, List.replicate_succ]
    split
    · simp [Json.Numeral.text, Json.fractionText, Json.exponentText]
    · next hlong =>
      cases htail : x.digits.drop x.point.toNat with
      | nil => exact absurd (List.drop_eq_nil_iff.1 htail) hlong
      | cons e es => simp [Json.Numeral.text, Json.fractionText, Json.exponentText]
  · cases ds <;>
      simp [Json.Numeral.text, hdigits, Json.pointed, Json.fractionText, Json.exponentText]

/-- The numeral of a decimal can be read. -/
theorem proper_numeral (h : x.Proper) : (x.numeral layout negative).Proper := by
  obtain ⟨d, ds, hdigits, hd⟩ := h.head
  have hreplicate (n : Nat) : ∀ c ∈ List.replicate n '0', c.isDigit = true := fun c hc => by
    rw [List.eq_of_mem_replicate hc]
    rfl
  unfold numeral
  dsimp only
  split
  · split
    · exact ⟨by simp, ⟨'0', [], rfl, fun _ => rfl⟩,
        List.forall_mem_append.2 ⟨hreplicate _, h.isDigit⟩⟩
    split
    · exact ⟨List.forall_mem_append.2 ⟨h.isDigit, hreplicate _⟩,
        ⟨d, _, by rw [hdigits, List.cons_append], fun hzero => absurd hzero hd⟩, by simp⟩
    · next hpoint _ =>
      obtain ⟨place, hplace⟩ : ∃ place, x.point.toNat = place + 1 := ⟨x.point.toNat - 1, by omega⟩
      exact ⟨fun c hc => h.isDigit c (List.mem_of_mem_take hc),
        ⟨d, ds.take place, by rw [hplace, hdigits, List.take_succ_cons], fun hzero => absurd hzero hd⟩,
        fun c hc => h.isDigit c (List.mem_of_mem_drop hc)⟩
  · exact ⟨fun c hc => h.isDigit c (List.mem_of_mem_take hc),
      ⟨d, [], by rw [hdigits]; rfl, fun _ => rfl⟩, fun c hc => h.isDigit c (List.mem_of_mem_drop hc)⟩

end Decimal

namespace JsonNumber

/-- The numeral that a number is written as. -/
def numeral : JsonNumber → Json.Numeral
  | .whole n => ⟨n < 0, Text.digits n.natAbs, [], none⟩
  | .binary x =>
    if x.isZero then ⟨x.negative, ['0'], ['0'], none⟩ else x.shortest.numeral Json.numberLayout x.negative

/-- The text of a number is that of its numeral. -/
theorem text_numeral (n : JsonNumber) : n.numeral.text = Json.numberText n := by
  cases n with
  | whole n =>
    simp only [numeral, Json.numberText, Text.integerDigits, Json.Numeral.text, Json.fractionText,
      Json.exponentText, List.append_nil, decide_eq_true_eq]
    split <;> rfl
  | binary x =>
    simp only [numeral, Json.numberText, Json.binaryText]
    split
    · cases x.negative <;> rfl
    · next hzero =>
      rw [Decimal.text_numeral (Binary64.proper_shortest (by simpa [Binary64.isZero] using hzero))]
      cases x.negative <;> rfl

/-- The numeral written for a number is a proper one. -/
theorem proper_numeral (n : JsonNumber) : n.numeral.Proper := by
  cases n with
  | whole n =>
    refine ⟨fun _ h => Text.digits_isDigit h, ?_, by simp [numeral]⟩
    cases hds : Text.digits n.natAbs with
    | nil => exact absurd hds (Text.digits_ne_nil _)
    | cons d ds =>
      refine ⟨d, ds, hds, ?_⟩
      rintro rfl
      rw [Text.eq_zero_of_digits hds] at hds
      exact (List.cons.inj hds).2.symm
  | binary x =>
    simp only [numeral]
    split
    · exact ⟨by simp, ⟨'0', [], rfl, fun _ => rfl⟩, by simp⟩
    · next hzero => exact Decimal.proper_numeral (Binary64.proper_shortest (by simpa [Binary64.isZero] using hzero))

/-- From the text of a number its numeral is taken. -/
theorem readNumeral_numberText (n : JsonNumber) : Json.readNumeral (Json.numberText n) = .ok (n.numeral, []) :=
  n.text_numeral ▸ Json.readNumeral_text n.proper_numeral

/-- The text of a number starts with a minus sign or a digit. -/
theorem head_numberText (n : JsonNumber) :
    ∃ c cs, Json.numberText n = c :: cs ∧ (c = '-' ∨ c.isDigit = true) := by
  obtain ⟨d, ds, hwhole, -⟩ := n.proper_numeral.head
  rw [← n.text_numeral, Json.Numeral.text, hwhole]
  cases n.numeral.negative with
  | true => exact ⟨_, _, rfl, Or.inl rfl⟩
  | false => exact ⟨_, _, rfl, Or.inr (n.proper_numeral.whole d (hwhole ▸ List.mem_cons_self))⟩

end JsonNumber

/-! ## Numbers that are read back -/

/-- A number is read where its numeral is taken. -/
theorem Json.readNumber_eq_ok_iff {cs rest : List Char} {n : JsonNumber} :
    readNumber cs = .ok (n, rest) ↔ ∃ x, readNumeral cs = .ok (x, rest) ∧ x.value? = some n := by
  unfold readNumber
  rw [bind_eq_ok_iff]
  constructor
  · rintro ⟨⟨x, after⟩, hx, h⟩
    dsimp only at h
    split at h
    · next hvalue =>
      cases h
      exact ⟨x, hx, hvalue⟩
    · contradiction
  · rintro ⟨x, hx, hvalue⟩
    exact ⟨(x, rest), hx, by simp only [hvalue]⟩

namespace JsonNumber

/-- The number by itself is read back from its text. -/
def ReadsBack (n : JsonNumber) : Prop := Json.readNumber (Json.numberText n) = .ok (n, [])

instance (n : JsonNumber) : Decidable n.ReadsBack := inferInstanceAs (Decidable (_ = _))

/-- A number is read back when it is the number of its numeral. -/
theorem readsBack_iff {n : JsonNumber} : n.ReadsBack ↔ n.numeral.value? = some n := by
  rw [ReadsBack, Json.readNumber_eq_ok_iff, readNumeral_numberText]
  simp

/-- A whole number is one that 64 bits hold. -/
def InRange : JsonNumber → Prop
  | .whole n => Text.int64Least ≤ n ∧ n ≤ Text.nat64Greatest
  | .binary _ => True

/-- Whole numbers are read back from their digits. -/
theorem readsBack_whole {n : Int} (h : (whole n).InRange) : (whole n).ReadsBack := by
  obtain ⟨hleast, hgreatest⟩ := h
  rw [readsBack_iff, numeral]
  unfold Json.Numeral.value?
  simp only [Text.digitsValue_digits, List.isEmpty_nil, Option.isNone_none, Bool.true_and]
  by_cases hneg : n < 0
  · have habs : -Int.ofNat n.natAbs = n := by rw [Int.ofNat_eq_natCast]; omega
    have hne : (n.natAbs != 0) = true := by rw [bne_iff_ne]; omega
    rw [habs, hne, decide_eq_true hneg, decide_eq_true hleast]
    rfl
  · have habs : (n.natAbs : Int) = n := by omega
    have hle : n.natAbs ≤ Text.nat64Greatest := by omega
    rw [habs, decide_eq_false hneg, decide_eq_true hle]
    rfl

/-- The number of a numeral is in range. -/
theorem inRange_of_value? {x : Json.Numeral} {n : JsonNumber} (h : x.value? = some n) : n.InRange := by
  unfold Json.Numeral.value? at h
  dsimp only at h
  split at h
  · next hplain =>
    cases h
    simp only [Bool.and_eq_true, decide_eq_true_eq] at hplain
    exact ⟨Int.le_trans (by decide) (Int.natCast_nonneg _), Int.ofNat_le.2 hplain.2⟩
  · split at h
    · next hminus =>
      cases h
      simp only [Bool.and_eq_true, decide_eq_true_eq] at hminus
      refine ⟨hminus.2, ?_⟩
      simp only [Int.ofNat_eq_natCast]
      omega
    · obtain ⟨y, -, rfl⟩ := Option.map_eq_some_iff.1 h
      trivial

/-- The numbers that are read are in range. -/
theorem inRange_of_read {cs rest : List Char} {n : JsonNumber} (h : Json.readNumber cs = .ok (n, rest)) :
    n.InRange := by
  obtain ⟨x, -, hvalue⟩ := Json.readNumber_eq_ok_iff.1 h
  exact inRange_of_value? hvalue

end JsonNumber

end SignOff
