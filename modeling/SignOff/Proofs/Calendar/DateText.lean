import SignOff.Calendar.DateText
import SignOff.Number.Power

/-!
# Written dates read back

Every date of the calendar is read back from its text in both spellings, years with a sign included. Each
part is scanned up to the hyphen after it, or up to its two digits.
-/

namespace SignOff.Date

/-- A padded number consists of digits. -/
theorem zeroPadded_isDigit {width n : Nat} : ∀ c ∈ zeroPadded width n, c.isDigit = true := by
  intro c hc
  rcases List.mem_append.1 hc with hc | hc
  · rw [List.eq_of_mem_replicate hc]
    rfl
  · exact Text.digits_isDigit hc

/-- A padded number has at least one digit. -/
theorem zeroPadded_ne_nil (width n : Nat) : zeroPadded width n ≠ [] := by
  simp [zeroPadded, Text.padLeft, Text.digits_ne_nil]

/-- A number that fits is padded to the width exactly. -/
theorem length_zeroPadded {width n : Nat} (hwidth : 0 < width) (hn : n < Power.ofTen width) :
    (zeroPadded width n).length = width := by
  have hlength : (Text.digits n).length ≤ width :=
    (Nat.length_toDigits_le_iff (by decide) hwidth).2 hn
  simp only [zeroPadded, Text.padLeft, List.length_append, List.length_replicate]
  omega

/-- Padding does not change the number. -/
theorem digitsValue_zeroPadded (width n : Nat) : Text.digitsValue (zeroPadded width n) = n := by
  rw [Text.digitsValue, zeroPadded, Text.padLeft, Nat.ofDigitChars_append,
    Nat.ofDigitChars_replicate_zero, Nat.mul_zero]
  exact Text.digitsValue_digits n

/-- Digits are scanned up to a character that is none, or up to the greatest number of them. -/
theorem scanDigits_append {most : Nat} {ds rest : List Char} (hne : ds ≠ [])
    (hdigits : ∀ c ∈ ds, c.isDigit = true) (hmost : ds.length ≤ most)
    (hrest : ds.length = most ∨ ∀ c ∈ rest.head?, c.isDigit = false) :
    scanDigits most (ds ++ rest) = .ok (Text.digitsValue ds, rest) := by
  have hrun : ((ds ++ rest).take most).takeWhile Char.isDigit = ds := by
    rw [List.take_append, List.take_of_length_le hmost, List.takeWhile_append_of_pos hdigits]
    rcases hrest with hlength | hhead
    · simp [hlength]
    · cases rest with
      | nil => simp
      | cons c rest =>
        have hc : c.isDigit = false := hhead c (by simp)
        cases most - ds.length with
        | zero => simp
        | succ k => simp [hc]
  cases ds with
  | nil => exact absurd rfl hne
  | cons d ds =>
    have hd : d.isDigit = true := hdigits d (by simp)
    unfold scanDigits
    simp only [List.cons_append, hd, if_true] at hrun ⊢
    rw [hrun]
    simp

/-- A digit is not white space. -/
theorem isBlank_of_isDigit {c : Char} (h : c.isDigit = true) : Text.isBlank c = false := by
  have hrange : 48 ≤ c.toNat ∧ c.toNat ≤ 57 := Char.isDigit_iff_toNat.1 h
  simp only [Text.isBlank, Bool.or_eq_false_iff, Bool.and_eq_false_imp, decide_eq_true_eq,
    decide_eq_false_iff_not, beq_eq_false_iff_ne]
  omega

/-- Nothing is cut off in front of a digit. -/
theorem trimStart_append_of_isDigit {ds : List Char} (hne : ds ≠ []) (hdigits : ∀ c ∈ ds, c.isDigit = true)
    (rest : List Char) : Text.trimStart (ds ++ rest) = ds ++ rest := by
  cases ds with
  | nil => exact absurd rfl hne
  | cons d ds =>
    exact Text.trimStart_append_of_not_blank (isBlank_of_isDigit (hdigits d (by simp))) _

/-- A month or day number is read back, in front of anything that is no digit. -/
theorem scanPart_zeroPadded {most n : Nat} (hpos : 1 ≤ n) (hle : n ≤ most) (hmost : most < 100)
    (rest : List Char) : scanPart most (zeroPadded 2 n ++ rest) = .ok (n, rest) := by
  have hlength : (zeroPadded 2 n).length = 2 := length_zeroPadded (by decide) (show n < 100 by omega)
  rw [scanPart, trimStart_append_of_isDigit (zeroPadded_ne_nil 2 n) zeroPadded_isDigit,
    scanDigits_append (zeroPadded_ne_nil 2 n) zeroPadded_isDigit (by omega) (.inl hlength),
    digitsValue_zeroPadded]
  simp [bind, Except.bind, hpos, hle]

/-- The digits of a year are read up to the hyphen after them. -/
theorem scanDigits_year {most n : Nat} (hmost : (zeroPadded 4 n).length ≤ most) (rest : List Char) :
    scanDigits most (zeroPadded 4 n ++ '-' :: rest) = .ok (n, '-' :: rest) := by
  have hhead : ∀ c ∈ ('-' :: rest).head?, c.isDigit = false := by
    intro c hc
    cases hc
    rfl
  rw [scanDigits_append (zeroPadded_ne_nil 4 n) zeroPadded_isDigit hmost (.inr hhead),
    digitsValue_zeroPadded]

/-- A year that starts with a digit has at most four of them. -/
theorem scanYear_of_isDigit {c : Char} (h : c.isDigit = true) (cs : List Char) :
    scanYear (c :: cs) = (scanDigits 4 (c :: cs)).map fun (n, after) => (Int.ofNat n, after) := by
  have hminus : c ≠ '-' := by
    intro heq
    subst heq
    contradiction
  have hplus : c ≠ '+' := by
    intro heq
    subst heq
    contradiction
  rw [scanYear, Text.trimStart_append_of_not_blank (isBlank_of_isDigit h)]
  split
  · simp_all
  · simp_all
  · cases scanDigits 4 (c :: cs) <;> rfl

/-- A year of the calendar is read back up to the hyphen after it. -/
theorem scanYear_yearDigits {year : Int} (hfirst : firstYear ≤ year) (hlast : year ≤ lastYear)
    (rest : List Char) : scanYear (yearDigits year ++ '-' :: rest) = .ok (year, '-' :: rest) := by
  have hbound : year.natAbs ≤ yearLimit := by
    simp only [firstYear, lastYear, yearLimit] at *
    omega
  unfold yearDigits
  by_cases hplain : 0 ≤ year ∧ year ≤ 9999
  · have hfits : year.natAbs < 10000 := by omega
    have hfour : scanDigits 4 (zeroPadded 4 year.natAbs ++ '-' :: rest) =
        .ok (year.natAbs, '-' :: rest) :=
      scanDigits_year (Nat.le_of_eq (length_zeroPadded (by decide) hfits)) rest
    rw [if_pos hplain]
    cases hdigits : zeroPadded 4 year.natAbs with
    | nil => exact absurd hdigits (zeroPadded_ne_nil 4 _)
    | cons d ds =>
      have hd : d.isDigit = true := zeroPadded_isDigit d (hdigits ▸ List.mem_cons_self)
      rw [hdigits, List.cons_append] at hfour
      rw [List.cons_append, scanYear_of_isDigit hd, hfour]
      have hyear : Int.ofNat year.natAbs = year := Int.natAbs_of_nonneg hplain.1
      simp only [Except.map, hyear]
  · have hscan : scanDigits (zeroPadded 4 year.natAbs ++ '-' :: rest).length
        (zeroPadded 4 year.natAbs ++ '-' :: rest) = .ok (year.natAbs, '-' :: rest) :=
      scanDigits_year (by simp) rest
    rw [if_neg hplain, List.cons_append, scanYear]
    by_cases hneg : year < 0
    · have hyear : -Int.ofNat year.natAbs = year := by
        rw [Int.ofNat_eq_natCast]
        omega
      rw [if_pos hneg, Text.trimStart_append_of_not_blank (by rfl)]
      simp only [hscan, bind, Except.bind, if_pos (Nat.le_succ_of_le hbound), hyear]
    · have hyear : Int.ofNat year.natAbs = year := by
        rw [Int.ofNat_eq_natCast]
        omega
      rw [if_neg hneg, Text.trimStart_append_of_not_blank (by rfl)]
      simp only [hscan, bind, Except.bind, if_pos hbound, hyear]

/-- A date is read back from its text if no hyphen is skipped in front of its parts. -/
theorem readWith_toList {gap : List Char → List Char} (hnil : gap [] = [])
    (hhyphen : ∀ cs, gap ('-' :: cs) = '-' :: cs) (d : Date) : readWith gap d.toList = .ok d := by
  have hyear := scanYear_yearDigits d.valid.1 d.valid.2.1
    (zeroPadded 2 d.month ++ '-' :: zeroPadded 2 d.day)
  have hmonth := scanPart_zeroPadded d.month_pos d.month_le (by decide) ('-' :: zeroPadded 2 d.day)
  have hday := scanPart_zeroPadded d.day_pos d.day_le (by decide) []
  rw [List.append_nil] at hday
  have hlist : d.toList =
      yearDigits d.year ++ '-' :: (zeroPadded 2 d.month ++ '-' :: zeroPadded 2 d.day) := by
    simp [toList]
  rw [readWith, hlist, hyear]
  simp only [bind, Except.bind, hnil, hhyphen, scanHyphen, hmonth, hday, ofParts?_parts]

/-- Every date is read back from its stored text. -/
theorem readStored_toText (d : Date) : readStored d.toText = .ok d := by
  rw [readStored, toText, String.toList_ofList]
  exact readWith_toList rfl (fun _ => rfl) d

/-- Every date is read back from its text in the free spelling. -/
theorem read_toText (d : Date) : read d.toText = .ok d := by
  rw [read, toText, String.toList_ofList]
  exact readWith_toList rfl (fun _ => Text.trimStart_append_of_not_blank (by rfl) _) d

end SignOff.Date
