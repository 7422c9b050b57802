import SignOff.Proofs.Toml.Strings

/-!
# Scalars in texts that go on

A number or a moment takes a part of the text, as a string does, and ends before the line does. So every value that
is neither an array nor a table is found in each longer text in which its line ends where it did.
-/

namespace SignOff.Toml

variable {cs rest : List Char}

/-! ## What is taken of the text -/

/-- Skipping makes no text longer. -/
theorem length_dropWhile_le (p : Char → Bool) (cs : List Char) : (cs.dropWhile p).length ≤ cs.length :=
  (List.dropWhile_sublist p).length_le

/-- Skipping the white space of a line makes no text longer. -/
theorem length_skipBlank_le (cs : List Char) : (skipBlank cs).length ≤ cs.length := length_dropWhile_le _ _

/-- An expected text is found exactly where it stands in front. -/
theorem expect_eq_some_iff {text : List Char} : expect text cs = some rest ↔ cs = text ++ rest := by
  simp only [expect, Option.ite_none_right_eq_some, Option.some.injEq, List.isPrefixOf_iff_prefix]
  constructor
  · rintro ⟨⟨after, rfl⟩, rfl⟩
    rw [List.drop_left]
  · rintro rfl
    exact ⟨List.prefix_append _ _, List.drop_left⟩

/-- An expected text takes as many characters as it has. -/
theorem length_expect {text : List Char} (h : expect text cs = some rest) :
    rest.length + text.length = cs.length := by
  rw [expect_eq_some_iff.1 h, List.length_append, Nat.add_comm]

/-- A number of a fixed width takes just that many characters. -/
theorem length_scanField {count least greatest n : Nat} (h : scanField count least greatest cs = some (n, rest)) :
    rest.length + count = cs.length := by
  unfold scanField at h
  split at h
  · cases h
  · simp only [Option.ite_none_right_eq_some, Option.some.injEq, Prod.mk.injEq, List.length_take] at h
    obtain ⟨⟨hcount, -⟩, -, rfl⟩ := h
    rw [List.length_drop]
    omega

/-- A date takes at least one character. -/
theorem length_skipDate (h : skipDate cs = some rest) : rest.length < cs.length := by
  obtain ⟨⟨year, afterYear⟩, hyear, h⟩ := Option.bind_eq_some_iff.1 h
  obtain ⟨beforeMonth, hhyphen, h⟩ := Option.bind_eq_some_iff.1 h
  obtain ⟨⟨month, afterMonth⟩, hmonth, h⟩ := Option.bind_eq_some_iff.1 h
  obtain ⟨beforeDay, hhyphen', h⟩ := Option.bind_eq_some_iff.1 h
  obtain ⟨⟨day, afterDay⟩, hday, h⟩ := Option.bind_eq_some_iff.1 h
  cases h
  have := length_scanField hyear
  have := length_expect hhyphen
  have := length_scanField hmonth
  have := length_expect hhyphen'
  have := length_scanField hday
  omega

/-- A time of day takes at least one character. -/
theorem length_skipTime (h : skipTime cs = some rest) : rest.length < cs.length := by
  obtain ⟨⟨hour, afterHour⟩, hhour, h⟩ := Option.bind_eq_some_iff.1 h
  obtain ⟨beforeMinute, hcolon, h⟩ := Option.bind_eq_some_iff.1 h
  obtain ⟨⟨minute, afterMinute⟩, hminute, h⟩ := Option.bind_eq_some_iff.1 h
  obtain ⟨beforeSecond, hcolon', h⟩ := Option.bind_eq_some_iff.1 h
  obtain ⟨⟨second, afterSecond⟩, hsecond, h⟩ := Option.bind_eq_some_iff.1 h
  have := length_scanField hhour
  have := length_expect hcolon
  have := length_scanField hminute
  have := length_expect hcolon'
  have := length_scanField hsecond
  have hrest : rest.length ≤ afterSecond.length := by
    simp only at h
    split at h
    · next c digits =>
      split at h <;> cases h
      · exact Nat.le_trans (length_dropWhile_le _ _) (by simp only [List.length_cons]; omega)
      · exact Nat.le_refl _
    · cases h
      exact Nat.le_refl _
  omega

/-- The distance from universal time takes at least one character. -/
theorem length_skipOffset (h : skipOffset cs = some rest) : rest.length < cs.length := by
  unfold skipOffset at h
  split at h
  · cases h
  · next c cs =>
    split at h
    · cases h
      exact Nat.lt_succ_self _
    · split at h
      · obtain ⟨⟨hours, afterHours⟩, hhours, h⟩ := Option.bind_eq_some_iff.1 h
        obtain ⟨beforeMinutes, hcolon, h⟩ := Option.bind_eq_some_iff.1 h
        obtain ⟨⟨minutes, afterMinutes⟩, hminutes, h⟩ := Option.bind_eq_some_iff.1 h
        cases h
        have := length_scanField hhours
        have := length_expect hcolon
        have := length_scanField hminutes
        rw [List.length_cons]
        omega
      · cases h

/-- What takes characters wherever it is found leaves no more than there was. -/
theorem length_getD_le {next : Option (List Char)} (h : ∀ after, next = some after → after.length < cs.length) :
    (next.getD cs).length ≤ cs.length := by
  cases next with
  | none => exact Nat.le_refl _
  | some after => exact Nat.le_of_lt (h after rfl)

/-- What may follow a date leaves no more than there was. -/
theorem length_skipClock_le (cs : List Char) : (skipClock cs).length ≤ cs.length := by
  unfold skipClock
  split
  · exact Nat.le_refl _
  · next c cs =>
    split
    · split
      · next after htime =>
        have := length_skipTime htime
        have : ((skipOffset after).getD after).length ≤ after.length := length_getD_le fun _ => length_skipOffset
        rw [List.length_cons]
        omega
      · exact Nat.le_refl _
    · exact Nat.le_refl _

/-- A moment takes at least one character. -/
theorem length_scanMoment {value : Toml} (h : scanMoment cs = some (value, rest)) : rest.length < cs.length := by
  obtain ⟨after, hafter, heq⟩ := Option.map_eq_some_iff.1 h
  cases heq
  rcases Option.or_eq_some_iff.1 hafter with hdate | ⟨-, htime⟩
  · obtain ⟨afterDate, hafterDate, rfl⟩ := Option.map_eq_some_iff.1 hdate
    exact Nat.lt_of_le_of_lt (length_skipClock_le _) (length_skipDate hafterDate)
  · exact length_skipTime htime

/-- Digits take at least one character. -/
theorem length_scanDigits {isDigit : Char → Bool} {digits : List Char} (h : scanDigits isDigit cs = some (digits, rest)) :
    rest.length < cs.length := by
  induction hlength : cs.length using Nat.strongRecOn generalizing cs digits with
  | ind n ih =>
    cases cs with
    | nil => cases h
    | cons c cs =>
      rw [scanDigits_cons] at h
      rw [List.length_cons] at hlength
      split at h
      · cases hmore : moreDigits? isDigit cs with
        | none =>
          simp only [hmore, Option.some.injEq, Prod.mk.injEq] at h
          obtain ⟨-, rfl⟩ := h
          omega
        | some tail =>
          simp only [hmore] at h
          obtain ⟨⟨ds, after⟩, hds, heq⟩ := Option.map_eq_some_iff.1 h
          cases heq
          have hle := length_moreDigits? hmore
          have hlt : after.length < tail.length := ih tail.length (by omega) hds rfl
          change after.length < n
          omega
      · cases h

/-- A whole number without a sign takes at least one character. -/
theorem length_scanWhole {digits : List Char} (h : scanWhole cs = some (digits, rest)) : rest.length < cs.length := by
  unfold scanWhole at h
  split at h
  · cases h
    exact Nat.lt_succ_self _
  · exact length_scanDigits h

/-- A sign takes one character or, if there is none, nothing. -/
theorem length_scanSign_le (cs : List Char) : (scanSign cs).2.length ≤ cs.length := by
  unfold scanSign
  split <;> simp

/-- An exponent takes at least one character. -/
theorem length_scanExponent {exponent : Int} (h : scanExponent cs = some (exponent, rest)) :
    rest.length < cs.length := by
  cases cs with
  | nil => cases h
  | cons c cs =>
    simp only [scanExponent, Option.ite_none_right_eq_some] at h
    obtain ⟨⟨digits, after⟩, hdigits, heq⟩ := Option.map_eq_some_iff.1 h.2
    cases heq
    have hsign := length_scanSign_le cs
    have hlt : after.length < (scanSign cs).2.length := length_scanDigits hdigits
    change after.length < cs.length + 1
    omega

/-- A fraction takes at least one character. -/
theorem length_scanFraction {digits : List Char} (h : scanFraction cs = some (digits, rest)) :
    rest.length < cs.length := by
  unfold scanFraction at h
  split at h
  · have := length_scanDigits h
    rw [List.length_cons]
    omega
  · cases h

/-- A number with a fraction or an exponent takes at least one character. -/
theorem length_scanReal {value : Toml} (h : scanReal cs = some (value, rest)) : rest.length < cs.length := by
  simp only [scanReal] at h
  obtain ⟨⟨digits, afterWhole⟩, hwhole, h⟩ := Option.bind_eq_some_iff.1 h
  have hsign := length_scanSign_le cs
  have hlt := length_scanWhole hwhole
  generalize hfraction : (scanFraction afterWhole).getD ([], afterWhole) = fraction at h
  have hle : fraction.2.length ≤ afterWhole.length := by
    cases hfound : scanFraction afterWhole with
    | none => simp [← hfraction, hfound]
    | some p => simpa [← hfraction, hfound] using Nat.le_of_lt (length_scanFraction hfound)
  cases hexponent : scanExponent fraction.2 with
  | none =>
    simp only [hexponent] at h
    split at h
    · cases h
    · simp only [Option.bind_eq_bind, Option.bind_some] at h
      split at h <;> cases h
      omega
  | some exponent =>
    simp only [hexponent, Option.bind_eq_bind, Option.bind_some] at h
    have := length_scanExponent hexponent
    split at h <;> cases h
    omega

/-- The word for infinity or for what is no number takes at least one character. -/
theorem length_scanSpecial {value : Toml} (h : scanSpecial cs = some (value, rest)) : rest.length < cs.length := by
  simp only [scanSpecial] at h
  obtain ⟨after, hafter, heq⟩ := Option.map_eq_some_iff.1 h
  cases heq
  have hsign := length_scanSign_le cs
  rcases Option.or_eq_some_iff.1 hafter with hname | ⟨-, hname⟩
  · have : rest.length + 3 = _ := length_expect hname
    omega
  · have : rest.length + 3 = _ := length_expect hname
    omega

/-- A whole number in another base than ten takes at least one character. -/
theorem length_scanBased {base : Nat} {value : Toml} (h : scanBased base cs = some (value, rest)) :
    rest.length < cs.length := by
  obtain ⟨⟨digits, after⟩, hdigits, h⟩ := Option.bind_eq_some_iff.1 h
  obtain ⟨n, -, heq⟩ := Option.bind_eq_some_iff.1 h
  cases heq
  exact length_scanDigits hdigits

/-- A decimal number takes at least one character. -/
theorem length_scanDecimal {value : Toml} (h : scanDecimal cs = some (value, rest)) : rest.length < cs.length := by
  simp only [scanDecimal] at h
  obtain ⟨⟨digits, after⟩, hdigits, h⟩ := Option.bind_eq_some_iff.1 h
  obtain ⟨n, -, heq⟩ := Option.bind_eq_some_iff.1 h
  cases heq
  exact Nat.lt_of_lt_of_le (length_scanWhole hdigits) (length_scanSign_le cs)

/-- A whole number takes at least one character, whatever its base. -/
theorem length_scanInteger {value : Toml} (h : scanInteger cs = some (value, rest)) : rest.length < cs.length := by
  match cs with
  | [] => exact length_scanDecimal h
  | [c] =>
    by_cases hc : c = '0'
    · subst hc
      exact length_scanDecimal h
    · exact length_scanDecimal (by rwa [scanInteger_of_ne hc] at h)
  | c :: d :: cs =>
    by_cases hc : c = '0'
    · subst hc
      rw [scanInteger_of_zero] at h
      cases hbase : baseOf? d with
      | none =>
        simp only [hbase] at h
        exact length_scanDecimal h
      | some base =>
        simp only [hbase] at h
        have := length_scanBased h
        simp only [List.length_cons]
        omega
    · rw [scanInteger_of_ne hc] at h
      exact length_scanDecimal h

/-! ## Values that are found -/

/-- The scanners of numbers and moments, tried one after another. -/
def scanNumber : Scan Toml := fun cs => (scanMoment cs).or ((scanReal cs).or ((scanSpecial cs).or (scanInteger cs)))

/-- A number or a moment is found in every longer text. -/
theorem found_scanNumber {value : Toml} (h : scanNumber cs = some (value, rest)) : Found scanNumber cs value rest := by
  refine found_of_rel h ?_ fun hmore =>
    rel_or hmore.scanMoment (rel_or hmore.scanReal (rel_or hmore.scanSpecial hmore.scanInteger))
  rcases Option.or_eq_some_iff.1 h with hmoment | ⟨-, h⟩
  · exact length_scanMoment hmoment
  rcases Option.or_eq_some_iff.1 h with hreal | ⟨-, h⟩
  · exact length_scanReal hreal
  rcases Option.or_eq_some_iff.1 h with hspecial | ⟨-, hinteger⟩
  · exact length_scanSpecial hspecial
  · exact length_scanInteger hinteger

/-- A text that can go on still can without some characters of its first line. -/
theorem Fits.of_text {more text : List Char} (h : Fits more (text ++ cs)) (htext : '\n' ∉ text) : Fits more cs := by
  induction text with
  | nil => exact h
  | cons c text ih =>
    obtain ⟨hc, htext⟩ := not_or.1 (mt List.mem_cons.2 htext)
    exact ih (h.of_cons (Ne.symm hc)) htext

/-- A word that stands for a value. -/
theorem found_word {scan : Scan Toml} {value : Toml} (word : List Char) (hword : '\n' ∉ word) (hne : word ≠ [])
    (hscan : ∀ after, scan (word ++ after) = some (value, after)) (rest : List Char) :
    Found scan (word ++ rest) value rest := by
  have hpos := List.length_pos_iff.2 hne
  refine ⟨by rw [List.length_append]; omega, fun more hfits => ⟨?_, hfits.of_text hword⟩⟩
  rw [List.append_assoc, hscan]

/-- A mark that opens a string makes the value that string. -/
theorem scanScalar_of_mark {c : Char} (hc : (c == '"' || c == '\'') = true) (cs : List Char) :
    scanScalar (c :: cs) = (scanText (c :: cs)).map fun p => (.text p.1, p.2) := by
  simp only [scanScalar, hc, if_true]

/-- A value that starts like no string and like no truth value is a number or a moment. -/
theorem scanScalar_of_number {c : Char} (hmark : ¬(c == '"' || c == '\'') = true) (ht : ¬(c == 't') = true)
    (hf : ¬(c == 'f') = true) (cs : List Char) : scanScalar (c :: cs) = scanNumber (c :: cs) := by
  simp only [scanScalar, hmark, ht, hf, scanNumber]
  rfl

/-- A value that is neither an array nor a table. -/
theorem found_scanScalar {value : Toml} (h : scanScalar cs = some (value, rest)) :
    Found scanScalar cs value rest := by
  cases cs with
  | nil => cases h
  | cons c cs =>
    by_cases hmark : (c == '"' || c == '\'') = true
    · rw [scanScalar_of_mark hmark] at h
      obtain ⟨p, hp, heq⟩ := Option.map_eq_some_iff.1 h
      cases heq
      exact (found_scanText hp).behind [] fun more _ => scanScalar_of_mark hmark (cs ++ more)
    by_cases ht : (c == 't') = true
    · obtain rfl := eq_of_beq ht
      obtain ⟨after, hafter, heq⟩ := Option.map_eq_some_iff.1 (show (expect "rue".toList cs).map _ = _ from h)
      cases heq
      obtain rfl := expect_eq_some_iff.1 hafter
      exact found_word "true".toList (by decide) (by decide) (fun _ => rfl) rest
    by_cases hf : (c == 'f') = true
    · obtain rfl := eq_of_beq hf
      obtain ⟨after, hafter, heq⟩ := Option.map_eq_some_iff.1 (show (expect "alse".toList cs).map _ = _ from h)
      cases heq
      obtain rfl := expect_eq_some_iff.1 hafter
      exact found_word "false".toList (by decide) (by decide) (fun _ => rfl) rest
    · rw [scanScalar_of_number hmark ht hf] at h
      refine (found_scanNumber h).behind [] (g := id) fun more _ => ?_
      rw [List.nil_append, List.cons_append, scanScalar_of_number hmark ht hf]
      simp

/-! ## Keys -/

/-- A longer text has the same white space in front. -/
theorem skipBlank_append {more : List Char} (hfits : Fits more cs) :
    skipBlank (cs ++ more) = skipBlank cs ++ more ∧ Fits more (skipBlank cs) := by
  rcases hfits with rfl | hlast
  · rw [List.append_nil, List.append_nil]
    exact ⟨rfl, .inl rfl⟩
  · exact (Fits.continued hlast).skipBlank.eq_append

/-- A part of a key that stands without marks. -/
def scanBareKey : Scan String := fun cs =>
  let key := cs.takeWhile isKeyChar
  if key.isEmpty then none else some (String.ofList key, cs.drop key.length)

/-- A bare key ends before the line does. -/
theorem Continued.scanBareKey {more x y : List Char} (h : Continued more x y) :
    Option.Rel (Alike more) (scanBareKey x) (scanBareKey y) := by
  obtain ⟨htake, hlt⟩ := h.takeWhile (p := isKeyChar) (by decide)
  simp only [Toml.scanBareKey, htake]
  split
  · exact .none
  · exact .some ⟨rfl, h.drop hlt⟩

/-- A bare key is found in every longer text. -/
theorem found_scanBareKey {key : String} (h : scanBareKey cs = some (key, rest)) : Found scanBareKey cs key rest := by
  refine found_of_rel h ?_ fun hmore => hmore.scanBareKey
  simp only [scanBareKey, Option.ite_none_left_eq_some, Option.some.injEq, Prod.mk.injEq] at h
  obtain ⟨hne, -, rfl⟩ := h
  have hpos : 0 < (cs.takeWhile isKeyChar).length := List.length_pos_iff.2 (by simpa using hne)
  have hle := (List.takeWhile_prefix isKeyChar (l := cs)).length_le
  rw [List.length_drop]
  omega

/-- A part of a key that no mark opens is a bare one. -/
theorem scanKeyPart_of_bare {c : Char} (hquote : c ≠ '"') (hmark : c ≠ '\'') (cs : List Char) :
    scanKeyPart (c :: cs) = scanBareKey (c :: cs) := by
  rw [scanKeyPart.eq_3 _ (fun _ h => hquote (List.cons.inj h).1) (fun _ h => hmark (List.cons.inj h).1)]
  rfl

/-- One part of a key. -/
theorem found_scanKeyPart {key : String} (h : scanKeyPart cs = some (key, rest)) : Found scanKeyPart cs key rest := by
  cases cs with
  | nil => cases h
  | cons c cs =>
    by_cases hquote : c = '"'
    · subst hquote
      obtain ⟨p, hp, heq⟩ := Option.map_eq_some_iff.1 h
      cases heq
      exact (found_quotedTail hp).behind ['"'] fun _ _ => rfl
    by_cases hmark : c = '\''
    · subst hmark
      obtain ⟨p, hp, heq⟩ := Option.map_eq_some_iff.1 h
      cases heq
      exact (found_verbatimTail hp).behind ['\''] fun _ _ => rfl
    · rw [scanKeyPart_of_bare hquote hmark] at h
      refine (found_scanBareKey h).behind [] (g := id) fun more _ => ?_
      rw [List.nil_append, List.cons_append, scanKeyPart_of_bare hquote hmark]
      simp

/-- What comes after a part of a key: a point and a further key, or the end of the key. -/
def scanKeyEnd (count : Nat) (part : String) : Scan KeyPath
  | '.' :: rest => (scanKey count rest).map fun p => (⟨part :: p.1.steps, p.1.last⟩, p.2)
  | rest => some (⟨[], part⟩, rest)

/-- A key is a first part and what comes after it, with white space around the part. -/
theorem scanKey_succ (count : Nat) (cs : List Char) :
    scanKey (count + 1) cs = (scanKeyPart (skipBlank cs)).bind fun p => scanKeyEnd count p.1 (skipBlank p.2) := by
  rw [scanKey]
  cases scanKeyPart (skipBlank cs) with
  | none => rfl
  | some p =>
    simp only [Option.bind_eq_bind, Option.bind_some]
    generalize skipBlank p.2 = after
    split
    · next after =>
      rw [scanKeyEnd]
      cases scanKey count after <;> rfl
    · next hpoint => rw [scanKeyEnd.eq_2 _ _ _ hpoint]

/-- A key ends where no point follows. -/
theorem scanKeyEnd_of_ne {c : Char} (hc : c ≠ '.') (count : Nat) (part : String) (cs : List Char) :
    scanKeyEnd count part (c :: cs) = some (⟨[], part⟩, c :: cs) := by
  simp [scanKeyEnd, hc]

/-- A dotted key. -/
theorem found_scanKey {count : Nat} {key : KeyPath} (h : scanKey count cs = some (key, rest)) :
    Found (scanKey count) cs key rest := by
  induction count generalizing cs key with
  | zero => cases h
  | succ count ih =>
    rw [scanKey_succ] at h
    obtain ⟨⟨part, afterPart⟩, hpart, hend⟩ := Option.bind_eq_some_iff.1 h
    obtain ⟨hlength, hgoes⟩ := found_scanKeyPart hpart
    have hblank := length_skipBlank_le cs
    have hblank' := length_skipBlank_le afterPart
    -- In the longer text the part and the white space around it are the same.
    have hsame (more : List Char) (hfits : Fits more cs) : Fits more (skipBlank afterPart) ∧
        scanKey (count + 1) (cs ++ more) = scanKeyEnd count part (skipBlank afterPart ++ more) := by
      obtain ⟨hskip, hfits⟩ := skipBlank_append hfits
      obtain ⟨hpart, hfits⟩ := hgoes more hfits
      obtain ⟨hskip', hfits⟩ := skipBlank_append hfits
      refine ⟨hfits, ?_⟩
      rw [scanKey_succ, hskip, hpart, Option.bind_some, hskip']
    cases hafter : skipBlank afterPart with
    | nil =>
      simp only [hafter, scanKeyEnd, Option.some.injEq, Prod.mk.injEq] at hend
      obtain ⟨rfl, rfl⟩ := hend
      refine ⟨by rw [List.length_nil]; omega, fun more hfits => ?_⟩
      obtain ⟨hfits, hscan⟩ := hsame more hfits
      rw [hafter] at hfits hscan
      obtain rfl : more = [] := hfits.resolve_right (by simp)
      exact ⟨hscan, hfits⟩
    | cons c after =>
      simp only [hafter] at hend hblank' hsame
      by_cases hc : c = '.'
      · subst hc
        obtain ⟨p, hp, heq⟩ := Option.map_eq_some_iff.1 hend
        cases heq
        obtain ⟨hlength', hgoes'⟩ := ih hp
        refine ⟨by simp only [List.length_cons] at hblank'; omega, fun more hfits => ?_⟩
        obtain ⟨hfits, hscan⟩ := hsame more hfits
        obtain ⟨hp, hfits⟩ := hgoes' more (hfits.of_cons (by decide))
        refine ⟨?_, hfits⟩
        rw [hscan, List.cons_append, scanKeyEnd, hp]
        rfl
      · rw [scanKeyEnd_of_ne hc, Option.some.injEq, Prod.mk.injEq] at hend
        obtain ⟨rfl, rfl⟩ := hend
        refine ⟨by omega, fun more hfits => ?_⟩
        obtain ⟨hfits, hscan⟩ := hsame more hfits
        exact ⟨by rw [hscan, List.cons_append, scanKeyEnd_of_ne hc], hfits⟩

end SignOff.Toml
