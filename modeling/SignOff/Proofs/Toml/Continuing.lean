import SignOff.Toml.Reader

/-!
# Numbers and moments in texts that go on

What is read of a text that ends with a line does not depend on what comes after that line. A number or a moment
ends before the line does, in the same place and with the same result, and it is missed in both texts if it is
missed in one of them. So the forms of numbers can be tried one after another in either text.
-/

namespace SignOff

section Related

variable {α β γ δ : Type} {R : α → β → Prop} {S : γ → δ → Prop}

/-- Related results are both missing, or both there with related values. -/
theorem rel_cases {o : Option α} {o' : Option β} (h : Option.Rel R o o') :
    (o = none ∧ o' = none) ∨ ∃ a b, o = some a ∧ o' = some b ∧ R a b := by
  cases h with
  | none => exact .inl ⟨rfl, rfl⟩
  | some hab => exact .inr ⟨_, _, rfl, rfl, hab⟩

/-- Related results go on to related results. -/
theorem rel_bind {o : Option α} {o' : Option β} {f : α → Option γ} {g : β → Option δ} (h : Option.Rel R o o')
    (hgoes : ∀ a b, R a b → Option.Rel S (f a) (g b)) : Option.Rel S (o.bind f) (o'.bind g) := by
  cases h with
  | none => exact .none
  | some hab => exact hgoes _ _ hab

/-- Related results stay related when their values are mapped to related ones. -/
theorem rel_map {o : Option α} {o' : Option β} {f : α → γ} {g : β → δ} (h : Option.Rel R o o')
    (hgoes : ∀ a b, R a b → S (f a) (g b)) : Option.Rel S (o.map f) (o'.map g) := by
  cases h with
  | none => exact .none
  | some hab => exact .some (hgoes _ _ hab)

/-- Where both first choices and both second choices are related, so is what is chosen. -/
theorem rel_or {first second : Option α} {first' second' : Option β} (h : Option.Rel R first first')
    (h' : Option.Rel R second second') : Option.Rel R (first.or second) (first'.or second') := by
  cases h with
  | none => exact h'
  | some hab => exact .some hab

/-- Related results, with related values in place of what is missing, are related values. -/
theorem rel_getD {o : Option α} {o' : Option β} {a : α} {b : β} (h : Option.Rel R o o') (hab : R a b) :
    R (o.getD a) (o'.getD b) := by
  cases h with
  | none => exact hab
  | some hab => exact hab

end Related

namespace Toml

/-- The first text ends with a line, and the second one goes on with `more` after it. -/
inductive Continued (more : List Char) : List Char → List Char → Prop where
  | last : Continued more ['\n'] ('\n' :: more)
  | cons (c : Char) {x y : List Char} (h : Continued more x y) : Continued more (c :: x) (c :: y)

/-- The same has been read of both texts, and what follows is continued as before. -/
def Alike (more : List Char) {α : Type} (p q : α × List Char) : Prop := p.1 = q.1 ∧ Continued more p.2 q.2

variable {more x y : List Char} {α β : Type}

/-- To continue a text is to put more behind the end of its last line. -/
theorem continued_iff : Continued more x y ↔ y = x ++ more ∧ x.getLast? = some '\n' := by
  constructor
  · intro h
    induction h with
    | last => exact ⟨rfl, rfl⟩
    | @cons c x y h ih =>
      refine ⟨by rw [ih.1, List.cons_append], ?_⟩
      rw [List.getLast?_cons, ih.2]
      rfl
  · rintro ⟨rfl, hlast⟩
    induction x with
    | nil => simp at hlast
    | cons c x ih =>
      cases x with
      | nil =>
        obtain rfl : c = '\n' := by simpa using hlast
        exact .last
      | cons d x =>
        rw [List.getLast?_cons_cons] at hlast
        exact .cons c (ih hlast)

/-- What has been read alike stays so when its value is mapped. -/
theorem rel_alike_map {o o' : Option (α × List Char)} (f : α → β) (h : Option.Rel (Alike more) o o') :
    Option.Rel (Alike more) (o.map fun p => (f p.1, p.2)) (o'.map fun p => (f p.1, p.2)) :=
  rel_map h fun _ _ hpq => ⟨congrArg f hpq.1, hpq.2⟩

/-! ## White space and expected texts -/

/-- Characters within the line are skipped alike. -/
theorem Continued.dropWhile (h : Continued more x y) {skips : Char → Bool} (hskips : skips '\n' = false) :
    Continued more (x.dropWhile skips) (y.dropWhile skips) := by
  induction h with
  | last => simpa [List.dropWhile, hskips] using Continued.last
  | cons c h ih =>
    simp only [List.dropWhile_cons]
    split
    · exact ih
    · exact .cons c h

/-- White space within the line is skipped alike. -/
theorem Continued.skipBlank (h : Continued more x y) : Continued more (skipBlank x) (skipBlank y) :=
  h.dropWhile (by decide)

/-- A text is expected one character after the other. -/
theorem expect_cons (c d : Char) (text cs : List Char) :
    expect (c :: text) (d :: cs) = if c = d then expect text cs else none := by
  by_cases hcd : c = d <;> simp [expect, hcd]

/-- A text within the line is found in both or in none of the two. -/
theorem Continued.expect {text : List Char} (htext : '\n' ∉ text) (h : Continued more x y) :
    Option.Rel (Continued more) (expect text x) (expect text y) := by
  induction text generalizing x y with
  | nil => simpa [Toml.expect] using h
  | cons c text ih =>
    obtain ⟨hc, htext⟩ := not_or.1 (mt List.mem_cons.2 htext)
    cases h with
    | last =>
      rw [expect_cons, expect_cons, if_neg (Ne.symm hc), if_neg (Ne.symm hc)]
      exact .none
    | cons d h =>
      rw [expect_cons, expect_cons]
      split
      · exact ih htext h
      · exact .none

/-! ## Moments -/

/-- So many characters end before the line does, or else take in its end. -/
theorem Continued.take_drop (h : Continued more x y) (n : Nat) :
    (y.take n = x.take n ∧ Continued more (x.drop n) (y.drop n)) ∨ ('\n' ∈ x.take n ∧ '\n' ∈ y.take n) := by
  induction n generalizing x y with
  | zero => exact .inl ⟨rfl, h⟩
  | succ n ih =>
    cases h with
    | last => exact .inr ⟨by simp, by simp⟩
    | cons c h =>
      rcases ih h with ⟨htake, hdrop⟩ | ⟨hx, hy⟩
      · exact .inl ⟨by rw [List.take_succ_cons, List.take_succ_cons, htake], hdrop⟩
      · exact .inr ⟨by simp [hx], by simp [hy]⟩

/-- Characters that take in the end of a line are not all digits. -/
theorem readDigits?_of_newline {cs : List Char} (h : '\n' ∈ cs) : Text.readDigits? cs = none := by
  have hnot : cs.all Char.isDigit = false := List.all_eq_false.2 ⟨'\n', h, by decide⟩
  simp [Text.readDigits?, hnot]

/-- A number of a fixed width ends before the line does. -/
theorem Continued.scanField (h : Continued more x y) (count least greatest : Nat) :
    Option.Rel (Alike more) (scanField count least greatest x) (scanField count least greatest y) := by
  unfold Toml.scanField
  rcases h.take_drop count with ⟨htake, hdrop⟩ | ⟨hx, hy⟩
  · rw [htake]
    cases Text.readDigits? (x.take count) with
    | none => exact .none
    | some n =>
      simp only
      split
      · exact .some ⟨rfl, hdrop⟩
      · exact .none
  · rw [readDigits?_of_newline hx, readDigits?_of_newline hy]
    exact .none

/-- A date ends before the line does. -/
theorem Continued.skipDate (h : Continued more x y) : Option.Rel (Continued more) (skipDate x) (skipDate y) := by
  refine rel_bind (h.scanField 4 0 9999) ?_
  rintro ⟨year, x⟩ ⟨_, y⟩ ⟨rfl, h⟩
  refine rel_bind (h.expect (by decide)) fun x y h => ?_
  refine rel_bind (h.scanField 2 1 12) ?_
  rintro ⟨month, x⟩ ⟨_, y⟩ ⟨rfl, h⟩
  refine rel_bind (h.expect (by decide)) fun x y h => ?_
  refine rel_bind (h.scanField 2 1 _) ?_
  rintro ⟨_, x⟩ ⟨_, y⟩ ⟨rfl, h⟩
  exact .some h

/-- A time of day ends before the line does, with its fraction or without one. -/
theorem Continued.skipTime (h : Continued more x y) : Option.Rel (Continued more) (skipTime x) (skipTime y) := by
  refine rel_bind (h.scanField 2 0 23) ?_
  rintro ⟨_, x⟩ ⟨_, y⟩ ⟨rfl, h⟩
  refine rel_bind (h.expect (by decide)) fun x y h => ?_
  refine rel_bind (h.scanField 2 0 59) ?_
  rintro ⟨_, x⟩ ⟨_, y⟩ ⟨rfl, h⟩
  refine rel_bind (h.expect (by decide)) fun x y h => ?_
  refine rel_bind (h.scanField 2 0 60) ?_
  rintro ⟨_, x⟩ ⟨_, y⟩ ⟨rfl, h⟩
  -- What follows the seconds is their fraction only if there is a digit after a point.
  cases h with
  | last => exact .some .last
  | cons c h =>
    by_cases hc : c = '.'
    · subst hc
      cases h with
      | last => exact .some (.cons _ .last)
      | cons d h =>
        simp only
        split
        · exact .some (h.dropWhile (by decide))
        · exact .some (.cons _ (.cons _ h))
    · simpa [hc] using Continued.cons c h

/-- The distance from universal time ends before the line does. -/
theorem Continued.skipOffset (h : Continued more x y) :
    Option.Rel (Continued more) (skipOffset x) (skipOffset y) := by
  cases h with
  | last => exact .none
  | cons c h =>
    simp only [Toml.skipOffset]
    split
    · exact .some h
    · split
      · refine rel_bind (h.scanField 2 0 23) ?_
        rintro ⟨_, x⟩ ⟨_, y⟩ ⟨rfl, h⟩
        refine rel_bind (h.expect (by decide)) fun x y h => ?_
        refine rel_bind (h.scanField 2 0 59) ?_
        rintro ⟨_, x⟩ ⟨_, y⟩ ⟨rfl, h⟩
        exact .some h
      · exact .none

/-- What may follow a date ends before the line does, be it there or not. -/
theorem Continued.skipClock (h : Continued more x y) : Continued more (skipClock x) (skipClock y) := by
  cases h with
  | last => exact .last
  | @cons c x y h =>
    simp only [Toml.skipClock]
    split
    · rcases rel_cases h.skipTime with ⟨hx, hy⟩ | ⟨x', y', hx, hy, htime⟩
      · rw [hx, hy]
        exact .cons c h
      · rw [hx, hy]
        exact rel_getD htime.skipOffset htime
    · exact .cons c h

/-- A moment ends before the line does. -/
theorem Continued.scanMoment (h : Continued more x y) : Option.Rel (Alike more) (scanMoment x) (scanMoment y) := by
  have hdate : Option.Rel (Continued more) ((Toml.skipDate x).map Toml.skipClock)
      ((Toml.skipDate y).map Toml.skipClock) := rel_map h.skipDate fun _ _ h => h.skipClock
  exact rel_map (rel_or hdate h.skipTime) fun _ _ h => ⟨rfl, h⟩

/-! ## Numbers -/

/-- The digits that go on after a digit, at once or behind an underscore. -/
def moreDigits? (isDigit : Char → Bool) : List Char → Option (List Char)
  | '_' :: next :: rest => if isDigit next then some (next :: rest) else none
  | d :: rest => if isDigit d then some (d :: rest) else none
  | [] => none

/-- Digits are a first digit and whatever digits go on after it. -/
theorem scanDigits_cons (isDigit : Char → Bool) (c : Char) (cs : List Char) :
    scanDigits isDigit (c :: cs) =
      if isDigit c then
        match moreDigits? isDigit cs with
        | some tail => (scanDigits isDigit tail).map fun p => (c :: p.1, p.2)
        | none => some ([c], cs)
      else none := by
  cases cs with
  | nil => simp [scanDigits, moreDigits?]
  | cons d cs =>
    by_cases hd : d = '_'
    · subst hd
      cases cs with
      | nil => by_cases h : isDigit '_' <;> simp [scanDigits, moreDigits?, h]
      | cons next cs => by_cases h : isDigit next <;> simp [scanDigits, moreDigits?, h]
    · by_cases h : isDigit d <;> simp [scanDigits, moreDigits?, h, hd]

/-- The digits that go on take in no more than the text holds. -/
theorem length_moreDigits? {isDigit : Char → Bool} {cs tail : List Char} (h : moreDigits? isDigit cs = some tail) :
    tail.length ≤ cs.length := by
  unfold moreDigits? at h
  split at h
  · split at h <;> cases h
    simp
  · split at h <;> cases h
    exact Nat.le_refl _
  · cases h

/-- Whether digits go on is seen within the line. -/
theorem Continued.moreDigits? {isDigit : Char → Bool} (hdigit : isDigit '\n' = false) (h : Continued more x y) :
    Option.Rel (Continued more) (moreDigits? isDigit x) (moreDigits? isDigit y) := by
  cases h with
  | last => simp [Toml.moreDigits?, hdigit]
  | @cons c x y h =>
    by_cases hc : c = '_'
    · subst hc
      cases h with
      | last => simp [Toml.moreDigits?, hdigit]
      | cons next h =>
        simp only [Toml.moreDigits?]
        split
        · exact .some (.cons _ h)
        · exact .none
    · have hplain (rest : List Char) :
          Toml.moreDigits? isDigit (c :: rest) = if isDigit c then some (c :: rest) else none := by
        simp [Toml.moreDigits?, hc]
      rw [hplain, hplain]
      split
      · exact .some (.cons _ h)
      · exact .none

/-- Digits end before the line does. -/
theorem Continued.scanDigits {isDigit : Char → Bool} (hdigit : isDigit '\n' = false) (h : Continued more x y) :
    Option.Rel (Alike more) (scanDigits isDigit x) (scanDigits isDigit y) := by
  induction hlength : x.length using Nat.strongRecOn generalizing x y with
  | ind n ih =>
    cases h with
    | last =>
      rw [scanDigits_cons, scanDigits_cons, hdigit]
      exact .none
    | @cons c x y h =>
      rw [scanDigits_cons, scanDigits_cons]
      split
      · rcases rel_cases (h.moreDigits? hdigit) with ⟨hx, hy⟩ | ⟨x', y', hx, hy, hmore⟩
        · rw [hx, hy]
          exact .some ⟨rfl, h⟩
        · have hle := length_moreDigits? hx
          rw [List.length_cons] at hlength
          rw [hx, hy]
          exact rel_alike_map _ (ih _ (by omega) hmore rfl)
      · exact .none

/-- The end of a line is no digit. -/
theorem isDigit_newline : Char.isDigit '\n' = false := by decide

/-- A whole number without a sign ends before the line does. -/
theorem Continued.scanWhole (h : Continued more x y) : Option.Rel (Alike more) (scanWhole x) (scanWhole y) := by
  have hdigits := h.scanDigits isDigit_newline
  cases h with
  | last => exact hdigits
  | @cons c x y h =>
    by_cases hc : c = '0'
    · subst hc
      exact .some ⟨rfl, h⟩
    · have hplain (rest : List Char) : Toml.scanWhole (c :: rest) = Toml.scanDigits Char.isDigit (c :: rest) := by
        simp [Toml.scanWhole, hc]
      rwa [hplain, hplain]

/-- A sign is taken alike, also where there is none. -/
theorem Continued.scanSign (h : Continued more x y) : Alike more (scanSign x) (scanSign y) := by
  cases h with
  | last => exact ⟨rfl, .last⟩
  | @cons c x y h =>
    by_cases hminus : c = '-'
    · subst hminus
      exact ⟨rfl, h⟩
    · by_cases hplus : c = '+'
      · subst hplus
        exact ⟨rfl, h⟩
      · have hplain (rest : List Char) : Toml.scanSign (c :: rest) = (false, c :: rest) := by
          simp [Toml.scanSign, hminus, hplus]
        rw [hplain, hplain]
        exact ⟨rfl, .cons c h⟩

/-- An exponent ends before the line does. -/
theorem Continued.scanExponent (h : Continued more x y) :
    Option.Rel (Alike more) (scanExponent x) (scanExponent y) := by
  cases h with
  | last => exact .none
  | @cons c x y h =>
    simp only [Toml.scanExponent]
    split
    · obtain ⟨hnegative, hrest⟩ := h.scanSign
      simp only [hnegative]
      refine rel_map (hrest.scanDigits isDigit_newline) ?_
      rintro ⟨digits, x⟩ ⟨_, y⟩ ⟨rfl, h⟩
      exact ⟨rfl, h⟩
    · exact .none

/-- A fraction ends before the line does. -/
theorem Continued.scanFraction (h : Continued more x y) :
    Option.Rel (Alike more) (scanFraction x) (scanFraction y) := by
  cases h with
  | last => exact .none
  | @cons c x y h =>
    by_cases hc : c = '.'
    · subst hc
      exact h.scanDigits isDigit_newline
    · have hplain (rest : List Char) : Toml.scanFraction (c :: rest) = none := by simp [Toml.scanFraction, hc]
      rw [hplain, hplain]
      exact .none

/-- A number with a fraction or an exponent ends before the line does. -/
theorem Continued.scanReal (h : Continued more x y) : Option.Rel (Alike more) (scanReal x) (scanReal y) := by
  unfold Toml.scanReal
  obtain ⟨hnegative, h⟩ := h.scanSign
  simp only [hnegative]
  refine rel_bind h.scanWhole ?_
  rintro ⟨digits, x⟩ ⟨_, y⟩ ⟨rfl, h⟩
  obtain ⟨hfraction, h⟩ := rel_getD h.scanFraction (a := ([], x)) (b := ([], y)) ⟨rfl, h⟩
  simp only [hfraction]
  -- A number has a fraction or an exponent, and is not beyond the numbers of double precision.
  rcases rel_cases h.scanExponent with ⟨hx, hy⟩ | ⟨⟨exponent, x'⟩, ⟨_, y'⟩, hx, hy, rfl, h⟩
  · simp only [hx, hy]
    split
    · exact .none
    · simp only [Option.bind_eq_bind, Option.bind_some]
      split
      · exact .none
      · exact .some ⟨rfl, h⟩
  · simp only [hx, hy, Option.bind_eq_bind, Option.bind_some]
    split
    · exact .none
    · exact .some ⟨rfl, h⟩

/-- The words for infinity and for what is no number end before the line does. -/
theorem Continued.scanSpecial (h : Continued more x y) :
    Option.Rel (Alike more) (scanSpecial x) (scanSpecial y) := by
  obtain ⟨-, h⟩ := h.scanSign
  exact rel_map (rel_or (h.expect (by decide)) (h.expect (by decide))) fun _ _ h => ⟨rfl, h⟩

/-- A whole number in another base than ten ends before the line does. -/
theorem Continued.scanBased (h : Continued more x y) (base : Nat) :
    Option.Rel (Alike more) (scanBased base x) (scanBased base y) := by
  refine rel_bind (h.scanDigits (by simp [Text.hexValue?])) ?_
  rintro ⟨digits, x⟩ ⟨_, y⟩ ⟨rfl, h⟩
  simp only
  cases bounded? _ with
  | none => exact .none
  | some value => exact .some ⟨rfl, h⟩

/-- A decimal number with an optional sign. -/
def scanDecimal : Scan Toml := fun cs => do
  let (negative, cs) := scanSign cs
  let (digits, after) ← scanWhole cs
  let n := Int.ofNat (Text.digitsValue digits)
  some (← bounded? (if negative then -n else n), after)

/-- The base that a letter after a zero stands for. -/
def baseOf? : Char → Option Nat
  | 'x' => some 16
  | 'o' => some 8
  | 'b' => some 2
  | _ => none

/-- After a zero a letter may choose the base; without such a letter the number is decimal. -/
theorem scanInteger_of_zero (c : Char) (cs : List Char) : scanInteger ('0' :: c :: cs) =
    match baseOf? c with
    | some base => scanBased base cs
    | none => scanDecimal ('0' :: c :: cs) := by
  by_cases hx : c = 'x'
  · subst hx
    rfl
  by_cases ho : c = 'o'
  · subst ho
    rfl
  by_cases hb : c = 'b'
  · subst hb
    rfl
  · simp [scanInteger, scanDecimal, baseOf?, hx, ho, hb]

/-- A number that does not start with a zero is decimal. -/
theorem scanInteger_of_ne {c : Char} (hc : c ≠ '0') (cs : List Char) :
    scanInteger (c :: cs) = scanDecimal (c :: cs) := by
  simp [scanInteger, scanDecimal, hc]

/-- A decimal number ends before the line does. -/
theorem Continued.scanDecimal (h : Continued more x y) :
    Option.Rel (Alike more) (scanDecimal x) (scanDecimal y) := by
  obtain ⟨hnegative, h⟩ := h.scanSign
  simp only [Toml.scanDecimal, hnegative]
  refine rel_bind h.scanWhole ?_
  rintro ⟨digits, x⟩ ⟨_, y⟩ ⟨rfl, h⟩
  simp only
  cases bounded? _ with
  | none => exact .none
  | some value => exact .some ⟨rfl, h⟩

/-- A whole number ends before the line does, whatever its base. -/
theorem Continued.scanInteger (h : Continued more x y) :
    Option.Rel (Alike more) (scanInteger x) (scanInteger y) := by
  have hdecimal := h.scanDecimal
  cases h with
  | last => exact hdecimal
  | @cons c x y h =>
    by_cases hc : c = '0'
    · subst hc
      cases h with
      | last => exact hdecimal
      | @cons d x y h =>
        rw [scanInteger_of_zero, scanInteger_of_zero]
        cases baseOf? d with
        | none => exact hdecimal
        | some base => exact h.scanBased base
    · rwa [scanInteger_of_ne hc, scanInteger_of_ne hc]

end Toml

end SignOff
