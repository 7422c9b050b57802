import Mathlib.Data.List.TakeWhile
import SignOff.Json.Reader
import SignOff.Json.Writer
import SignOff.Proofs.Results

/-!
# Strings read back, and where numbers end

A string is read back from its quoted form, whatever its characters. A numeral that is taken from a text by
itself is also taken from it in front of anything that does not go on with a number.
-/

namespace SignOff

namespace Json

/-! ## Strings -/

/-- The unit of an escaped control character is its code. -/
theorem unit?_of_lt {n : Nat} (h : n < 0x20) :
    unit? '0' '0' (hexDigit (n / 16)) (hexDigit (n % 16)) = some n := by
  have hall : ∀ n < 0x20, unit? '0' '0' (hexDigit (n / 16)) (hexDigit (n % 16)) = some n := by decide
  exact hall n h

/-- A plain character is read as it stands. -/
theorem stringTail_cons {c : Char} (hquote : c ≠ '"') (hslash : c ≠ '\\') (hcontrol : ¬c.toNat < 0x20)
    (cs : List Char) :
    stringTail (c :: cs) = (do
      let (tail, after) ← stringTail cs
      .ok (c :: tail, after)) := by
  rw [stringTail.eq_def]
  split
  · next heq => cases heq
  · next heq => exact absurd (List.cons.inj heq).1 hquote
  · next heq => exact absurd (List.cons.inj heq).1 hslash
  · next heq => exact absurd (List.cons.inj heq).1 hslash
  · next heq =>
    obtain ⟨rfl, rfl⟩ := List.cons.inj heq
    exact if_neg (by simp [hcontrol, hslash])

/-- A character is read back from its escaped form. -/
theorem stringTail_escape (c : Char) (cs : List Char) :
    stringTail (escape c ++ cs) = (do
      let (tail, after) ← stringTail cs
      .ok (c :: tail, after)) := by
  unfold escape
  split
  · next h => subst h; rfl
  split
  · next h => subst h; rfl
  split
  · next h => subst h; rfl
  split
  · next h => subst h; rfl
  split
  · next h => subst h; rfl
  split
  · next h => subst h; rfl
  split
  · next h => subst h; rfl
  split
  · next h =>
    have hleading : isLeading c.toNat = false := by simp [isLeading]; omega
    have htrailing : isTrailing c.toNat = false := by simp [isTrailing]; omega
    simp only [List.cons_append, List.nil_append]
    rw [stringTail]
    simp only [unit?_of_lt h, hleading, htrailing, Char.ofNat_toNat, Bool.false_eq_true, if_false]
  · next hquote hslash _ _ _ _ _ hcontrol => exact stringTail_cons hquote hslash hcontrol cs

/-- A string is read up to its closing quotation mark. -/
theorem stringTail_quoted (cs rest : List Char) :
    stringTail (cs.flatMap escape ++ '"' :: rest) = .ok (cs, rest) := by
  induction cs with
  | nil => simp [stringTail]
  | cons c cs ih =>
    rw [List.flatMap_cons, List.append_assoc, stringTail_escape, ih]
    rfl

/-! ## Numbers in front of other text -/

/-- The text starts with nothing that goes on with a number. -/
def Breaks (rest : List Char) : Prop :=
  ∀ c ∈ rest.head?, c.isDigit = false ∧ c ≠ '.' ∧ c ≠ 'e' ∧ c ≠ 'E'

/-- A number does not go on at the end of the text. -/
theorem breaks_nil : Breaks [] := by simp [Breaks]

/-- The reader takes the same off a text that is followed by something else than more of a number. -/
def Stops {α : Type} (reader : Reader α) : Prop :=
  ∀ (cs after rest : List Char) (a : α), Breaks rest → reader cs = .ok (a, after) →
    reader (cs ++ rest) = .ok (a, after ++ rest)

namespace Stops

variable {α β : Type}

/-- A reader that takes nothing takes nothing off longer texts either. -/
theorem pure (a : α) : Stops fun cs => .ok (a, cs) := by
  intro cs after rest b _ h
  simp only [Except.ok.injEq, Prod.mk.injEq] at h ⊢
  exact ⟨h.1, by rw [h.2]⟩

/-- A reader that always fails takes nothing off any text. -/
theorem refuse (fault : Fault) : Stops (α := α) fun _ => .error fault := by
  intro cs after rest a _ h
  contradiction

/-- Where two readers stop, so does the second after the first. -/
theorem bind {first : Reader α} {second : α × List Char → Except Fault (β × List Char)} (hfirst : Stops first)
    (hsecond : ∀ a, Stops fun cs => second (a, cs)) : Stops fun cs => first cs >>= second := by
  intro cs after rest b hrest h
  obtain ⟨⟨a, middle⟩, hread, hrun⟩ := bind_eq_ok_iff.1 h
  exact bind_eq_ok_iff.2
    ⟨(a, middle ++ rest), hfirst cs middle rest a hrest hread, hsecond a middle after rest b hrest hrun⟩

end Stops

/-- Digits stop in front of what does not go on with a number. -/
theorem stops_takeDigits : Stops takeDigits := by
  intro cs after rest ds hrest h
  have hrun : rest.takeWhile Char.isDigit = [] ∧ rest.dropWhile Char.isDigit = rest := by
    cases rest with
    | nil => exact ⟨rfl, rfl⟩
    | cons c rest => simp [(hrest c (by simp)).1]
  have hwhile : (cs ++ rest).takeWhile Char.isDigit = cs.takeWhile Char.isDigit ∧
      (cs ++ rest).dropWhile Char.isDigit = cs.dropWhile Char.isDigit ++ rest := by
    clear h
    induction cs with
    | nil => simpa using hrun
    | cons c cs ih => by_cases hc : c.isDigit = true <;> simp [hc, ih]
  simp only [takeDigits, hwhile] at h ⊢
  split at h
  · contradiction
  · next hne =>
    rw [if_neg hne]
    exact Stops.pure _ _ after rest ds hrest h

/-- The whole part of a number stops there. -/
theorem stops_takeWhole : Stops takeWhole := by
  refine stops_takeDigits.bind fun ds => ?_
  simp only
  split
  · exact .refuse _
  · exact .pure ds

/-- Without a point there is no fraction. -/
theorem takeFraction_of_ne {c : Char} (h : c ≠ '.') (cs : List Char) :
    takeFraction (c :: cs) = .ok ([], c :: cs) := by
  unfold takeFraction
  split
  · next heq => exact absurd (List.cons.inj heq).1 h
  · rfl

/-- A fraction stops in front of what does not go on with a number. -/
theorem stops_takeFraction : Stops takeFraction := by
  intro cs after rest ds hrest h
  cases cs with
  | nil =>
    cases rest with
    | nil => simpa using h
    | cons c rest =>
      have hc : c ≠ '.' := (hrest c (by simp)).2.1
      simp only [takeFraction, Except.ok.injEq, Prod.mk.injEq] at h
      simp [takeFraction_of_ne hc, ← h.1, ← h.2]
  | cons c cs =>
    by_cases hpoint : c = '.'
    · subst hpoint
      exact stops_takeDigits cs after rest ds hrest h
    · rw [takeFraction_of_ne hpoint] at h
      rw [List.cons_append, takeFraction_of_ne hpoint]
      exact Stops.pure [] (c :: cs) after rest ds hrest h

/-- An exponent without its letter stops there. -/
theorem stops_takeSigned : Stops takeSigned := by
  have hdigits (f : List Char → Int) : Stops fun cs => takeDigits cs >>= fun found => .ok (f found.1, found.2) :=
    stops_takeDigits.bind fun ds => .pure (f ds)
  intro cs after rest e hrest h
  unfold takeSigned at h
  split at h
  · exact hdigits (fun ds => -Int.ofNat (Text.digitsValue ds)) _ after rest e hrest h
  · exact hdigits (fun ds => Int.ofNat (Text.digitsValue ds)) _ after rest e hrest h
  · next hminus hplus =>
    have h' := hdigits (fun ds => Int.ofNat (Text.digitsValue ds)) _ after rest e hrest h
    unfold takeSigned
    cases cs with
    | nil => contradiction
    | cons c cs =>
      split
      · simp_all
      · simp_all
      · exact h'

/-- An exponent stops in front of what does not go on with a number. -/
theorem stops_takeExponent : Stops takeExponent := by
  intro cs after rest e hrest h
  cases cs with
  | nil =>
    cases rest with
    | nil => simpa using h
    | cons c rest =>
      obtain ⟨-, -, he, hE⟩ := hrest c (by simp)
      simp only [takeExponent, Except.ok.injEq, Prod.mk.injEq] at h
      simp [takeExponent, he, hE, ← h.1, ← h.2]
  | cons c cs =>
    simp only [takeExponent, List.cons_append] at h ⊢
    split at h
    · next hletter =>
      rw [if_pos hletter]
      exact (stops_takeSigned.bind fun e => .pure (some e)) cs after rest e hrest h
    · next hother =>
      rw [if_neg hother]
      exact Stops.pure none (c :: cs) after rest e hrest h

/-- The parts of a numeral after its sign. -/
def readParts (negative : Bool) : Reader Numeral := fun cs => do
  let (whole, cs) ← takeWhole cs
  let (fraction, cs) ← takeFraction cs
  let (exponent, cs) ← takeExponent cs
  .ok (⟨negative, whole, fraction, exponent⟩, cs)

/-- Without a minus sign the parts of a numeral start at once. -/
theorem readNumeral_of_ne {c : Char} (h : c ≠ '-') (cs : List Char) :
    readNumeral (c :: cs) = readParts false (c :: cs) := by
  unfold readNumeral
  split
  next negative text hsign =>
    split at hsign
    · next heq => exact absurd (List.cons.inj heq).1 h
    · cases hsign
      rfl

/-- A numeral stops in front of what does not go on with a number. -/
theorem stops_readNumeral : Stops readNumeral := by
  have hparts (negative : Bool) : Stops (readParts negative) :=
    stops_takeWhole.bind fun _ => stops_takeFraction.bind fun _ => stops_takeExponent.bind fun _ => .pure _
  intro cs after rest x hrest h
  cases cs with
  | nil => contradiction
  | cons c cs =>
    by_cases hminus : c = '-'
    · subst hminus
      exact hparts true cs after rest x hrest h
    · rw [readNumeral_of_ne hminus] at h
      rw [List.cons_append, readNumeral_of_ne hminus]
      exact hparts false (c :: cs) after rest x hrest h

end Json

end SignOff
