import SignOff.Calendar.Date
import SignOff.Text.Numeral

/-!
# Written dates

A date is written as year, month and day joined by hyphens. Years from 0 to 9999 have four digits
and no sign, all others a sign and at least four digits.

Two spellings are read. The free one, of JSON texts, allows white space before each number, before
each hyphen and at the end. The stored one, of table rows, allows it before the numbers only. In
both a year without a sign has at most four digits, a month or day at most two.
-/

namespace SignOff.Date

/-- The number in at least `width` digits. -/
def zeroPadded (width n : Nat) : List Char := Text.padLeft '0' width (Text.digits n)

/-- The year as it stands in a written date. -/
def yearDigits (year : Int) : List Char :=
  if 0 ≤ year ∧ year ≤ 9999 then zeroPadded 4 year.natAbs
  else (if year < 0 then '-' else '+') :: zeroPadded 4 year.natAbs

/-- The written form of a date. -/
def toList (d : Date) : List Char :=
  yearDigits d.year ++ '-' :: zeroPadded 2 d.month ++ '-' :: zeroPadded 2 d.day

/-- The written form of a date. -/
def toText (d : Date) : String := String.ofList d.toList

/-- Why a text is not a date. -/
inductive Fault where
  | tooShort
  | invalid
  | outOfRange
  | trailing
deriving DecidableEq, Repr

/-- The wording of a reading fault. -/
def Fault.message : Fault → String
  | .tooShort => "premature end of input"
  | .invalid => "input contains invalid characters"
  | .outOfRange => "input is out of range"
  | .trailing => "trailing input"

/-- One to `most` digits and what follows them. -/
def scanDigits (most : Nat) (cs : List Char) : Except Fault (Nat × List Char) :=
  match cs with
  | [] => .error .tooShort
  | c :: _ =>
    if c.isDigit then
      let run := (cs.take most).takeWhile Char.isDigit
      .ok (Text.digitsValue run, cs.drop run.length)
    else .error .invalid

/-- The greatest year number that a machine word of 32 bits holds. -/
def yearLimit : Nat := 2147483647

/-- A year with its optional sign; only a signed year has more than four digits. -/
def scanYear (cs : List Char) : Except Fault (Int × List Char) :=
  match Text.trimStart cs with
  | '-' :: rest => do
    let (n, after) ← scanDigits rest.length rest
    if n ≤ yearLimit + 1 then .ok (-Int.ofNat n, after) else .error .outOfRange
  | '+' :: rest => do
    let (n, after) ← scanDigits rest.length rest
    if n ≤ yearLimit then .ok (Int.ofNat n, after) else .error .outOfRange
  | rest => do
    let (n, after) ← scanDigits 4 rest
    .ok (Int.ofNat n, after)

/-- A month or day number of one or two digits, refused as soon as it exceeds `most` or is zero. -/
def scanPart (most : Nat) (cs : List Char) : Except Fault (Nat × List Char) := do
  let (n, after) ← scanDigits 2 (Text.trimStart cs)
  if 1 ≤ n ∧ n ≤ most then .ok (n, after) else .error .outOfRange

/-- The hyphen between two parts. -/
def scanHyphen : List Char → Except Fault (List Char)
  | [] => .error .tooShort
  | '-' :: rest => .ok rest
  | _ :: _ => .error .invalid

/-- Reads a date, where `gap` removes what may stand before a hyphen and at the end. -/
def readWith (gap : List Char → List Char) (cs : List Char) : Except Fault Date := do
  let (year, rest) ← scanYear cs
  let rest ← scanHyphen (gap rest)
  let (month, rest) ← scanPart 12 rest
  let rest ← scanHyphen (gap rest)
  let (day, rest) ← scanPart 31 rest
  match gap rest with
  | _ :: _ => .error .trailing
  | [] =>
    match ofParts? year month day with
    | some date => .ok date
    | none => .error .outOfRange

/-- Reads a date in the free spelling. -/
def read (s : String) : Except Fault Date := readWith Text.trimStart s.toList

/-- Reads a date in the stored spelling. -/
def readStored (s : String) : Except Fault Date := readWith id s.toList

end SignOff.Date
