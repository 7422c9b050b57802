import SignOff.Calendar.DateText

/-!
# Date patterns

A pattern is text in which a percent sign starts a specifier. The specifiers that a date alone can
answer are known here; one that needs a time of day or a zone, an unknown one, and a percent sign
with nothing after it make the whole pattern unusable. Between the percent sign and the letter of a
single number may stand `-`, `_` or `0`, for no padding, padding with spaces or with zeros.

A usable pattern is a list of pieces, and every piece can be rendered for every date, so a pattern
fails for one date only if it fails for all of them.
-/

namespace SignOff

namespace Pattern

/-- How a number is filled up to its width. -/
inductive Padding where
  | zeros
  | spaces
  | none
deriving DecidableEq, Repr

/-- A number that can be asked of a date. -/
inductive Field where
  | year
  | century
  | yearOfCentury
  | quarter
  | month
  | day
  | dayOfYear
  | weekdayFromSunday
  | weekdayFromMonday
  | weekFromSunday
  | weekFromMonday
  | isoYear
  | isoYearOfCentury
  | isoWeek
deriving DecidableEq, Repr

/-- A part of a usable pattern. -/
inductive Piece where
  | literal (c : Char)
  | number (field : Field) (padding : Padding)
  | monthName
  | monthAbbreviation
  | weekdayName
  | weekdayAbbreviation
deriving DecidableEq, Repr

/-- English month names, from January on. -/
def monthNames : List String :=
  ["January", "February", "March", "April", "May", "June", "July", "August", "September",
    "October", "November", "December"]

/-- English weekday names, from Monday on. -/
def weekdayNames : List String :=
  ["Monday", "Tuesday", "Wednesday", "Thursday", "Friday", "Saturday", "Sunday"]

/-- The full name of the date's month. -/
def monthName (d : Date) : List Char := (monthNames.getD (d.month - 1) "").toList

/-- The full name of the date's weekday. -/
def weekdayName (d : Date) : List Char := (weekdayNames.getD d.daysFromMonday "").toList

/-- A number filled up to `width` characters. -/
def padded (padding : Padding) (width n : Nat) : List Char :=
  match padding with
  | .zeros => Text.padLeft '0' width (Text.digits n)
  | .spaces => Text.padLeft ' ' width (Text.digits n)
  | .none => Text.digits n

/-- A year of four digits; a year outside 0 to 9999 has a sign, which takes one more place.

Zeros stand between the sign and the digits, spaces stand before the sign. -/
def paddedYear (padding : Padding) (year : Int) : List Char :=
  if 0 ≤ year ∧ year ≤ 9999 then padded padding 4 year.natAbs
  else
    let sign := if year < 0 then '-' else '+'
    match padding with
    | .zeros => sign :: Text.padLeft '0' 4 (Text.digits year.natAbs)
    | .spaces => Text.padLeft ' ' 5 (sign :: Text.digits year.natAbs)
    | .none => sign :: Text.digits year.natAbs

/-- The digits of one number of a date; numbers of one digit are never padded.

The century is meant for years from 0 to 9999. Outside them nothing is promised about its specifier, and what
stands here is a choice: the century in full after the year 9999, and zero before the year 0. -/
def Field.render (padding : Padding) (d : Date) : Field → List Char
  | .year => paddedYear padding d.year
  | .century => padded padding 2 (d.year / 100).toNat
  | .yearOfCentury => padded padding 2 (d.year % 100).toNat
  | .quarter => Text.digits d.quarter
  | .month => padded padding 2 d.month
  | .day => padded padding 2 d.day
  | .dayOfYear => padded padding 3 d.dayOfYear
  | .weekdayFromSunday => Text.digits d.daysFromSunday
  | .weekdayFromMonday => Text.digits (d.daysFromMonday + 1)
  | .weekFromSunday => padded padding 2 d.weekFromSunday
  | .weekFromMonday => padded padding 2 d.weekFromMonday
  | .isoYear => paddedYear padding d.isoYear
  | .isoYearOfCentury => padded padding 2 (d.isoYear % 100).toNat
  | .isoWeek => padded padding 2 d.isoWeek

/-- The text of a piece for a date. -/
def Piece.render (d : Date) : Piece → List Char
  | .literal c => [c]
  | .number field padding => field.render padding d
  | .monthName => Pattern.monthName d
  | .monthAbbreviation => (Pattern.monthName d).take 3
  | .weekdayName => Pattern.weekdayName d
  | .weekdayAbbreviation => (Pattern.weekdayName d).take 3

/-- The number that a specifier letter asks for, with its own padding. -/
def numberOf? : Char → Option (Field × Padding)
  | 'Y' => some (.year, .zeros)
  | 'C' => some (.century, .zeros)
  | 'y' => some (.yearOfCentury, .zeros)
  | 'q' => some (.quarter, .zeros)
  | 'm' => some (.month, .zeros)
  | 'd' => some (.day, .zeros)
  | 'e' => some (.day, .spaces)
  | 'j' => some (.dayOfYear, .zeros)
  | 'w' => some (.weekdayFromSunday, .zeros)
  | 'u' => some (.weekdayFromMonday, .zeros)
  | 'U' => some (.weekFromSunday, .zeros)
  | 'W' => some (.weekFromMonday, .zeros)
  | 'G' => some (.isoYear, .zeros)
  | 'g' => some (.isoYearOfCentury, .zeros)
  | 'V' => some (.isoWeek, .zeros)
  | _ => none

/-- The pieces of month, day and year of the century joined by slashes. -/
def slashedDate : List Piece :=
  [.number .month .zeros, .literal '/', .number .day .zeros, .literal '/',
    .number .yearOfCentury .zeros]

/-- The pieces of year, month and day joined by hyphens. -/
def hyphenatedDate : List Piece :=
  [.number .year .zeros, .literal '-', .number .month .zeros, .literal '-', .number .day .zeros]

/-- The pieces of day, month abbreviation and year joined by hyphens. -/
def namedMonthDate : List Piece :=
  [.number .day .spaces, .literal '-', .monthAbbreviation, .literal '-', .number .year .zeros]

/-- The pieces of a specifier letter that stands directly after the percent sign. -/
def specifier? (c : Char) : Option (List Piece) :=
  match numberOf? c with
  | some (field, padding) => some [.number field padding]
  | none =>
    match c with
    | 'B' => some [.monthName]
    | 'b' | 'h' => some [.monthAbbreviation]
    | 'A' => some [.weekdayName]
    | 'a' => some [.weekdayAbbreviation]
    | 'D' | 'x' => some slashedDate
    | 'F' => some hyphenatedDate
    | 'v' => some namedMonthDate
    | 't' => some [.literal '\t']
    | 'n' => some [.literal '\n']
    | '%' => some [.literal '%']
    | _ => none

/-- The padding that a character after the percent sign asks for. -/
def paddingOf? : Char → Option Padding
  | '-' => some .none
  | '_' => some .spaces
  | '0' => some .zeros
  | _ => none

/-- The pieces of a pattern, unless it is unusable. -/
def pieces? : List Char → Option (List Piece)
  | [] => some []
  | '%' :: [] => none
  | '%' :: c :: rest =>
    match paddingOf? c with
    | none => do return (← specifier? c) ++ (← pieces? rest)
    | some padding =>
      match rest with
      | [] => none
      | letter :: rest => do
        let (field, _) ← numberOf? letter
        return .number field padding :: (← pieces? rest)
  | c :: rest => do return .literal c :: (← pieces? rest)

/-- The text of all pieces for a date. -/
def render (d : Date) (pieces : List Piece) : List Char := pieces.flatMap (Piece.render d)

end Pattern

namespace Date

/-- The date written by a pattern, unless the pattern is unusable. -/
def format? (pattern : String) (d : Date) : Option String :=
  (Pattern.pieces? pattern.toList).map fun pieces => String.ofList (Pattern.render d pieces)

/-- Whether a pattern can be rendered does not depend on the date. -/
theorem format?_isSome_iff (pattern : String) (d e : Date) :
    (d.format? pattern).isSome ↔ (e.format? pattern).isSome := by
  simp [format?]

end Date

end SignOff
