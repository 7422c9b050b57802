import SignOff.Number.Power
import SignOff.Text.Numeral
import SignOff.Toml.Value

/-!
# Plain TOML values

Strings in their four forms, numbers, truth values and moments. A scanner takes a value off the
front of a text and gives what follows, or nothing if the text starts with no such value. What may
follow a value is looked at elsewhere, so a numeral that breaks off early is found out there.
-/

namespace SignOff.Toml

/-- Takes something off the front of a text. -/
abbrev Scan (α : Type) := List Char → Option (α × List Char)

/-- White space within a line. -/
def isBlank (c : Char) : Bool := c == ' ' || c == '\t'

/-- The text without leading white space of the line. -/
def skipBlank (cs : List Char) : List Char := cs.dropWhile isBlank

/-- A character that may stand in a comment or, where it does not end it, in a string. -/
def isPrintable (c : Char) : Bool := c == '\t' || (0x20 ≤ c.toNat && c.toNat != 0x7F)

/-- What follows the end of a line: a line feed, alone or after a carriage return. -/
def newline? : List Char → Option (List Char)
  | '\n' :: rest => some rest
  | '\r' :: '\n' :: rest => some rest
  | _ => none

/-- What follows a text that has to come next. -/
def expect (text cs : List Char) : Option (List Char) :=
  if text.isPrefixOf cs then some (cs.drop text.length) else none

/-! ## Strings -/

/-- The number that hexadecimal digits stand for. -/
def hexNumber? (digits : List Char) : Option Nat :=
  digits.foldlM (fun n c => (Text.hexValue? c).map fun d => 16 * n + d) 0

/-- The character with a number, if there is one. -/
def charOf? (n : Nat) : Option Char := if n.isValidChar then some (Char.ofNat n) else none

/-- The character that a letter after a backslash stands for. -/
def escaped? : Char → Option Char
  | 'b' => some '\x08'
  | 't' => some '\t'
  | 'n' => some '\n'
  | 'f' => some '\x0C'
  | 'r' => some '\r'
  | '"' => some '"'
  | '\\' => some '\\'
  | _ => none

/-- The characters up to the closing quotation mark of a string in one line. -/
def quotedTail : Scan (List Char)
  | [] => none
  | '"' :: rest => some ([], rest)
  | '\\' :: 'u' :: a :: b :: c :: d :: rest => do
    let first ← (hexNumber? [a, b, c, d]).bind charOf?
    let (tail, after) ← quotedTail rest
    some (first :: tail, after)
  | '\\' :: 'U' :: a :: b :: c :: d :: e :: f :: g :: h :: rest => do
    let first ← (hexNumber? [a, b, c, d, e, f, g, h]).bind charOf?
    let (tail, after) ← quotedTail rest
    some (first :: tail, after)
  | '\\' :: c :: rest => do
    let first ← escaped? c
    let (tail, after) ← quotedTail rest
    some (first :: tail, after)
  | c :: rest =>
    if isPrintable c && c != '\\' then do
      let (tail, after) ← quotedTail rest
      some (c :: tail, after)
    else none

/-- The characters up to the apostrophe that closes a verbatim string in one line. -/
def verbatimTail (cs : List Char) : Option (List Char × List Char) :=
  let inside := cs.takeWhile fun c => isPrintable c && c != '\''
  match cs.drop inside.length with
  | '\'' :: rest => some (inside, rest)
  | _ => none

/-- The marks at the end of a string of several lines: up to two of them belong to the string. -/
def closingMarks (mark : Char) (cs : List Char) : List Char × List Char :=
  let extra := (cs.takeWhile (· == mark)).take 2
  (extra, cs.drop extra.length)

/-- A backslash before `cs` ends a line. -/
def endsLine (cs : List Char) : Bool := (newline? (skipBlank cs)).isSome

/-- The characters up to the three quotation marks that close a string of several lines.

`skipping` holds after a backslash at the end of a line, up to the next character that is neither
white space nor the end of a line. -/
def linesTail : Bool → Scan (List Char)
  | _, [] => none
  | _, '"' :: '"' :: '"' :: rest => some (closingMarks '"' rest)
  | _, '\\' :: 'u' :: a :: b :: c :: d :: rest => do
    let first ← (hexNumber? [a, b, c, d]).bind charOf?
    let (tail, after) ← linesTail false rest
    some (first :: tail, after)
  | _, '\\' :: 'U' :: a :: b :: c :: d :: e :: f :: g :: h :: rest => do
    let first ← (hexNumber? [a, b, c, d, e, f, g, h]).bind charOf?
    let (tail, after) ← linesTail false rest
    some (first :: tail, after)
  | _, '\\' :: c :: rest =>
    if endsLine (c :: rest) then linesTail true (c :: rest)
    else do
      let first ← escaped? c
      let (tail, after) ← linesTail false rest
      some (first :: tail, after)
  | skipping, '\r' :: '\n' :: rest =>
    if skipping then linesTail true rest
    else do
      let (tail, after) ← linesTail false rest
      some ('\n' :: tail, after)
  | skipping, c :: rest =>
    if skipping && (isBlank c || c == '\n') then linesTail true rest
    else if (isPrintable c && c != '\\') || c == '\n' then do
      let (tail, after) ← linesTail false rest
      some (c :: tail, after)
    else none

/-- The characters up to the three apostrophes that close a verbatim string of several lines. -/
def verbatimLinesTail : Scan (List Char)
  | [] => none
  | '\'' :: '\'' :: '\'' :: rest => some (closingMarks '\'' rest)
  | '\r' :: '\n' :: rest => do
    let (tail, after) ← verbatimLinesTail rest
    some ('\n' :: tail, after)
  | c :: rest =>
    if isPrintable c || c == '\n' then do
      let (tail, after) ← verbatimLinesTail rest
      some (c :: tail, after)
    else none

/-- A string in any of its forms; a line end right after three opening marks is not part of it. -/
def scanText : Scan String := fun cs =>
  let inside := match cs with
    | '"' :: '"' :: '"' :: rest => linesTail false ((newline? rest).getD rest)
    | '\'' :: '\'' :: '\'' :: rest => verbatimLinesTail ((newline? rest).getD rest)
    | '"' :: rest => quotedTail rest
    | '\'' :: rest => verbatimTail rest
    | _ => none
  inside.map fun (s, rest) => (String.ofList s, rest)

/-! ## Numbers -/

/-- Digits of which any two may have an underscore between them; the underscores are left out. -/
def scanDigits (isDigit : Char → Bool) : Scan (List Char)
  | [] => none
  | [c] => if isDigit c then some ([c], []) else none
  | c :: d :: rest =>
    if isDigit c then
      match d, rest with
      | '_', next :: _ =>
        if isDigit next then (scanDigits isDigit rest).map fun (ds, after) => (c :: ds, after)
        else some ([c], d :: rest)
      | _, _ =>
        if isDigit d then (scanDigits isDigit (d :: rest)).map fun (ds, after) => (c :: ds, after)
        else some ([c], d :: rest)
    else none

/-- The digits of a whole number: a zero stands alone. -/
def scanWhole : Scan (List Char)
  | '0' :: rest => some (['0'], rest)
  | cs => scanDigits Char.isDigit cs

/-- A sign, if there is one; it tells whether the number is negative. -/
def scanSign : List Char → Bool × List Char
  | '-' :: rest => (true, rest)
  | '+' :: rest => (false, rest)
  | cs => (false, cs)

/-- The exponent after its letter. -/
def scanExponent : Scan Int
  | c :: rest =>
    if c == 'e' || c == 'E' then
      let (negative, rest) := scanSign rest
      (scanDigits Char.isDigit rest).map fun (ds, after) =>
        let n := Int.ofNat (Text.digitsValue ds)
        (if negative then -n else n, after)
    else none
  | [] => none

/-- The digits after a point. -/
def scanFraction : Scan (List Char)
  | '.' :: rest => scanDigits Char.isDigit rest
  | _ => none

/-- The least size that is beyond the numbers of double precision. -/
def infiniteSize : Nat := Power.ofTwo 1024 - Power.ofTwo 970

/-- The number `significand * 10^exponent` is beyond the numbers of double precision. -/
def isInfinite (significand : Nat) (exponent : Int) : Bool :=
  let magnitude := (Text.digits significand).length + exponent
  significand != 0 && 300 < magnitude &&
    (309 < magnitude ||
      infiniteSize * Power.ofTen (-exponent).toNat ≤ significand * Power.ofTen exponent.toNat)

/-- A number with a fraction or an exponent; a positive one must not be too large. -/
def scanReal : Scan Toml := fun cs => do
  let (negative, cs) := scanSign cs
  let (digits, cs) ← scanWhole cs
  let (fraction, cs) := (scanFraction cs).getD ([], cs)
  let (exponent, after) ← match scanExponent cs with
    | some found => some found
    | none => if fraction.isEmpty then none else some (0, cs)
  if !negative && isInfinite (Text.digitsValue (digits ++ fraction)) (exponent - fraction.length) then
    none
  else some (.real, after)

/-- Infinity or the value that is no number, with an optional sign. -/
def scanSpecial : Scan Toml := fun cs =>
  let (_, cs) := scanSign cs
  ((expect "inf".toList cs).or (expect "nan".toList cs)).map fun rest => (.real, rest)

/-- A whole number of 64 bits. -/
def bounded? (n : Int) : Option Toml :=
  if Text.int64Least ≤ n ∧ n ≤ Text.int64Greatest then some (.whole n) else none

/-- A whole number in base `base`, whose digits have no sign. -/
def scanBased (base : Nat) (cs : List Char) : Option (Toml × List Char) := do
  let isDigit (c : Char) : Bool := (Text.hexValue? c).any fun d => d < base
  let (digits, after) ← scanDigits isDigit cs
  let n := digits.foldl (fun n c => base * n + (Text.hexValue? c).getD 0) 0
  some (← bounded? n, after)

/-- A whole number: hexadecimal, octal, binary, or decimal with an optional sign. -/
def scanInteger : Scan Toml
  | '0' :: 'x' :: rest => scanBased 16 rest
  | '0' :: 'o' :: rest => scanBased 8 rest
  | '0' :: 'b' :: rest => scanBased 2 rest
  | cs => do
    let (negative, cs) := scanSign cs
    let (digits, after) ← scanWhole cs
    let n := Int.ofNat (Text.digitsValue digits)
    some (← bounded? (if negative then -n else n), after)

/-! ## Moments -/

/-- A number of exactly `count` digits that lies between two bounds. -/
def scanField (count least greatest : Nat) : Scan Nat := fun cs =>
  match Text.readDigits? (cs.take count) with
  | none => none
  | some n =>
    if (cs.take count).length = count ∧ least ≤ n ∧ n ≤ greatest then some (n, cs.drop count) else none

/-- The number of days in a month. -/
def monthLength (year month : Nat) : Nat :=
  if month = 2 then
    if year % 4 = 0 ∧ (year % 100 ≠ 0 ∨ year % 400 = 0) then 29 else 28
  else if month = 4 ∨ month = 6 ∨ month = 9 ∨ month = 11 then 30
  else 31

/-- A date; what follows it. -/
def skipDate (cs : List Char) : Option (List Char) := do
  let (year, cs) ← scanField 4 0 9999 cs
  let (month, cs) ← scanField 2 1 12 (← expect ['-'] cs)
  let (_, cs) ← scanField 2 1 (monthLength year month) (← expect ['-'] cs)
  some cs

/-- A time of day, with a fraction of a second if there is one; what follows it. -/
def skipTime (cs : List Char) : Option (List Char) := do
  let (_, cs) ← scanField 2 0 23 cs
  let (_, cs) ← scanField 2 0 59 (← expect [':'] cs)
  let (_, cs) ← scanField 2 0 60 (← expect [':'] cs)
  match cs with
  | '.' :: c :: rest => if c.isDigit then some (rest.dropWhile Char.isDigit) else some cs
  | _ => some cs

/-- The distance from universal time; what follows it. -/
def skipOffset : List Char → Option (List Char)
  | [] => none
  | c :: rest =>
    if c == 'Z' || c == 'z' then some rest
    else if c == '+' || c == '-' then do
      let (_, cs) ← scanField 2 0 23 rest
      let (_, cs) ← scanField 2 0 59 (← expect [':'] cs)
      some cs
    else none

/-- The time and the offset after a date, if they are there. -/
def skipClock (cs : List Char) : List Char :=
  match cs with
  | [] => cs
  | c :: rest =>
    if c == 'T' || c == 't' || c == ' ' then
      match skipTime rest with
      | some after => (skipOffset after).getD after
      | none => cs
    else cs

/-- A date, a time of day, or both. -/
def scanMoment : Scan Toml := fun cs =>
  (((skipDate cs).map skipClock).or (skipTime cs)).map fun rest => (.moment, rest)

/-! ## All of them -/

/-- Any value that is neither an array nor a table. -/
def scanScalar : Scan Toml := fun cs =>
  match cs with
  | [] => none
  | c :: rest =>
    if c == '"' || c == '\'' then (scanText cs).map fun (s, rest) => (.text s, rest)
    else if c == 't' then (expect "rue".toList rest).map fun rest => (.flag true, rest)
    else if c == 'f' then (expect "alse".toList rest).map fun rest => (.flag false, rest)
    else (scanMoment cs).or ((scanReal cs).or ((scanSpecial cs).or (scanInteger cs)))

end SignOff.Toml
