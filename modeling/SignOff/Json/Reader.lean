import SignOff.Entries
import SignOff.Json.Value
import SignOff.Text.Numeral

/-!
# Reading JSON

A reader takes a value off the front of a text. White space is space, tab, line feed and carriage
return; strings hold no raw control characters and no half of a surrogate pair; containers nest at
most 127 deep. When a key is repeated in an object its first place and its last value stay.

Numbers with a fraction or an exponent, and whole numbers beyond 64 bits, become binary numbers in
two roundings: the digits are collected while they fit in 64 bits, the rest of them only count
places, and the collected number is rounded and then scaled by a power of ten.
-/

namespace SignOff.Json

/-- Why a text cannot be read: it is no JSON text, or a value has another shape than was asked for. -/
inductive Fault where
  | malformed
  | mismatched
deriving DecidableEq, Repr

/-- Takes a value off the front of a text. -/
abbrev Reader (α : Type) := List Char → Except Fault (α × List Char)

/-- The white space of JSON. -/
def isBlank (c : Char) : Bool := c == ' ' || c == '\t' || c == '\n' || c == '\r'

/-- The text without its leading white space. -/
def skipBlank (cs : List Char) : List Char := cs.dropWhile isBlank

/-- What follows a text that has to come next. -/
def expect (text cs : List Char) : Except Fault (List Char) :=
  if text.isPrefixOf cs then .ok (cs.drop text.length) else .error .malformed

/-! ## Strings -/

/-- The 16-bit unit that four hexadecimal digits stand for. -/
def unit? (a b c d : Char) : Option Nat := do
  return (← [a, b, c, d].mapM Text.hexValue?).foldl (fun n digit => 16 * n + digit) 0

/-- The unit is the first half of a surrogate pair. -/
def isLeading (u : Nat) : Bool := 0xD800 ≤ u && u ≤ 0xDBFF

/-- The unit is the second half of a surrogate pair. -/
def isTrailing (u : Nat) : Bool := 0xDC00 ≤ u && u ≤ 0xDFFF

/-- The character of a surrogate pair. -/
def pairChar (leading trailing : Nat) : Char :=
  Char.ofNat ((leading - 0xD800) * 0x400 + (trailing - 0xDC00) + 0x10000)

/-- The character that a letter after a backslash stands for. -/
def escaped? : Char → Option Char
  | '"' => some '"'
  | '\\' => some '\\'
  | '/' => some '/'
  | 'b' => some '\x08'
  | 'f' => some '\x0C'
  | 'n' => some '\n'
  | 'r' => some '\r'
  | 't' => some '\t'
  | _ => none

/-- The characters of a string up to its closing quotation mark, and what follows that. -/
def stringTail : List Char → Except Fault (List Char × List Char)
  | [] => .error .malformed
  | '"' :: rest => .ok ([], rest)
  | '\\' :: 'u' :: a :: b :: c :: d :: rest =>
    match unit? a b c d with
    | none => .error .malformed
    | some u =>
      if isTrailing u then .error .malformed
      else if isLeading u then
        match rest with
        | '\\' :: 'u' :: e :: f :: g :: h :: rest =>
          match unit? e f g h with
          | none => .error .malformed
          | some v =>
            if isTrailing v then do
              let (tail, after) ← stringTail rest
              .ok (pairChar u v :: tail, after)
            else .error .malformed
        | _ => .error .malformed
      else do
        let (tail, after) ← stringTail rest
        .ok (Char.ofNat u :: tail, after)
  | '\\' :: c :: rest =>
    match escaped? c with
    | none => .error .malformed
    | some e => do
      let (tail, after) ← stringTail rest
      .ok (e :: tail, after)
  | c :: rest =>
    if c.toNat < 0x20 || c == '\\' then .error .malformed
    else do
      let (tail, after) ← stringTail rest
      .ok (c :: tail, after)

/-- What follows a string whose value does not matter: halves of surrogate pairs pass. -/
def skipString : List Char → Except Fault (List Char)
  | [] => .error .malformed
  | '"' :: rest => .ok rest
  | '\\' :: 'u' :: a :: b :: c :: d :: rest =>
    if (unit? a b c d).isSome then skipString rest else .error .malformed
  | '\\' :: c :: rest => if (escaped? c).isSome then skipString rest else .error .malformed
  | c :: rest => if c.toNat < 0x20 || c == '\\' then .error .malformed else skipString rest

/-! ## Numbers -/

/-- A number as it is written. -/
structure Numeral where
  negative : Bool
  whole : List Char
  /-- The digits after the point; empty when there is no point. -/
  fraction : List Char
  exponent : Option Int
deriving DecidableEq, Repr

/-- One or more digits, and what follows them. -/
def takeDigits (cs : List Char) : Except Fault (List Char × List Char) :=
  let ds := cs.takeWhile Char.isDigit
  if ds.isEmpty then .error .malformed else .ok (ds, cs.dropWhile Char.isDigit)

/-- The whole part; a zero is not followed by another digit. -/
def takeWhole (cs : List Char) : Except Fault (List Char × List Char) := do
  let (ds, rest) ← takeDigits cs
  match ds with
  | '0' :: _ :: _ => .error .malformed
  | _ => .ok (ds, rest)

/-- The fraction, if a point comes next. -/
def takeFraction : List Char → Except Fault (List Char × List Char)
  | '.' :: rest => takeDigits rest
  | rest => .ok ([], rest)

/-- The digits of an exponent with its optional sign. -/
def takeSigned : List Char → Except Fault (Int × List Char)
  | '-' :: rest => do
    let (ds, rest) ← takeDigits rest
    .ok (-Int.ofNat (Text.digitsValue ds), rest)
  | '+' :: rest => do
    let (ds, rest) ← takeDigits rest
    .ok (Int.ofNat (Text.digitsValue ds), rest)
  | rest => do
    let (ds, rest) ← takeDigits rest
    .ok (Int.ofNat (Text.digitsValue ds), rest)

/-- The exponent, if its letter comes next. -/
def takeExponent : List Char → Except Fault (Option Int × List Char)
  | c :: rest =>
    if c == 'e' || c == 'E' then do
      let (e, rest) ← takeSigned rest
      .ok (some e, rest)
    else .ok (none, c :: rest)
  | [] => .ok (none, [])

/-- A number as it is written, without looking at its size. -/
def readNumeral : Reader Numeral := fun cs => do
  let (negative, cs) := match cs with
    | '-' :: rest => (true, rest)
    | _ => (false, cs)
  let (whole, cs) ← takeWhole cs
  let (fraction, cs) ← takeFraction cs
  let (exponent, cs) ← takeExponent cs
  .ok (⟨negative, whole, fraction, exponent⟩, cs)

/-- Adds digits to a number while it fits in 64 bits; the second part counts the digits left out. -/
def collectDigits (n : Nat) : List Char → Nat × Nat
  | [] => (n, 0)
  | c :: rest =>
    let next := 10 * n + (c.toNat - '0'.toNat)
    if next ≤ Text.nat64Greatest then collectDigits next rest else (n, rest.length + 1)

/-- The binary number of a numeral, unless it is too large. -/
def Numeral.binary? (x : Numeral) : Option Binary64 := do
  let (whole, dropped) := collectDigits 0 x.whole
  let (significand, unused) := collectDigits whole x.fraction
  let places : Int := x.fraction.length - unused
  let size ← Binary64.ofDecimal? significand (dropped - places + x.exponent.getD 0)
  return if x.negative then size.negate else size

/-- The number that a numeral stands for: exact if it is a whole number of 64 bits. -/
def Numeral.value? (x : Numeral) : Option JsonNumber :=
  let n := Text.digitsValue x.whole
  if x.fraction.isEmpty && x.exponent.isNone && !x.negative && n ≤ Text.nat64Greatest then
    some (.whole n)
  else if x.fraction.isEmpty && x.exponent.isNone && x.negative && n != 0 &&
      Text.int64Least ≤ -Int.ofNat n then
    some (.whole (-Int.ofNat n))
  else x.binary?.map .binary

/-- A number; one beyond the range of binary numbers is refused. -/
def readNumber : Reader JsonNumber := fun cs => do
  let (numeral, rest) ← readNumeral cs
  match numeral.value? with
  | some n => .ok (n, rest)
  | none => .error .malformed

/-! ## Values -/

/-- The number of containers that may be open at once. -/
def greatestDepth : Nat := 127

/-- The fuel that suffices for a text: two steps for every character. -/
def fuelFor (cs : List Char) : Nat := 2 * cs.length + 2

/-- A key, its colon, and what follows. -/
def readKey (cs : List Char) : Except Fault (String × List Char) :=
  match skipBlank cs with
  | '"' :: rest => do
    let (key, rest) ← stringTail rest
    .ok (String.ofList key, rest)
  | _ => .error .malformed

/-- What follows the colon between a key and its value. -/
def skipColon (cs : List Char) : Except Fault (List Char) := expect [':'] (skipBlank cs)

mutual

/-- A value with at most `depth` containers open inside each other. -/
def readValue : Nat → Nat → Reader Json
  | 0, _, _ => .error .malformed
  | fuel + 1, depth, cs =>
    match skipBlank cs with
    | [] => .error .malformed
    | c :: rest =>
      if c = '"' then do
        let (s, rest) ← stringTail rest
        .ok (.string (String.ofList s), rest)
      else if c = '[' then
        if depth = 0 then .error .malformed
        else match skipBlank rest with
          | ']' :: rest => .ok (.array [], rest)
          | rest => do
            let (items, rest) ← readItems fuel (depth - 1) rest
            .ok (.array items, rest)
      else if c = '{' then
        if depth = 0 then .error .malformed
        else match skipBlank rest with
          | '}' :: rest => .ok (.object [], rest)
          | rest => do
            let (members, rest) ← readMembers fuel (depth - 1) [] rest
            .ok (.object members, rest)
      else if c = 'n' then do .ok (.null, ← expect "ull".toList rest)
      else if c = 't' then do .ok (.bool true, ← expect "rue".toList rest)
      else if c = 'f' then do .ok (.bool false, ← expect "alse".toList rest)
      else if c = '-' || c.isDigit then do
        let (n, rest) ← readNumber (c :: rest)
        .ok (.number n, rest)
      else .error .malformed

/-- The elements of an array up to its closing bracket. -/
def readItems : Nat → Nat → Reader (List Json)
  | 0, _, _ => .error .malformed
  | fuel + 1, depth, cs => do
    let (item, rest) ← readValue fuel depth cs
    match skipBlank rest with
    | ',' :: rest => do
      let (items, rest) ← readItems fuel depth rest
      .ok (item :: items, rest)
    | ']' :: rest => .ok ([item], rest)
    | _ => .error .malformed

/-- The members of an object up to its closing brace, set one after another into `members`. -/
def readMembers : Nat → Nat → List (String × Json) → Reader (List (String × Json))
  | 0, _, _, _ => .error .malformed
  | fuel + 1, depth, members, cs => do
    let (key, rest) ← readKey cs
    let (value, rest) ← readValue fuel depth (← skipColon rest)
    let members := Entries.put key value members
    match skipBlank rest with
    | ',' :: rest => readMembers fuel depth members rest
    | '}' :: rest => .ok (members, rest)
    | _ => .error .malformed

end

mutual

/-- What follows a value that is JSON in form, of any depth and with numbers of any size. -/
def skipValue : Nat → List Char → Except Fault (List Char)
  | 0, _ => .error .malformed
  | fuel + 1, cs =>
    match skipBlank cs with
    | [] => .error .malformed
    | c :: rest =>
      if c = '"' then skipString rest
      else if c = '[' then
        match skipBlank rest with
        | ']' :: rest => .ok rest
        | rest => skipItems fuel rest
      else if c = '{' then
        match skipBlank rest with
        | '}' :: rest => .ok rest
        | rest => skipMembers fuel rest
      else if c = 'n' then expect "ull".toList rest
      else if c = 't' then expect "rue".toList rest
      else if c = 'f' then expect "alse".toList rest
      else if c = '-' || c.isDigit then (readNumeral (c :: rest)).map Prod.snd
      else .error .malformed

/-- What follows the elements and the closing bracket of an array. -/
def skipItems : Nat → List Char → Except Fault (List Char)
  | 0, _ => .error .malformed
  | fuel + 1, cs => do
    match skipBlank (← skipValue fuel cs) with
    | ',' :: rest => skipItems fuel rest
    | ']' :: rest => .ok rest
    | _ => .error .malformed

/-- What follows the members and the closing brace of an object. -/
def skipMembers : Nat → List Char → Except Fault (List Char)
  | 0, _ => .error .malformed
  | fuel + 1, cs =>
    match skipBlank cs with
    | '"' :: rest => do
      let rest ← skipColon (← skipString rest)
      match skipBlank (← skipValue fuel rest) with
      | ',' :: rest => skipMembers fuel rest
      | '}' :: rest => .ok rest
      | _ => .error .malformed
    | _ => .error .malformed

end

/-- The value of a text that holds one value and white space around it. -/
def readWith {α : Type} (reader : Reader α) (cs : List Char) : Except Fault α := do
  let (value, rest) ← reader cs
  match skipBlank rest with
  | [] => .ok value
  | _ :: _ => .error .malformed

/-- A JSON text as a value. -/
def read (s : String) : Except Fault Json :=
  readWith (readValue (fuelFor s.toList) greatestDepth) s.toList

end SignOff.Json
