import SignOff.Json.Value
import SignOff.Number.Shortest

/-!
# Writing JSON

The compact form has no white space. The indented form puts every element and member on a line of
its own, two spaces deeper than what holds it. In strings only the quotation mark, the backslash
and the control characters are escaped.
-/

namespace SignOff

/-- How binary numbers are laid out around the decimal point. -/
structure DecimalLayout where
  /-- The least power of ten of the first digit that is written without an exponent. -/
  leastPlain : Int
  /-- The greatest power of ten of the first digit that is written without an exponent. -/
  greatestPlain : Int

namespace Json

/-- Binary numbers are plain from a hundred-thousandth up to below ten to the sixteenth. -/
def numberLayout : DecimalLayout := ⟨-5, 15⟩

/-- The first digit, and the others after a point if there are any. -/
def pointed : List Char → List Char
  | [] => []
  | [d] => [d]
  | d :: rest => d :: '.' :: rest

/-- The exponent with its sign, which is always written. -/
def signedExponent (e : Int) : List Char :=
  (if e < 0 then '-' else '+') :: Text.digits e.natAbs

/-- The digits around the point without an exponent; there is always a fraction. -/
def plainDecimal (x : Decimal) : List Char :=
  if x.point ≤ 0 then '0' :: '.' :: (List.replicate x.point.natAbs '0' ++ x.digits)
  else
    let place := x.point.toNat
    if x.digits.length ≤ place then
      x.digits ++ List.replicate (place - x.digits.length) '0' ++ ['.', '0']
    else x.digits.take place ++ '.' :: x.digits.drop place

/-- A decimal number in the plain or the scientific form. -/
def decimalText (layout : DecimalLayout) (x : Decimal) : List Char :=
  let power := x.point - 1
  if layout.leastPlain ≤ power ∧ power ≤ layout.greatestPlain then plainDecimal x
  else pointed x.digits ++ 'e' :: signedExponent power

/-- A binary number; zero has its sign too. -/
def binaryText (x : Binary64) : List Char :=
  let size := if x.isZero then ['0', '.', '0'] else decimalText numberLayout x.shortest
  if x.negative then '-' :: size else size

/-- A number. -/
def numberText : JsonNumber → List Char
  | .whole n => Text.integerDigits n
  | .binary x => binaryText x

/-- The lower-case hexadecimal digit of a number below sixteen. -/
def hexDigit (n : Nat) : Char := Nat.digitChar n

/-- A character inside a string. -/
def escape (c : Char) : List Char :=
  if c = '"' then ['\\', '"']
  else if c = '\\' then ['\\', '\\']
  else if c = '\x08' then ['\\', 'b']
  else if c = '\x0C' then ['\\', 'f']
  else if c = '\n' then ['\\', 'n']
  else if c = '\r' then ['\\', 'r']
  else if c = '\t' then ['\\', 't']
  else if c.toNat < 0x20 then
    ['\\', 'u', '0', '0', hexDigit (c.toNat / 16), hexDigit (c.toNat % 16)]
  else [c]

/-- A string in quotation marks. -/
def quoted (s : String) : List Char := '"' :: (s.toList.flatMap escape ++ ['"'])

mutual

/-- The compact form of a value. -/
def compact : Json → List Char
  | .null => "null".toList
  | .bool true => "true".toList
  | .bool false => "false".toList
  | .number n => numberText n
  | .string s => quoted s
  | .array items => '[' :: (compactItems items ++ [']'])
  | .object members => '{' :: (compactMembers members ++ ['}'])

/-- The elements of an array with commas between them. -/
def compactItems : List Json → List Char
  | [] => []
  | [item] => compact item
  | item :: rest => compact item ++ ',' :: compactItems rest

/-- The members of an object with commas between them. -/
def compactMembers : List (String × Json) → List Char
  | [] => []
  | [(key, value)] => quoted key ++ ':' :: compact value
  | (key, value) :: rest => quoted key ++ ':' :: (compact value ++ ',' :: compactMembers rest)

end

/-- The compact text of a value. -/
def write (value : Json) : String := String.ofList value.compact

/-- A line break and the indentation of the next line. -/
def newline (depth : Nat) : List Char := '\n' :: List.replicate (2 * depth) ' '

mutual

/-- The indented form of a value that stands `depth` levels deep. -/
def indented (depth : Nat) : Json → List Char
  | .array [] => ['[', ']']
  | .array items => '[' :: (indentedItems (depth + 1) items ++ newline depth ++ [']'])
  | .object [] => ['{', '}']
  | .object members => '{' :: (indentedMembers (depth + 1) members ++ newline depth ++ ['}'])
  | value => compact value

/-- The elements of an array, each on a line of its own. -/
def indentedItems (depth : Nat) : List Json → List Char
  | [] => []
  | [item] => newline depth ++ indented depth item
  | item :: rest => newline depth ++ indented depth item ++ ',' :: indentedItems depth rest

/-- The members of an object, each on a line of its own. -/
def indentedMembers (depth : Nat) : List (String × Json) → List Char
  | [] => []
  | [(key, value)] => newline depth ++ quoted key ++ ':' :: ' ' :: indented depth value
  | (key, value) :: rest =>
    newline depth ++ quoted key ++ ':' :: ' ' :: indented depth value ++
      ',' :: indentedMembers depth rest

end

/-- The indented text of a value. -/
def writeIndented (value : Json) : String := String.ofList (value.indented 0)

end Json

end SignOff
