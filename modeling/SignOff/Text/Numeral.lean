import SignOff.Text.Blank

/-!
# Decimal numerals

Whole numbers as they are written in settings, query strings and stored rows: ASCII digits with an
optional sign. A numeral outside the range it is read for is refused, and so is anything around it:
white space, digit separators and digits of other scripts.
-/

namespace SignOff.Text

/-- The digits of a natural number, most significant first and without leading zeros. -/
def digits (n : Nat) : List Char := Nat.toDigits 10 n

/-- The digits of an integer after a minus sign where it is negative. -/
def integerDigits (n : Int) : List Char :=
  if n < 0 then '-' :: digits n.natAbs else digits n.natAbs

/-- A natural number in decimal. -/
def decimal (n : Nat) : String := String.ofList (digits n)

/-- An integer in decimal. -/
def integerDecimal (n : Int) : String := String.ofList (integerDigits n)

/-- The number that a run of digits stands for. -/
def digitsValue (cs : List Char) : Nat := Nat.ofDigitChars 10 cs 0

/-- The value of a text that is one or more digits and nothing else. -/
def readDigits? (cs : List Char) : Option Nat :=
  if !cs.isEmpty && cs.all Char.isDigit then some (digitsValue cs) else none

/-- The value of a hexadecimal digit of either case. -/
def hexValue? (c : Char) : Option Nat :=
  if '0' ≤ c ∧ c ≤ '9' then some (c.toNat - '0'.toNat)
  else if 'a' ≤ c ∧ c ≤ 'f' then some (c.toNat - 'a'.toNat + 10)
  else if 'A' ≤ c ∧ c ≤ 'F' then some (c.toNat - 'A'.toNat + 10)
  else none

/-- A natural number up to `limit`, with an optional plus sign. -/
def readNat? (limit : Nat) (cs : List Char) : Option Nat :=
  let value := match cs with
    | '+' :: rest => readDigits? rest
    | _ => readDigits? cs
  value.filter (· ≤ limit)

/-- An integer from `least` to `greatest`, with an optional sign. -/
def readInt? (least greatest : Int) (cs : List Char) : Option Int :=
  let value : Option Int := match cs with
    | '+' :: rest => (readDigits? rest).map Int.ofNat
    | '-' :: rest => (readDigits? rest).map fun n => -Int.ofNat n
    | _ => (readDigits? cs).map Int.ofNat
  value.filter fun n => least ≤ n && n ≤ greatest

/-- The numeral `n` written in at least `width` characters, filled up on the left. -/
def padLeft (fill : Char) (width : Nat) (cs : List Char) : List Char :=
  List.replicate (width - cs.length) fill ++ cs

/-- The least and greatest integers of 64 bits with a sign. -/
def int64Least : Int := -9223372036854775808

/-- The greatest integer of 64 bits with a sign. -/
def int64Greatest : Int := 9223372036854775807

/-- The greatest number of 64 bits without a sign. -/
def nat64Greatest : Nat := 18446744073709551615

/-- The greatest number of 32 bits without a sign. -/
def nat32Greatest : Nat := 4294967295

/-- The digits of a number are digits. -/
theorem digits_isDigit {n : Nat} {c : Char} (h : c ∈ digits n) : c.isDigit = true :=
  Nat.isDigit_of_mem_toDigits (by decide) (by decide) h

/-- Every number has a digit. -/
theorem digits_ne_nil (n : Nat) : digits n ≠ [] := Nat.toDigits_ne_nil

/-- The digits of a number stand for it. -/
theorem digitsValue_digits (n : Nat) : digitsValue (digits n) = n :=
  Nat.ofDigitChars_toDigits (by decide) (by decide)

end SignOff.Text
