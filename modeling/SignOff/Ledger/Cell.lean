import SignOff.Number.Power
import SignOff.Text.Numeral

/-!
# Cells of number columns

A column for whole numbers takes any value and keeps what it can as a whole number: a text that is
the numeral of one becomes that number. A numeral with a fraction or an exponent that leaves one, or
of a number out of range, is kept as a fractional number, every other text as it is. Values of raw bytes,
which such a column would take as well, are left out.
-/

namespace SignOff

/-- What stands in a column for whole numbers. -/
inductive Cell where
  | whole (n : Int)
  /-- A number that is not whole or not in range, as it was written. -/
  | fractional (numeral : String)
  | text (s : String)
deriving DecidableEq, Repr

namespace Cell

/-- A numeral `(-1)^negative * significand * 10^exponent`. -/
structure Numeral where
  negative : Bool
  significand : Nat
  exponent : Int
deriving DecidableEq, Repr

/-- White space that may surround a numeral in a column. -/
def isGap (c : Char) : Bool := c == ' ' || ('\t' ≤ c && c ≤ '\r')

/-- The exponent after the letter `e`, with an optional sign. -/
def exponentOf? : List Char → Option Int
  | [] => some 0
  | c :: rest => if c == 'e' || c == 'E' then Text.readInt? (-10000) 10000 rest else none

/-- The numeral without its sign. -/
def unsignedOf? (negative : Bool) (cs : List Char) : Option Numeral :=
  let before := cs.takeWhile Char.isDigit
  match cs.dropWhile Char.isDigit with
  | '.' :: rest =>
    let after := rest.takeWhile Char.isDigit
    if before.isEmpty && after.isEmpty then none
    else (exponentOf? (rest.dropWhile Char.isDigit)).map fun e =>
      ⟨negative, Text.digitsValue (before ++ after), e - after.length⟩
  | rest =>
    if before.isEmpty then none
    else (exponentOf? rest).map fun e => ⟨negative, Text.digitsValue before, e⟩

/-- The numeral that a text is, apart from white space around it. -/
def numeral? (s : String) : Option Numeral :=
  let cs := (s.toList.dropWhile isGap).reverse.dropWhile isGap
  match cs.reverse with
  | '-' :: rest => unsignedOf? true rest
  | '+' :: rest => unsignedOf? false rest
  | rest => unsignedOf? false rest

/-- The size of a numeral, if that is a whole number. -/
def Numeral.size? (x : Numeral) : Option Nat :=
  let scale := Power.ofTen x.exponent.natAbs
  if 0 ≤ x.exponent then some (x.significand * scale)
  else if x.significand % scale = 0 then some (x.significand / scale)
  else none

/-- The whole number of 64 bits that a numeral stands for. -/
def Numeral.whole? (x : Numeral) : Option Int :=
  let value := x.size?.map fun n => if x.negative then -Int.ofNat n else Int.ofNat n
  value.filter fun n => Text.int64Least ≤ n && n ≤ Text.int64Greatest

/-- What a column for whole numbers makes of a text. -/
def ofText (s : String) : Cell :=
  match numeral? s with
  | none => .text s
  | some x =>
    match x.whole? with
    | some n => .whole n
    | none => .fractional s

/-- The name of the kind of value that stands in the cell. -/
def typeName : Cell → String
  | .whole _ => "INTEGER"
  | .fractional _ => "REAL"
  | .text _ => "TEXT"

/-- The value is at least one, where every text comes after every number. -/
def isPositive : Cell → Bool
  | .whole n => 1 ≤ n
  | .fractional s =>
    (numeral? s).any fun x =>
      !x.negative &&
        Power.ofTen (-x.exponent).toNat ≤ x.significand * Power.ofTen x.exponent.toNat
  | .text _ => true

/-- The numeral of a number in a cell. -/
def number? : Cell → Option Numeral
  | .whole n => some ⟨n < 0, n.natAbs, 0⟩
  | .fractional s => numeral? s
  | .text _ => none

/-- The numeral as a multiple of ten to the power `least`, which is not above its exponent. -/
def Numeral.scaled (x : Numeral) (least : Int) : Int :=
  let size : Int := x.significand * Power.ofTen (x.exponent - least).toNat
  if x.negative then -size else size

/-- The number is not greater than another one. -/
def Numeral.atMost (x y : Numeral) : Bool :=
  let least := min x.exponent y.exponent
  x.scaled least ≤ y.scaled least

/-- The order of cells: numbers by their size, then texts. -/
def precedes (a b : Cell) : Bool :=
  match a, b with
  | .whole m, .whole n => m ≤ n
  | .text s, .text t => s ≤ t
  | _, _ =>
    match a.number?, b.number? with
    | some x, some y => x.atMost y
    | _, none => true
    | none, _ => false

end Cell

end SignOff
