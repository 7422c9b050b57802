import SignOff.Number.Binary64
import SignOff.Text.Numeral

/-!
# The fewest digits that read back

A binary number stands for the interval of reals that round to it; the ends belong to the interval
when the significand is even. Of the decimals in the interval those with the fewest digits are
taken, and of these the one nearest to the number. The search tries coarser decimal grids first, and
on each grid only the two neighbours of the number, since no other point of it can be nearer.
-/

namespace SignOff

/-- A positive decimal number `0.d₁d₂… * 10^point`, its digits without leading or trailing zeros. -/
structure Decimal where
  digits : List Char
  point : Int
deriving DecidableEq, Repr

namespace Binary64

/-- The halfway points to the neighbours, in units of a quarter of the last place. -/
def lowerEnd (x : Binary64) : Nat :=
  if x.significand == fullSignificand && x.exponent != leastExponent then 4 * x.significand - 1
  else 4 * x.significand - 2

/-- The halfway point to the next larger number, in quarters of the last place. -/
def upperEnd (x : Binary64) : Nat := 4 * x.significand + 2

/-- A number of quarters of the last place, in units of a grid of powers of ten, as a numerator. -/
def gridNum (x : Binary64) (power : Int) (quarters : Nat) : Nat :=
  quarters * Power.ofTwo (x.exponent - 2).toNat * Power.ofTen (-power).toNat

/-- The denominator that belongs to `gridNum`. -/
def gridDen (x : Binary64) (power : Int) : Nat :=
  Power.ofTwo (-(x.exponent - 2)).toNat * Power.ofTen power.toNat

/-- The multiple `c` of ten to the power reads back as the number. -/
def readsBack (x : Binary64) (power : Int) (c : Nat) : Bool :=
  let low := x.gridNum power x.lowerEnd
  let high := x.gridNum power x.upperEnd
  let here := c * x.gridDen power
  if x.significand % 2 == 0 then low ≤ here && here ≤ high else low < here && here < high

/-- The multiple of ten to the power that reads back and is nearest to the number, if there is one. -/
def onGrid? (x : Binary64) (power : Int) : Option Nat :=
  let value := x.gridNum power (4 * x.significand)
  let below := value / x.gridDen power
  match x.readsBack power below, x.readsBack power (below + 1) with
  | false, false => none
  | true, false => some below
  | false, true => some (below + 1)
  | true, true =>
    if 2 * value < (2 * below + 1) * x.gridDen power then some below
    else if 2 * value == (2 * below + 1) * x.gridDen power && below % 2 == 0 then some below
    else some (below + 1)

/-- The least `k` with `num < 10^k * den`, found among `tries` values from `k` on. -/
def scaleFrom (num den : Nat) : Nat → Nat → Nat
  | 0, k => k
  | tries + 1, k => if num < Power.ofTen k * den then k else scaleFrom num den tries (k + 1)

/-- The most decimal places that a number has before or after the point. -/
def widest : Nat := 330

/-- The least power of ten above the number. -/
def scale (x : Binary64) : Int :=
  (scaleFrom (x.num * Power.ofTen widest) x.den (2 * widest) 0 : Int) - widest

/-- The first grid, from the power `top` downwards, with a multiple that reads back. -/
def search (x : Binary64) (top : Int) : Nat → Option (Nat × Int)
  | 0 => none
  | tries + 1 =>
    match x.onGrid? top with
    | some c => some (c, top)
    | none => search x (top - 1) tries

/-- The digits without their trailing zeros. -/
def stripZeros (ds : List Char) : List Char := (ds.reverse.dropWhile (· == '0')).reverse

/-- The shortest decimal that reads back as a number that is not zero. -/
def shortest (x : Binary64) : Decimal :=
  match x.search (x.scale - 1) 17 with
  | some (c, power) =>
    let ds := Text.digits c
    ⟨stripZeros ds, power + ds.length⟩
  | none =>
    let ds := Text.digits (x.num * Power.ofTen (-x.exponent).toNat / x.den)
    ⟨stripZeros ds, (ds.length : Int) - (-x.exponent).toNat⟩

end Binary64

end SignOff
