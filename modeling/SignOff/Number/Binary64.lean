import SignOff.Number.Power

/-!
# Binary numbers of double precision

The finite numbers with a significand of 53 bits and the exponent range of double precision, held
exactly as sign, significand and power of two. Multiplication and division round to the nearest such
number, a tie going to the even significand. A result beyond the largest finite number is refused;
one below the smallest becomes zero. There are no infinities and no signals.
-/

namespace SignOff

/-- The number `(-1)^negative * significand * 2^exponent`. -/
structure Binary64 where
  negative : Bool
  significand : Nat
  exponent : Int
deriving DecidableEq, Repr

namespace Binary64

/-- The exponent of the smallest positive number. -/
def leastExponent : Int := -1074

/-- The largest exponent of a full significand. -/
def greatestExponent : Int := 971

/-- The least significand that uses all 53 bits. -/
def fullSignificand : Nat := Power.ofTwo 52

/-- The numerator of `num * 2^(-exponent)` over `den`, both kept whole. -/
def scaledNum (num : Nat) (exponent : Int) : Nat := num * Power.ofTwo (-exponent).toNat

/-- The denominator of `num / (den * 2^exponent)`. -/
def scaledDen (den : Nat) (exponent : Int) : Nat := den * Power.ofTwo exponent.toNat

/-- The quotient rounded to the nearest whole number, a tie going to the even one. -/
def roundDiv (num den : Nat) : Nat :=
  let low := num / den
  let twice := 2 * (num % den)
  if twice < den || (twice == den && low % 2 == 0) then low else low + 1

/-- The exponent at which the quotient of `num` and `den` has a full significand. -/
def quotientExponent (num den : Nat) : Int :=
  let guess : Int := (num.log2 : Int) - den.log2 - 53
  let exponent :=
    if scaledNum num guess / scaledDen den guess < 2 * fullSignificand then guess else guess + 1
  max exponent leastExponent

/-- The number nearest to `num / den`, unless it is too large. -/
def ofRatio? (negative : Bool) (num den : Nat) : Option Binary64 :=
  if num == 0 then some ⟨negative, 0, leastExponent⟩
  else
    let exponent := quotientExponent num den
    let rounded := roundDiv (scaledNum num exponent) (scaledDen den exponent)
    let number : Binary64 :=
      if rounded == 2 * fullSignificand then ⟨negative, fullSignificand, exponent + 1⟩
      else ⟨negative, rounded, exponent⟩
    if number.exponent ≤ greatestExponent then some number else none

/-- The number nearest to a natural number. -/
def ofNat? (n : Nat) : Option Binary64 := ofRatio? false n 1

/-- The numerator of the number's size. -/
def num (x : Binary64) : Nat := x.significand * Power.ofTwo x.exponent.toNat

/-- The denominator of the number's size. -/
def den (x : Binary64) : Nat := Power.ofTwo (-x.exponent).toNat

/-- The number is zero, of either sign. -/
def isZero (x : Binary64) : Bool := x.significand == 0

/-- The number with the other sign. -/
def negate (x : Binary64) : Binary64 := { x with negative := !x.negative }

/-- The rounded product, unless it is too large. -/
def mul? (x y : Binary64) : Option Binary64 :=
  ofRatio? (x.negative != y.negative) (x.num * y.num) (x.den * y.den)

/-- The rounded quotient by a number that is not zero, unless it is too large. -/
def div? (x y : Binary64) : Option Binary64 :=
  ofRatio? (x.negative != y.negative) (x.num * y.den) (x.den * y.num)

/-- The largest power of ten that is a finite number. -/
def greatestPower : Nat := 308

/-- The number nearest to a power of ten. -/
def powerOfTen? (k : Nat) : Option Binary64 := ofNat? (Power.ofTen k)

/-- The number divided by ten to the power `k`, in steps of the largest finite power.

Every step rounds, and a number that has reached zero stays there; after the last step nothing of a
significand of 64 bits is left. -/
def shrink? (steps : Nat) (x : Binary64) (k : Nat) : Option Binary64 :=
  match steps with
  | 0 => some { x with significand := 0, exponent := leastExponent }
  | steps + 1 =>
    if k ≤ greatestPower then (powerOfTen? k).bind x.div?
    else if x.isZero then some x
    else do shrink? steps (← x.div? (← powerOfTen? greatestPower)) (k - greatestPower)

/-- The number of steps that suffices for a significand of 64 bits: each takes 308 decimal places. -/
def shrinkSteps : Nat := 3

/-- The significand rounded and then scaled by a power of ten, rounding again. -/
def ofDecimal? (significand : Nat) (exponent : Int) : Option Binary64 := do
  let x ← ofNat? significand
  if exponent < 0 then shrink? shrinkSteps x exponent.natAbs
  else if exponent.natAbs ≤ greatestPower then x.mul? (← powerOfTen? exponent.natAbs)
  else if x.isZero then some x
  else none

end Binary64

end SignOff
