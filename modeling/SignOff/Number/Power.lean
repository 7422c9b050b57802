/-!
# Powers of two and of ten

The two bases that numbers are written in. Exponents are natural numbers; what has a negative one takes
the power in its denominator.
-/

namespace SignOff.Power

/-- Two to the power `k`. -/
def ofTwo (k : Nat) : Nat := Nat.pow 2 k

/-- Ten to the power `k`. -/
def ofTen (k : Nat) : Nat := Nat.pow 10 k

@[simp] theorem ofTwo_zero : ofTwo 0 = 1 := rfl

@[simp] theorem ofTen_zero : ofTen 0 = 1 := rfl

/-- Powers of two are positive. -/
theorem ofTwo_pos (k : Nat) : 0 < ofTwo k := Nat.pow_pos (by decide)

/-- Powers of ten are positive. -/
theorem ofTen_pos (k : Nat) : 0 < ofTen k := Nat.pow_pos (by decide)

end SignOff.Power
