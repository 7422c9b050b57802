import SignOff.Number.Binary64

/-!
# JSON values

The values of JSON texts. Members of an object keep the order in which they were first written.
Whole numbers of 64 bits are exact, all others are binary numbers of double precision.
-/

namespace SignOff

/-- A JSON number. -/
inductive JsonNumber where
  | whole (n : Int)
  | binary (x : Binary64)
deriving DecidableEq, Repr

/-- A JSON value. -/
inductive Json where
  | null
  | bool (b : Bool)
  | number (n : JsonNumber)
  | string (s : String)
  | array (items : List Json)
  | object (members : List (String × Json))
deriving Repr

namespace Json

/-- The value of the member `key`. -/
def member? (key : String) (members : List (String × Json)) : Option Json := members.lookup key

/-- The text of a string value. -/
def text? : Json → Option String
  | .string s => some s
  | _ => none

/-- A whole number as a value. -/
def ofInt (n : Int) : Json := .number (.whole n)

/-- A natural number as a value. -/
def ofNat (n : Nat) : Json := .number (.whole n)

/-- A text that may be missing, null where it is. -/
def ofText? : Option String → Json
  | none => .null
  | some s => .string s

/-- A whole number that may be missing, null where it is. -/
def ofInt? : Option Int → Json
  | none => .null
  | some n => ofInt n

end Json

end SignOff
