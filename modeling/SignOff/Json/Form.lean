import SignOff.Calendar.DateText
import SignOff.Json.Reader

/-!
# Typed forms of JSON texts

Readers for texts whose shape is known in advance. They go through a text from left to right and
stop at the first fault, so a value of the wrong shape wins over a malformed rest and the other way
round, whichever comes first.

A record is an object with known members, or an array of its fields in order. Unknown members only
have to be JSON in form. A known member given twice is a mismatch even if its second value is fine.
-/

namespace SignOff.Json

/-- The fault of a value that has another shape than was asked for. -/
def shapeFault (cs : List Char) : Fault :=
  let judge {α : Type} : Except Fault α → Fault
    | .ok _ => .mismatched
    | .error fault => fault
  match cs with
  | '"' :: rest => judge (stringTail rest)
  | '[' :: _ => .mismatched
  | '{' :: _ => .mismatched
  | 'n' :: rest => judge (expect "ull".toList rest)
  | 't' :: rest => judge (expect "rue".toList rest)
  | 'f' :: rest => judge (expect "alse".toList rest)
  | c :: rest => if c = '-' || c.isDigit then judge (readNumber (c :: rest)) else .malformed
  | [] => .malformed

/-! ## Simple values -/

/-- A string. -/
def readString : Reader String := fun cs =>
  match skipBlank cs with
  | '"' :: rest => do
    let (s, rest) ← stringTail rest
    .ok (String.ofList s, rest)
  | rest => .error (shapeFault rest)

/-- A truth value. -/
def readBool : Reader Bool := fun cs =>
  match skipBlank cs with
  | 't' :: rest => do .ok (true, ← expect "rue".toList rest)
  | 'f' :: rest => do .ok (false, ← expect "alse".toList rest)
  | rest => .error (shapeFault rest)

/-- A whole number from `least` to `greatest`; a number with a fraction or exponent is none. -/
def readInteger (least greatest : Int) : Reader Int := fun cs =>
  match skipBlank cs with
  | c :: rest =>
    if c = '-' || c.isDigit then do
      let (n, rest) ← readNumber (c :: rest)
      match n with
      | .whole n => if least ≤ n ∧ n ≤ greatest then .ok (n, rest) else .error .mismatched
      | .binary _ => .error .mismatched
    else .error (shapeFault (c :: rest))
  | [] => .error .malformed

/-- A natural number up to `greatest`. -/
def readNatural (greatest : Nat) : Reader Nat := fun cs => do
  let (n, rest) ← readInteger 0 greatest cs
  .ok (n.toNat, rest)

/-- A value that may be null. -/
def readOptional {α : Type} (reader : Reader α) : Reader (Option α) := fun cs =>
  match skipBlank cs with
  | 'n' :: rest => do .ok (none, ← expect "ull".toList rest)
  | rest => do
    let (value, rest) ← reader rest
    .ok (some value, rest)

/-- A text that `parse?` understands. -/
def readText {α : Type} (parse? : String → Option α) : Reader α := fun cs => do
  let (s, rest) ← readString cs
  match parse? s with
  | some value => .ok (value, rest)
  | none => .error .mismatched

/-- A date in the free spelling. -/
def readDate : Reader Date := readText fun s => (Date.read s).toOption

/-- One of several names, alone or as the only key of an object whose value is null. -/
def readName {α : Type} (parse? : String → Option α) : Reader α := fun cs =>
  match skipBlank cs with
  | '"' :: _ => readText parse? (skipBlank cs)
  | '{' :: rest => do
    let (value, rest) ← readText parse? rest
    match skipBlank (← skipColon rest) with
    | 'n' :: rest =>
      match skipBlank (← expect "ull".toList rest) with
      | '}' :: rest => .ok (value, rest)
      | _ => .error .malformed
    | rest => .error (shapeFault rest)
  | _ => .error .malformed

/-! ## Elements of arrays -/

/-- The place of the next element of an array, or nothing before the closing bracket. -/
def nextElement? (first : Bool) (cs : List Char) : Except Fault (Option (List Char)) :=
  match skipBlank cs with
  | [] => .error .malformed
  | ']' :: _ => .ok none
  | c :: rest =>
    if first then .ok (some (c :: rest))
    else if c = ',' then
      match skipBlank rest with
      | [] => .error .malformed
      | ']' :: _ => .error .malformed
      | rest => .ok (some rest)
    else .error .malformed

/-- The elements of an array up to its closing bracket. -/
def readElements {α : Type} (reader : Reader α) : Nat → Bool → Reader (List α)
  | 0, _, _ => .error .malformed
  | fuel + 1, first, cs => do
    match ← nextElement? first cs with
    | none => .ok ([], ← expect [']'] (skipBlank cs))
    | some cs => do
      let (item, rest) ← reader cs
      let (items, rest) ← readElements reader fuel false rest
      .ok (item :: items, rest)

/-- An array whose elements all have one shape. -/
def readList {α : Type} (reader : Reader α) : Reader (List α) := fun cs =>
  match skipBlank cs with
  | '[' :: rest => readElements reader (fuelFor rest) true rest
  | rest => .error (shapeFault rest)

/-! ## Records -/

/-- A field of a record. -/
structure Field (α : Type) where
  name : String
  read : Reader α
  /-- The value when an object has no such member. -/
  absent : Option α
  /-- The value when an array ends before the field. -/
  short : Option α

/-- The fields of a record, in the order of its array form. -/
inductive Fields : List Type → Type 1 where
  | nil : Fields []
  | cons {α : Type} {rest : List Type} : Field α → Fields rest → Fields (α :: rest)

/-- A value for each field. -/
def Row : List Type → Type
  | [] => Unit
  | α :: rest => α × Row rest

/-- A value for each field that has been read so far. -/
def Slots : List Type → Type
  | [] => Unit
  | α :: rest => Option α × Slots rest

namespace Fields

/-- No field has been read. -/
def empty : {types : List Type} → Fields types → Slots types
  | _, .nil => ()
  | _, .cons _ rest => (none, rest.empty)

/-- Reads colon and value of the member `key` into its slot; an unknown member is passed over. -/
def readMember : {types : List Type} → Fields types → String → Slots types → Reader (Slots types)
  | _, .nil, _, slots, cs => do
    let cs ← skipColon cs
    .ok (slots, ← skipValue (fuelFor cs) cs)
  | _, .cons field rest, key, (slot, slots), cs =>
    if key = field.name then
      match slot with
      | some _ => .error .mismatched
      | none => do
        let (value, cs) ← field.read (← skipColon cs)
        .ok ((some value, slots), cs)
    else do
      let (slots, cs) ← rest.readMember key slots cs
      .ok ((slot, slots), cs)

/-- The row of an object whose members have all been read. -/
def complete : {types : List Type} → Fields types → Slots types → Except Fault (Row types)
  | _, .nil, _ => .ok ()
  | _, .cons field rest, (slot, slots) =>
    match slot <|> field.absent with
    | none => .error .mismatched
    | some value => do .ok (value, ← rest.complete slots)

/-- The row of an object up to its closing brace. -/
def readObject {types : List Type} (fields : Fields types) :
    Nat → Bool → Slots types → Reader (Row types)
  | 0, _, _, _ => .error .malformed
  | fuel + 1, first, slots, cs => do
    let member (rest : List Char) : Except Fault (Row types × List Char) := do
      let (key, rest) ← stringTail rest
      let (slots, rest) ← fields.readMember (String.ofList key) slots rest
      readObject fields fuel false slots rest
    match skipBlank cs with
    | '}' :: rest => .ok (← fields.complete slots, rest)
    | '"' :: rest => if first then member rest else .error .malformed
    | ',' :: rest =>
      if first then .error .malformed
      else match skipBlank rest with
        | '"' :: rest => member rest
        | _ => .error .malformed
    | _ => .error .malformed

/-- The row of an array up to its closing bracket. -/
def readArray : {types : List Type} → Fields types → Bool → Reader (Row types)
  | _, .nil, _, cs => do .ok ((), ← expect [']'] (skipBlank cs))
  | _, .cons field rest, first, cs => do
    match ← nextElement? first cs with
    | none =>
      match field.short with
      | none => .error .mismatched
      | some value => do
        let (values, cs) ← rest.readArray first cs
        .ok ((value, values), cs)
    | some cs => do
      let (value, cs) ← field.read cs
      let (values, cs) ← rest.readArray false cs
      .ok ((value, values), cs)

end Fields

/-- A record in its object or array form. -/
def readRecord {types : List Type} {α : Type} (fields : Fields types) (build : Row types → α) :
    Reader α := fun cs =>
  match skipBlank cs with
  | '{' :: rest => do
    let (row, rest) ← fields.readObject (fuelFor rest) true fields.empty rest
    .ok (build row, rest)
  | '[' :: rest => do
    let (row, rest) ← fields.readArray true rest
    .ok (build row, rest)
  | rest => .error (shapeFault rest)

/-- A field that has to be there. -/
def required {α : Type} (name : String) (read : Reader α) : Field α := ⟨name, read, none, none⟩

/-- A field that may be null, or missing from an object. -/
def optional {α : Type} (name : String) (read : Reader α) : Field (Option α) :=
  ⟨name, readOptional read, some none, none⟩

/-- A field with a value of its own where it is missing, also at the end of an array. -/
def defaulted {α : Type} (name : String) (value : α) (read : Reader α) : Field α :=
  ⟨name, read, some value, some value⟩

end SignOff.Json
