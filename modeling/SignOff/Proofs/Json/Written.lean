import SignOff.Proofs.Json.Numerals

/-!
# Texts as they are written

A text as it is written keeps each numeral with all its digits, and each member of an object, also when its
key is repeated. What the reader makes of a text is the value of what is written in it: numerals become numbers,
and of the members of one key the last one stays in the place of the first.
-/

namespace SignOff.Json

/-- What is written in a text. -/
inductive Written where
  | null
  | bool (b : Bool)
  | number (x : Numeral)
  | string (s : String)
  | array (items : List Written)
  | object (members : List (String × Written))

mutual

/-- What is written at the front of a text, with at most `depth` containers open inside each other. -/
def readWritten : Nat → Nat → Reader Written
  | 0, _, _ => .error .malformed
  | fuel + 1, depth, cs =>
    match skipBlank cs with
    | [] => .error .malformed
    | c :: rest =>
      if c = '"' then do
        let (s, rest) ← stringTail rest
        .ok (.string (String.ofList s), rest)
      else if c = '[' then
        if depth = 0 then .error .malformed
        else match skipBlank rest with
          | ']' :: rest => .ok (.array [], rest)
          | rest => do
            let (items, rest) ← readWrittenItems fuel (depth - 1) rest
            .ok (.array items, rest)
      else if c = '{' then
        if depth = 0 then .error .malformed
        else match skipBlank rest with
          | '}' :: rest => .ok (.object [], rest)
          | rest => do
            let (members, rest) ← readWrittenMembers fuel (depth - 1) rest
            .ok (.object members, rest)
      else if c = 'n' then do .ok (.null, ← expect "ull".toList rest)
      else if c = 't' then do .ok (.bool true, ← expect "rue".toList rest)
      else if c = 'f' then do .ok (.bool false, ← expect "alse".toList rest)
      else if c = '-' || c.isDigit then do
        let (x, rest) ← readNumeral (c :: rest)
        .ok (.number x, rest)
      else .error .malformed

/-- The elements of an array as they are written. -/
def readWrittenItems : Nat → Nat → Reader (List Written)
  | 0, _, _ => .error .malformed
  | fuel + 1, depth, cs => do
    let (item, rest) ← readWritten fuel depth cs
    match skipBlank rest with
    | ',' :: rest => do
      let (items, rest) ← readWrittenItems fuel depth rest
      .ok (item :: items, rest)
    | ']' :: rest => .ok ([item], rest)
    | _ => .error .malformed

/-- The members of an object as they are written. -/
def readWrittenMembers : Nat → Nat → Reader (List (String × Written))
  | 0, _, _ => .error .malformed
  | fuel + 1, depth, cs => do
    let (key, rest) ← readKey cs
    let (value, rest) ← readWritten fuel depth (← skipColon rest)
    match skipBlank rest with
    | ',' :: rest => do
      let (members, rest) ← readWrittenMembers fuel depth rest
      .ok ((key, value) :: members, rest)
    | '}' :: rest => .ok ([(key, value)], rest)
    | _ => .error .malformed

end

/-- What is written in a text. -/
def written (s : String) : Except Fault Written :=
  readWith (readWritten (fuelFor s.toList) greatestDepth) s.toList

namespace Written

mutual

/-- The value of what is written, if all its numerals are numbers. -/
def value? : Written → Option Json
  | .null => some .null
  | .bool b => some (.bool b)
  | .number x => x.value?.map .number
  | .string s => some (.string s)
  | .array items => (itemValues? items).map .array
  | .object members => (memberValues? [] members).map .object

/-- The values of elements. -/
def itemValues? : List Written → Option (List Json)
  | [] => some []
  | item :: rest => do
    let value ← item.value?
    let values ← itemValues? rest
    some (value :: values)

/-- The values of members, set one after another into those before. -/
def memberValues? (before : List (String × Json)) : List (String × Written) → Option (List (String × Json))
  | [] => some before
  | (key, member) :: rest => do
    let value ← member.value?
    memberValues? (Entries.put key value before) rest

end

mutual

/-- What is written of a value. -/
def ofValue : Json → Written
  | .null => .null
  | .bool b => .bool b
  | .number n => .number n.numeral
  | .string s => .string s
  | .array items => .array (ofItems items)
  | .object members => .object (ofMembers members)

/-- What is written of elements. -/
def ofItems : List Json → List Written
  | [] => []
  | item :: rest => ofValue item :: ofItems rest

/-- What is written of members. -/
def ofMembers : List (String × Json) → List (String × Written)
  | [] => []
  | (key, value) :: rest => (key, ofValue value) :: ofMembers rest

end

end Written

/-- With some fuel, what is read are the values of what is written. -/
structure ReadsWritten (fuel : Nat) : Prop where
  value : ∀ {depth : Nat} {cs rest : List Char} {v : Json}, readValue fuel depth cs = .ok (v, rest) ↔
    ∃ w, readWritten fuel depth cs = .ok (w, rest) ∧ w.value? = some v
  items : ∀ {depth : Nat} {cs rest : List Char} {vs : List Json}, readItems fuel depth cs = .ok (vs, rest) ↔
    ∃ ws, readWrittenItems fuel depth cs = .ok (ws, rest) ∧ Written.itemValues? ws = some vs
  members : ∀ {depth : Nat} {before vs : List (String × Json)} {cs rest : List Char},
    readMembers fuel depth before cs = .ok (vs, rest) ↔
      ∃ ws, readWrittenMembers fuel depth cs = .ok (ws, rest) ∧ Written.memberValues? before ws = some vs

/-- One step more reads the value of what is written, if the steps so far read elements and members. -/
theorem ReadsWritten.succ_value {fuel : Nat} (h : ReadsWritten fuel) {depth : Nat} {cs rest : List Char} {v : Json} :
    readValue (fuel + 1) depth cs = .ok (v, rest) ↔
      ∃ w, readWritten (fuel + 1) depth cs = .ok (w, rest) ∧ w.value? = some v := by
  unfold readValue readWritten
  cases skipBlank cs with
  | nil => simp
  | cons c tail =>
    dsimp only
    by_cases hquote : c = '"'
    · simp [hquote, bind_eq_ok_iff, Written.value?]
    rw [if_neg hquote, if_neg hquote]
    by_cases harray : c = '['
    · rw [if_pos harray, if_pos harray]
      cases depth with
      | zero => simp
      | succ depth =>
        rw [if_neg (Nat.succ_ne_zero depth), if_neg (Nat.succ_ne_zero depth), Nat.add_sub_cancel]
        generalize skipBlank tail = text
        split
        · simp [Written.value?, Written.itemValues?, and_comm]
        · simp [bind_eq_ok_iff, h.items, Written.value?]
          grind
    rw [if_neg harray, if_neg harray]
    by_cases hobject : c = '{'
    · rw [if_pos hobject, if_pos hobject]
      cases depth with
      | zero => simp
      | succ depth =>
        rw [if_neg (Nat.succ_ne_zero depth), if_neg (Nat.succ_ne_zero depth), Nat.add_sub_cancel]
        generalize skipBlank tail = text
        split
        · simp [Written.value?, Written.memberValues?, and_comm]
        · simp [bind_eq_ok_iff, h.members, Written.value?]
          grind
    rw [if_neg hobject, if_neg hobject]
    -- The three words hold nothing else, and a number is that of its numeral.
    split
    · simp [bind_eq_ok_iff, Written.value?]
    split
    · simp [bind_eq_ok_iff, Written.value?]
    split
    · simp [bind_eq_ok_iff, Written.value?]
    split
    · simp [bind_eq_ok_iff, Written.value?, readNumber_eq_ok_iff]
      grind
    · simp

/-- One step more reads the elements of what is written, by the value first and the rest after it. -/
theorem ReadsWritten.succ_items {fuel : Nat} (h : ReadsWritten fuel) {depth : Nat} {cs rest : List Char}
    {vs : List Json} :
    readItems (fuel + 1) depth cs = .ok (vs, rest) ↔
      ∃ ws, readWrittenItems (fuel + 1) depth cs = .ok (ws, rest) ∧ Written.itemValues? ws = some vs := by
  unfold readItems readWrittenItems
  simp only [bind_eq_ok_iff, Prod.exists, h.value]
  constructor
  · rintro ⟨v, after, ⟨w, hw, hvalue⟩, hrest⟩
    split at hrest
    · next hnext =>
      obtain ⟨⟨others, _⟩, hothers, hrest⟩ := bind_eq_ok_iff.1 hrest
      cases hrest
      obtain ⟨ws, hws, hvalues⟩ := h.items.1 hothers
      exact ⟨w :: ws, ⟨w, after, hw, by simp [hnext, hws, bind, Except.bind]⟩,
        by simp [Written.itemValues?, hvalue, hvalues]⟩
    · next hnext =>
      cases hrest
      exact ⟨[w], ⟨w, after, hw, by simp [hnext]⟩, by simp [Written.itemValues?, hvalue]⟩
    · contradiction
  · rintro ⟨ws, ⟨w, after, hw, hrest⟩, hvalues⟩
    split at hrest
    · next hnext =>
      obtain ⟨⟨others, _⟩, hothers, hrest⟩ := bind_eq_ok_iff.1 hrest
      cases hrest
      obtain ⟨v, hvalue, hvalues⟩ := Option.bind_eq_some_iff.1 hvalues
      obtain ⟨vs, hvs, hvalues⟩ := Option.bind_eq_some_iff.1 hvalues
      cases hvalues
      have hread := h.items.2 ⟨others, hothers, hvs⟩
      exact ⟨v, after, ⟨w, hw, hvalue⟩, by simp [hnext, hread, bind, Except.bind]⟩
    · next hnext =>
      cases hrest
      obtain ⟨v, hvalue, hvalues⟩ := Option.bind_eq_some_iff.1 hvalues
      cases hvalues
      exact ⟨v, after, ⟨w, hw, hvalue⟩, by simp [hnext]⟩
    · contradiction

/-- One step more reads the members of what is written, the later ones over those before. -/
theorem ReadsWritten.succ_members {fuel : Nat} (h : ReadsWritten fuel) {depth : Nat} {cs rest : List Char}
    {before vs : List (String × Json)} :
    readMembers (fuel + 1) depth before cs = .ok (vs, rest) ↔
      ∃ ws, readWrittenMembers (fuel + 1) depth cs = .ok (ws, rest) ∧ Written.memberValues? before ws = some vs := by
  unfold readMembers readWrittenMembers
  simp only [bind_eq_ok_iff, Prod.exists, h.value]
  constructor
  · rintro ⟨key, colon, hkey, start, hstart, v, after, ⟨w, hw, hvalue⟩, hrest⟩
    split at hrest
    · next hnext =>
      obtain ⟨ws, hws, hvalues⟩ := h.members.1 hrest
      exact ⟨(key, w) :: ws, ⟨key, colon, hkey, start, hstart, w, after, hw,
        by simp [hnext, hws, bind, Except.bind]⟩, by simp [Written.memberValues?, hvalue, hvalues]⟩
    · next hnext =>
      cases hrest
      exact ⟨[(key, w)], ⟨key, colon, hkey, start, hstart, w, after, hw, by simp [hnext]⟩,
        by simp [Written.memberValues?, hvalue]⟩
    · contradiction
  · rintro ⟨ws, ⟨key, colon, hkey, start, hstart, w, after, hw, hrest⟩, hvalues⟩
    split at hrest
    · next hnext =>
      obtain ⟨⟨others, _⟩, hothers, hrest⟩ := bind_eq_ok_iff.1 hrest
      cases hrest
      obtain ⟨v, hvalue, hvalues⟩ := Option.bind_eq_some_iff.1 hvalues
      have hread := h.members.2 ⟨others, hothers, hvalues⟩
      exact ⟨key, colon, hkey, start, hstart, v, after, ⟨w, hw, hvalue⟩, by simp [hnext, hread]⟩
    · next hnext =>
      cases hrest
      obtain ⟨v, hvalue, hvalues⟩ := Option.bind_eq_some_iff.1 hvalues
      cases hvalues
      exact ⟨key, colon, hkey, start, hstart, v, after, ⟨w, hw, hvalue⟩, by simp [hnext]⟩
    · contradiction

/-- Whatever is read, with any fuel, are the values of what is written. -/
theorem readsWritten (fuel : Nat) : ReadsWritten fuel := by
  induction fuel with
  | zero => constructor <;> simp [readValue, readWritten, readItems, readWrittenItems, readMembers, readWrittenMembers]
  | succ fuel ih => exact ⟨ih.succ_value, ih.succ_items, ih.succ_members⟩

/-- A text has the value of what is written in it. -/
theorem read_eq_ok_iff {s : String} {v : Json} : read s = .ok v ↔ ∃ w, written s = .ok w ∧ w.value? = some v := by
  unfold read written readWith
  simp only [bind_eq_ok_iff, Prod.exists, (readsWritten _).value]
  constructor
  · rintro ⟨v, rest, ⟨w, hw, hvalue⟩, hrest⟩
    split at hrest
    · next hend =>
      cases hrest
      exact ⟨w, ⟨w, rest, hw, by simp [hend]⟩, hvalue⟩
    · contradiction
  · rintro ⟨w, ⟨w', rest, hw, hrest⟩, hvalue⟩
    split at hrest
    · next hend =>
      cases hrest
      exact ⟨v, rest, ⟨w, hw, hvalue⟩, by simp [hend]⟩
    · contradiction

end SignOff.Json
