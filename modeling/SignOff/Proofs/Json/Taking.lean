import SignOff.Json.Form
import SignOff.Proofs.Calendar.DateText
import SignOff.Proofs.Json.RoundTrip

/-!
# What typed readers take

A typed reader takes a value off the text that is written for it, in front of whatever does not go on with a
number. Simple values, values that may be null and names come first, then arrays, whose elements follow each
other after commas, and records, whose members are read one after another into slots.
-/

namespace SignOff.Json

variable {α : Type}

/-- The reader takes the value off the text written for it. -/
def Takes (read : Reader α) (json : Json) (value : α) : Prop :=
  ∀ rest, Breaks rest → read (json.compact ++ rest) = .ok (value, rest)

/-! ## Simple values -/

/-- A quoted string is read in front of any text. -/
theorem readString_quoted (s : String) (rest : List Char) : readString (quoted s ++ rest) = .ok (s, rest) := by
  rw [readString, quoted, List.cons_append, List.append_assoc, List.singleton_append, skipBlank_cons (by decide)]
  simp [stringTail_quoted, bind, Except.bind]

/-- A string is read off its text. -/
theorem takes_string (s : String) : Takes readString (.string s) s := by
  intro rest _
  rw [compact, readString_quoted]

/-- A truth value is read off its word. -/
theorem takes_bool (b : Bool) : Takes readBool (.bool b) b := by
  intro rest _
  cases b <;> simp [compact, readBool, skipBlank, isBlank, expect, bind, Except.bind]

/-- A number that is read back by itself is read back in front of other text. -/
theorem readNumber_append {n : JsonNumber} (h : n.ReadsBack) {rest : List Char} (hrest : Breaks rest) :
    readNumber (numberText n ++ rest) = .ok (n, rest) := by
  obtain ⟨x, hx, hvalue⟩ := readNumber_eq_ok_iff.1 h
  exact readNumber_eq_ok_iff.2 ⟨x, stops_readNumeral _ [] rest x hrest hx, hvalue⟩

/-- A whole number is read off its numeral by a reader whose bounds it is in. -/
theorem takes_integer {least greatest n : Int} (hrange : (JsonNumber.whole n).InRange) (hleast : least ≤ n)
    (hgreatest : n ≤ greatest) : Takes (readInteger least greatest) (.ofInt n) n := by
  intro rest hrest
  have hread := readNumber_append (JsonNumber.readsBack_whole hrange) hrest
  obtain ⟨c, cs, htext, hc⟩ := (JsonNumber.whole n).head_numberText
  have hnumber : (decide (c = '-') || c.isDigit) = true := by simpa using hc
  rw [ofInt, compact]
  rw [htext, List.cons_append] at hread ⊢
  rw [readInteger, skipBlank_cons (Opens.of_number hc).ne.1]
  simp only [hnumber, if_true, hread]
  simp [bind, Except.bind, hleast, hgreatest]

/-- A natural number is read off its numeral by a reader whose bound it keeps. -/
theorem takes_natural {greatest n : Nat} (hrange : greatest ≤ Text.nat64Greatest) (hn : n ≤ greatest) :
    Takes (readNatural greatest) (.ofNat n) n := by
  intro rest hrest
  have hwhole : (JsonNumber.whole (n : Int)).InRange :=
    ⟨Int.le_trans (by decide) (Int.natCast_nonneg n), Int.ofNat_le.2 (Nat.le_trans hn hrange)⟩
  have hread : readInteger 0 greatest ((ofNat n).compact ++ rest) = .ok ((n : Int), rest) :=
    takes_integer hwhole (Int.natCast_nonneg n) (Int.ofNat_le.2 hn) rest hrest
  rw [readNatural, hread]
  rfl

/-- A text whose words are understood. -/
theorem takes_text {parse? : String → Option α} {s : String} {value : α} (h : parse? s = some value) :
    Takes (readText parse?) (.string s) value := by
  intro rest _
  rw [compact, readText, readString_quoted]
  simp [bind, Except.bind, h]

/-- A date is read off its text. -/
theorem takes_date (d : Date) : Takes readDate (.string d.toText) d :=
  takes_text (by rw [Date.read_toText]; rfl)

/-- A name that is understood is read off the string with it. -/
theorem takes_name {parse? : String → Option α} {s : String} {value : α} (h : parse? s = some value) :
    Takes (readName parse?) (.string s) value := by
  intro rest hrest
  have htext := takes_text h rest hrest
  rw [compact, quoted, List.cons_append] at htext ⊢
  rw [readName, skipBlank_cons (by decide)]
  exact htext

/-! ## Values that may be null -/

/-- A missing value is read off null. -/
theorem takes_none (read : Reader α) : Takes (readOptional read) .null none := by
  intro rest _
  simp [compact, readOptional, skipBlank, isBlank, expect, bind, Except.bind]

/-- A value that is there is read as before where null is allowed, unless it is written as null. -/
theorem takes_some {read : Reader α} {json : Json} {value : α} (h : Takes read json value) (hne : json ≠ .null) :
    Takes (readOptional read) json (some value) := by
  intro rest hrest
  have hread := h rest hrest
  obtain ⟨c, cs, htext, hopens, hc⟩ := exists_head_compact json
  rw [htext, List.cons_append] at hread ⊢
  rw [readOptional, skipBlank_cons hopens.ne.1]
  split
  · next heq => exact absurd (List.cons.inj heq).1 (hc hne)
  · rw [hread]
    rfl

/-- A text that may be missing is read off its string or null. -/
theorem takes_ofText? (s? : Option String) : Takes (readOptional readString) (ofText? s?) s? := by
  cases s? with
  | none => exact takes_none _
  | some s => exact takes_some (takes_string s) (by simp [ofText?])

/-- A value that may be missing is read off its form or null. -/
theorem takes_optional {read : Reader α} {toJson : α → Json} {value? : Option α}
    (h : ∀ value ∈ value?, Takes read (toJson value) value ∧ toJson value ≠ .null) :
    Takes (readOptional read) ((value?.map toJson).getD .null) value? := by
  cases value? with
  | none => exact takes_none _
  | some value => exact takes_some (h value rfl).1 (h value rfl).2

/-! ## Values after commas -/

section Following

variable {β : Type} (text : β → List Char)

/-- What is written of the values after a first one. -/
def following (xs : List β) : List Char := xs.flatMap fun x => ',' :: text x

/-- After a comma stands the next value, and then what follows it. -/
theorem following_cons_append (x : β) (xs : List β) (rest : List Char) :
    following text (x :: xs) ++ rest = ',' :: (text x ++ (following text xs ++ rest)) := by
  simp [following]

/-- A bracket or brace that comes after any number of further values does not go on with a number. -/
theorem breaks_following (xs : List β) {close : Char} (hclose : close = ']' ∨ close = '}') (rest : List Char) :
    Breaks (following text xs ++ close :: rest) := by
  cases xs with
  | nil => rcases hclose with rfl | rfl <;> simp [Breaks, following]
  | cons x xs => simp [Breaks, following]

/-- Each value takes at least the character of its comma. -/
theorem length_le_following (xs : List β) : xs.length ≤ (following text xs).length := by
  induction xs with
  | nil => simp
  | cons x xs ih =>
    simp only [following, List.flatMap_cons, List.length_append, List.length_cons] at ih ⊢
    omega

end Following

/-! ## Arrays -/

/-- Elements are written as a first one and those that follow it. -/
theorem compactItems_cons (item : Json) (items : List Json) :
    compactItems (item :: items) = item.compact ++ following compact items := by
  induction items generalizing item with
  | nil => simp [compactItems, following]
  | cons next rest ih =>
    rw [compactItems, ih next]
    · simp [following]
    · simp

/-- The first element is where the array does not close. -/
theorem nextElement?_first {c : Char} (hblank : isBlank c = false) (hclose : c ≠ ']') (cs : List Char) :
    nextElement? true (c :: cs) = .ok (some (c :: cs)) := by
  rw [nextElement?, skipBlank_cons hblank]
  split
  · contradiction
  · next heq => exact absurd (List.cons.inj heq).1 hclose
  · next heq => rw [← heq, if_pos rfl]

/-- A later element is what follows a comma. -/
theorem nextElement?_comma {c : Char} (hblank : isBlank c = false) (hclose : c ≠ ']') (cs : List Char) :
    nextElement? false (',' :: c :: cs) = .ok (some (c :: cs)) := by
  simp only [nextElement?, skipBlank_cons (by decide : isBlank ',' = false)]
  split
  · contradiction
  · next heq => simp at heq
  · next heq =>
    obtain ⟨rfl, rfl⟩ := List.cons.inj heq
    rw [if_neg Bool.false_ne_true, if_pos rfl, skipBlank_cons hblank]
    split
    · contradiction
    · next heq => exact absurd (List.cons.inj heq).1 hclose
    · rfl

/-- Before the closing bracket there is no element. -/
theorem nextElement?_close (first : Bool) (cs : List Char) : nextElement? first (']' :: cs) = .ok none := by
  simp [nextElement?, skipBlank, isBlank]

/-- The bracket that closes an array is expected in front. -/
theorem expect_close (cs : List Char) : expect [']'] (skipBlank (']' :: cs)) = .ok cs := by
  simp [skipBlank, isBlank, expect]

/-- The elements after the first are read one by one. -/
theorem readElements_following {read : Reader α} {items : List Json} {values : List α}
    (h : List.Forall₂ (Takes read) items values) (fuel : Nat) (hfuel : items.length < fuel) (rest : List Char) :
    readElements read fuel false (following compact items ++ ']' :: rest) = .ok (values, rest) := by
  induction h generalizing fuel with
  | nil =>
    obtain ⟨fuel, rfl⟩ : ∃ f, fuel = f + 1 := ⟨fuel - 1, by omega⟩
    rw [following, List.flatMap_nil, List.nil_append, readElements, nextElement?_close]
    simp [bind, Except.bind, expect_close]
  | @cons item value items values hitem _ ih =>
    obtain ⟨fuel, rfl⟩ : ∃ f, fuel = f + 1 := ⟨fuel - 1, by omega⟩
    have hread := hitem _ (breaks_following compact items (.inl rfl) rest)
    have hrest := ih fuel (by simpa using hfuel)
    obtain ⟨c, cs, htext, hc, -⟩ := exists_head_compact item
    rw [following_cons_append, readElements]
    rw [htext, List.cons_append] at hread ⊢
    rw [nextElement?_comma hc.ne.1 hc.ne.2]
    simp [bind, Except.bind, hread, hrest]

/-- A list is read off an array of forms of its members. -/
theorem takes_list {read : Reader α} {items : List Json} {values : List α}
    (h : List.Forall₂ (Takes read) items values) : Takes (readList read) (.array items) values := by
  intro rest _
  rw [compact, List.cons_append, List.append_assoc, List.singleton_append, readList, skipBlank_cons (by decide)]
  simp only [fuelFor]
  cases h with
  | nil =>
    rw [compactItems, List.nil_append, readElements, nextElement?_close]
    simp [bind, Except.bind, expect_close]
  | @cons item value items values hitem hitems =>
    have hread := hitem _ (breaks_following compact items (.inl rfl) rest)
    -- the fuel is counted by characters, and there are more of them than elements
    have hlength := length_le_following compact items
    have hrest := readElements_following hitems
      (2 * (item.compact ++ (following compact items ++ ']' :: rest)).length + 1)
      (by simp only [List.length_append]; omega) rest
    obtain ⟨c, cs, htext, hc, -⟩ := exists_head_compact item
    rw [compactItems_cons, List.append_assoc, readElements]
    rw [htext, List.cons_append] at hread hrest ⊢
    rw [nextElement?_first hc.ne.1 hc.ne.2]
    simp only [bind, Except.bind, hread, hrest]

/-! ## Records -/

/-- The text of a member. -/
def memberText (member : String × Json) : List Char := quoted member.1 ++ ':' :: member.2.compact

/-- Members are written as a first one and those that follow it. -/
theorem compactMembers_cons (member : String × Json) (members : List (String × Json)) :
    compactMembers (member :: members) = memberText member ++ following memberText members := by
  induction members generalizing member with
  | nil => simp [compactMembers, following, memberText]
  | cons next rest ih =>
    rw [compactMembers, ih next]
    · simp [following, memberText]
    · simp

namespace Fields

/-- The names of the fields. -/
def names : {types : List Type} → Fields types → List String
  | _, .nil => []
  | _, .cons field rest => field.name :: rest.names

/-- Some fields of the row have been read into their slots. The members are those of the other fields, in the
order of the fields. -/
inductive Awaits : {types : List Type} → Fields types → Row types → Slots types → List (String × Json) → Prop
  | nil : Awaits .nil () () []
  | done {α : Type} {types : List Type} {field : Field α} {fields : Fields types} (value : α) {row : Row types}
      {slots : Slots types} {members : List (String × Json)} (h : Awaits fields row slots members) :
      Awaits (.cons field fields) (value, row) (some value, slots) members
  | next {α : Type} {types : List Type} {field : Field α} {fields : Fields types} {value : α} {row : Row types}
      {slots : Slots types} {json : Json} {members : List (String × Json)} (hvalue : Takes field.read json value)
      (h : Awaits fields row slots members) :
      Awaits (.cons field fields) (value, row) (none, slots) ((field.name, json) :: members)

variable {types : List Type} {fields : Fields types} {row : Row types} {slots : Slots types}
  {members : List (String × Json)}

namespace Awaits

/-- The members have names of fields. -/
theorem mem_names (h : fields.Awaits row slots members) : ∀ member ∈ members, member.1 ∈ fields.names := by
  induction h with
  | nil => simp
  | done _ _ ih => exact fun member hmember => List.mem_cons_of_mem _ (ih member hmember)
  | next _ _ ih =>
    intro member hmember
    rcases List.mem_cons.1 hmember with rfl | hmember
    · exact List.mem_cons_self
    · exact List.mem_cons_of_mem _ (ih member hmember)

/-- The next member is read into its slot, and the members after it remain. -/
theorem readMember {key : String} {json : Json} (h : fields.Awaits row slots ((key, json) :: members))
    (hnames : fields.names.Nodup) {rest : List Char} (hrest : Breaks rest) :
    ∃ filled, fields.readMember key slots (':' :: (json.compact ++ rest)) = .ok (filled, rest) ∧
      fields.Awaits row filled members := by
  generalize hpending : (key, json) :: members = pending at h
  induction h with
  | nil => contradiction
  | @done _ _ field _ value _ slots _ h ih =>
    -- the key is the name of a later field, so it is not that of this one
    subst hpending
    rw [names, List.nodup_cons] at hnames
    have hkey : key ≠ field.name := fun heq => hnames.1 (heq ▸ h.mem_names _ List.mem_cons_self)
    obtain ⟨filled, hread, hawaits⟩ := ih hnames.2 rfl
    refine ⟨(some value, filled), ?_, hawaits.done value⟩
    simp [Fields.readMember, hkey, hread, bind, Except.bind]
  | @next _ _ field _ value _ slots _ _ hvalue h _ =>
    cases hpending
    refine ⟨(some value, slots), ?_, h.done value⟩
    simp [Fields.readMember, skipColon_colon, hvalue rest hrest, bind, Except.bind]

/-- Where no member remains the row is complete. -/
theorem complete (h : fields.Awaits row slots []) : fields.complete slots = .ok row := by
  generalize hnone : [] = pending at h
  induction h with
  | nil => rfl
  | done value _ ih =>
    rw [Fields.complete, ih hnone]
    rfl
  | next => contradiction

end Awaits

/-- An object whose closing brace comes next has the row of its slots. -/
theorem readObject_close (h : fields.Awaits row slots []) (fuel : Nat) (first : Bool) (rest : List Char) :
    fields.readObject (fuel + 1) first slots ('}' :: rest) = .ok (row, rest) := by
  rw [readObject]
  simp [skipBlank, isBlank, bind, Except.bind, h.complete]

/-- A member is read into its slot, and then the members after it, also where a comma comes first. -/
theorem readObject_memberText (fields : Fields types) (slots : Slots types) (fuel : Nat) (member : String × Json)
    (cs : List Char) :
    fields.readObject (fuel + 1) true slots (memberText member ++ cs) = (do
      let (slots, rest) ← fields.readMember member.1 slots (':' :: (member.2.compact ++ cs))
      fields.readObject fuel false slots rest) ∧
    fields.readObject (fuel + 1) false slots (',' :: (memberText member ++ cs)) = (do
      let (slots, rest) ← fields.readMember member.1 slots (':' :: (member.2.compact ++ cs))
      fields.readObject fuel false slots rest) := by
  have hkey : stringTail (member.1.toList.flatMap escape ++ '"' :: ':' :: (member.2.compact ++ cs)) =
      .ok (member.1.toList, ':' :: (member.2.compact ++ cs)) := stringTail_quoted _ _
  constructor
  · rw [readObject]
    simp [memberText, quoted, skipBlank, isBlank, hkey, bind, Except.bind]
  · rw [readObject]
    simp [memberText, quoted, skipBlank, isBlank, hkey, bind, Except.bind]

/-- The members after the first are read one by one. -/
theorem readObject_following (hnames : fields.names.Nodup) (h : fields.Awaits row slots members) (fuel : Nat)
    (hfuel : members.length < fuel) (rest : List Char) :
    fields.readObject fuel false slots (following memberText members ++ '}' :: rest) = .ok (row, rest) := by
  induction members generalizing slots fuel with
  | nil =>
    obtain ⟨fuel, rfl⟩ : ∃ f, fuel = f + 1 := ⟨fuel - 1, by omega⟩
    exact readObject_close h fuel false rest
  | cons member members ih =>
    obtain ⟨fuel, rfl⟩ : ∃ f, fuel = f + 1 := ⟨fuel - 1, by omega⟩
    obtain ⟨filled, hread, hawaits⟩ := h.readMember hnames (breaks_following memberText members (.inr rfl) rest)
    rw [following_cons_append, (readObject_memberText fields slots fuel member _).2, hread]
    exact ih hawaits fuel (by simpa using hfuel)

end Fields

/-- A record is taken off an object with a member for each of its fields. -/
theorem takes_record {types : List Type} {fields : Fields types} {build : Row types → α} {row : Row types}
    {members : List (String × Json)} {value : α} (hnames : fields.names.Nodup)
    (h : fields.Awaits row fields.empty members) (hbuild : build row = value) :
    Takes (readRecord fields build) (.object members) value := by
  intro rest _
  rw [compact, List.cons_append, List.append_assoc, List.singleton_append, readRecord, skipBlank_cons (by decide)]
  simp only [fuelFor]
  cases members with
  | nil =>
    rw [compactMembers, List.nil_append, Fields.readObject_close h]
    simp [bind, Except.bind, hbuild]
  | cons member members =>
    have hlength := length_le_following memberText members
    obtain ⟨filled, hread, hawaits⟩ := h.readMember hnames (breaks_following memberText members (.inr rfl) rest)
    have hrest := Fields.readObject_following hnames hawaits
      (2 * (memberText member ++ (following memberText members ++ '}' :: rest)).length + 1)
      (by simp only [List.length_append]; omega) rest
    rw [compactMembers_cons, List.append_assoc, (Fields.readObject_memberText fields _ _ member _).1, hread]
    simp only [bind, Except.bind, hrest, hbuild]

end SignOff.Json
