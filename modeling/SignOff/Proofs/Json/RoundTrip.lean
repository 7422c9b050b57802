import SignOff.Proofs.Json.Written

/-!
# Values read back

What can be read nests at most as deep as the reader goes, has no key twice in an object and only numbers in
range. Such a value is read back from its compact text as soon as each of its numbers is: strings and whole
numbers always are, so all depends on its binary numbers.
-/

namespace SignOff.Json

mutual

/-- The numbers in a value. -/
def numbers : Json → List JsonNumber
  | .number n => [n]
  | .array items => itemNumbers items
  | .object members => memberNumbers members
  | _ => []

/-- The numbers in the elements of an array. -/
def itemNumbers : List Json → List JsonNumber
  | [] => []
  | item :: rest => numbers item ++ itemNumbers rest

/-- The numbers in the members of an object. -/
def memberNumbers : List (String × Json) → List JsonNumber
  | [] => []
  | (_, value) :: rest => numbers value ++ memberNumbers rest

end

/-- The value nests at most `depth` deep, without a key that comes twice, and all its numbers are good. -/
inductive Within (good : JsonNumber → Prop) : Nat → Json → Prop
  | null {depth : Nat} : Within good depth .null
  | bool {depth : Nat} (b : Bool) : Within good depth (.bool b)
  | number {depth : Nat} {n : JsonNumber} (h : good n) : Within good depth (.number n)
  | string {depth : Nat} (s : String) : Within good depth (.string s)
  | array {depth : Nat} {items : List Json} (h : ∀ item ∈ items, Within good depth item) :
    Within good (depth + 1) (.array items)
  | object {depth : Nat} {members : List (String × Json)} (hkeys : (members.map Prod.fst).Nodup)
    (h : ∀ member ∈ members, Within good depth member.2) : Within good (depth + 1) (.object members)

/-- The numbers of an element are numbers of the array. -/
theorem mem_itemNumbers {items : List Json} {item : Json} (hitem : item ∈ items) {n : JsonNumber}
    (hn : n ∈ item.numbers) : n ∈ itemNumbers items := by
  induction items with
  | nil => contradiction
  | cons first rest ih =>
    rw [itemNumbers, List.mem_append]
    rcases List.mem_cons.1 hitem with rfl | hrest
    · exact Or.inl hn
    · exact Or.inr (ih hrest)

/-- The numbers of a member are numbers of the object. -/
theorem mem_memberNumbers {members : List (String × Json)} {member : String × Json} (hmember : member ∈ members)
    {n : JsonNumber} (hn : n ∈ member.2.numbers) : n ∈ memberNumbers members := by
  induction members with
  | nil => contradiction
  | cons first rest ih =>
    obtain ⟨key, value⟩ := first
    rw [memberNumbers, List.mem_append]
    rcases List.mem_cons.1 hmember with rfl | hrest
    · exact Or.inl hn
    · exact Or.inr (ih hrest)

namespace Within

variable {good other : JsonNumber → Prop} {depth : Nat} {value : Json}

/-- What holds of the numbers that are there may be asked of them. -/
theorem imp (h : Within good depth value) (himp : ∀ n ∈ value.numbers, good n → other n) :
    Within other depth value := by
  induction h with
  | null => exact .null
  | bool b => exact .bool b
  | number hn => exact .number (himp _ (by simp [numbers]) hn)
  | string s => exact .string s
  | array h ih =>
    exact .array fun item hitem => ih item hitem fun n hn =>
      himp n (by rw [numbers]; exact mem_itemNumbers hitem hn)
  | object hkeys h ih =>
    exact .object hkeys fun member hmember => ih member hmember fun n hn =>
      himp n (by rw [numbers]; exact mem_memberNumbers hmember hn)

end Within

section Decidable

variable (good : JsonNumber → Prop) [DecidablePred good]

mutual

/-- Bounds are decided level by level. -/
def decideWithin : (depth : Nat) → (value : Json) → Decidable (Within good depth value)
  | _, .null => isTrue .null
  | _, .bool b => isTrue (.bool b)
  | _, .number n => decidable_of_iff (good n) ⟨.number, fun h => by cases h; assumption⟩
  | _, .string s => isTrue (.string s)
  | 0, .array _ => isFalse fun h => by cases h
  | 0, .object _ => isFalse fun h => by cases h
  | depth + 1, .array items =>
    have := decideItems depth items
    decidable_of_iff (∀ item ∈ items, Within good depth item) ⟨.array, fun h => by cases h; assumption⟩
  | depth + 1, .object members =>
    have := decideMembers depth members
    decidable_of_iff ((members.map Prod.fst).Nodup ∧ ∀ member ∈ members, Within good depth member.2)
      ⟨fun h => .object h.1 h.2, fun h => by cases h; exact ⟨by assumption, by assumption⟩⟩

/-- The bounds of elements. -/
def decideItems : (depth : Nat) → (items : List Json) → Decidable (∀ item ∈ items, Within good depth item)
  | _, [] => isTrue (by simp)
  | depth, item :: rest =>
    have := decideWithin depth item
    have := decideItems depth rest
    decidable_of_iff _ List.forall_mem_cons.symm

/-- The bounds of members. -/
def decideMembers : (depth : Nat) → (members : List (String × Json)) →
    Decidable (∀ member ∈ members, Within good depth member.2)
  | _, [] => isTrue (by simp)
  | depth, (key, value) :: rest =>
    have := decideWithin depth value
    have := decideMembers depth rest
    decidable_of_iff (Within good depth value ∧ ∀ member ∈ rest, Within good depth member.2)
      ⟨fun h => List.forall_mem_cons.2 h, fun h => List.forall_mem_cons.1 h⟩

end

instance (depth : Nat) (value : Json) : Decidable (Within good depth value) := decideWithin good depth value

end Decidable

/-- An object with one text in it is in the reader's bounds. -/
theorem within_singleton {good : JsonNumber → Prop} {depth : Nat} (key text : String) :
    Within good (depth + 1) (.object [(key, .string text)]) :=
  .object (by simp) (by simpa using .string text)

/-! ## What is written is taken -/

/-- The character starts a value. -/
def Opens (c : Char) : Prop := c ∈ ['"', '[', '{', 'n', 't', 'f', '-'] ∨ c.isDigit = true

/-- No white space and no closing bracket starts a value. -/
theorem Opens.ne {c : Char} (h : Opens c) : isBlank c = false ∧ c ≠ ']' := by
  rcases h with hc | hc
  · simp only [List.mem_cons, List.not_mem_nil, or_false] at hc
    rcases hc with rfl | rfl | rfl | rfl | rfl | rfl | rfl <;> decide
  · have hrange : 48 ≤ c.toNat ∧ c.toNat ≤ 57 := Char.isDigit_iff_toNat.1 hc
    refine ⟨?_, fun heq => by simp [heq] at hc⟩
    simp only [isBlank, Bool.or_eq_false_iff, beq_eq_false_iff_ne]
    refine ⟨⟨⟨?_, ?_⟩, ?_⟩, ?_⟩ <;>
    · intro heq
      simp [heq] at hc

/-- A number starts with a sign or a digit. -/
theorem Opens.of_number {c : Char} (h : c = '-' ∨ c.isDigit = true) : Opens c := h.imp_left fun heq => by simp [heq]

/-- The text of a value starts like one, and only the text of null starts with its letter. -/
theorem exists_head_compact (value : Json) :
    ∃ c cs, value.compact = c :: cs ∧ Opens c ∧ (value ≠ .null → c ≠ 'n') := by
  cases value with
  | null => exact ⟨_, _, rfl, Or.inl (by decide), fun hne => absurd rfl hne⟩
  | bool b => cases b <;> exact ⟨_, _, rfl, Or.inl (by decide), fun _ => by decide⟩
  | number n =>
    obtain ⟨c, cs, htext, hc⟩ := n.head_numberText
    refine ⟨c, cs, by rw [compact, htext], .of_number hc, ?_⟩
    rintro - rfl
    exact absurd hc (by decide)
  | string s => exact ⟨_, _, by rw [compact, quoted], Or.inl (by decide), fun _ => by decide⟩
  | array items => exact ⟨_, _, by rw [compact], Or.inl (by decide), fun _ => by decide⟩
  | object members => exact ⟨_, _, by rw [compact], Or.inl (by decide), fun _ => by decide⟩

/-- White space is not skipped in front of anything else. -/
theorem skipBlank_cons {c : Char} (h : isBlank c = false) (cs : List Char) : skipBlank (c :: cs) = c :: cs := by
  simp [skipBlank, h]

/-- What is written of a value is taken from its text, in front of whatever does not go on with a number. -/
def TakenAt (depth : Nat) (value : Json) : Prop :=
  ∀ (fuel : Nat) (rest : List Char), 2 * value.compact.length ≤ fuel → Breaks rest →
    readWritten fuel depth (value.compact ++ rest) = .ok (.ofValue value, rest)

/-- A number is taken from its text at every depth. -/
theorem takenAt_number (n : JsonNumber) (depth : Nat) : TakenAt depth (.number n) := by
  intro fuel rest hfuel hrest
  obtain ⟨c, cs, htext, hc⟩ := n.head_numberText
  have hread := stops_readNumeral _ [] rest _ hrest n.readNumeral_numberText
  rw [compact] at hfuel ⊢
  rw [htext] at hread hfuel ⊢
  obtain ⟨fuel, rfl⟩ : ∃ f, fuel = f + 1 := ⟨fuel - 1, by simp at hfuel; omega⟩
  have hne : c ≠ '"' ∧ c ≠ '[' ∧ c ≠ '{' ∧ c ≠ 'n' ∧ c ≠ 't' ∧ c ≠ 'f' := by
    refine ⟨?_, ?_, ?_, ?_, ?_, ?_⟩ <;>
    · rintro rfl
      exact absurd hc (by decide)
  have hnumber : (decide (c = '-') || c.isDigit) = true := by simpa using hc
  rw [List.cons_append] at hread ⊢
  unfold readWritten
  rw [skipBlank_cons (Opens.of_number hc).ne.1]
  simp only [hne, hnumber, if_false, if_true, hread]
  simp [bind, Except.bind, Written.ofValue]

/-- A string is taken from its text at every depth. -/
theorem takenAt_string (s : String) (depth : Nat) : TakenAt depth (.string s) := by
  intro fuel rest hfuel _
  rw [compact, quoted] at hfuel ⊢
  obtain ⟨fuel, rfl⟩ : ∃ f, fuel = f + 1 := ⟨fuel - 1, by simp at hfuel; omega⟩
  rw [List.cons_append, List.append_assoc, List.singleton_append, readWritten, skipBlank_cons (by decide)]
  simp only [if_true, stringTail_quoted]
  simp [bind, Except.bind, Written.ofValue]

/-- What is written of elements is taken from their text up to the bracket. -/
theorem readWrittenItems_compact {depth : Nat} {items : List Json} (hne : items ≠ [])
    (h : ∀ item ∈ items, TakenAt depth item) (fuel : Nat) (rest : List Char)
    (hfuel : 2 * (compactItems items).length + 1 ≤ fuel) :
    readWrittenItems fuel depth (compactItems items ++ ']' :: rest) =
      .ok (Written.ofItems items, rest) := by
  induction items generalizing fuel with
  | nil => contradiction
  | cons first others ih =>
    obtain ⟨fuel, rfl⟩ : ∃ f, fuel = f + 1 := ⟨fuel - 1, by omega⟩
    have hfirst := h first List.mem_cons_self
    cases others with
    | nil =>
      rw [compactItems] at hfuel ⊢
      rw [readWrittenItems, hfirst fuel _ (by omega) (by simp [Breaks])]
      simp [bind, Except.bind, skipBlank, isBlank, Written.ofItems]
    | cons second others =>
      have htext : compactItems (first :: second :: others) =
          first.compact ++ ',' :: compactItems (second :: others) := rfl
      rw [htext, List.length_append, List.length_cons] at hfuel
      have hrest := ih (List.cons_ne_nil _ _) (fun item hitem => h item (List.mem_cons_of_mem _ hitem))
        fuel (by omega)
      rw [htext, List.append_assoc, List.cons_append, readWrittenItems,
        hfirst fuel _ (by omega) (by simp [Breaks])]
      simp [bind, Except.bind, skipBlank, isBlank, hrest, Written.ofItems]

/-- A key is read up to its closing quotation mark. -/
theorem readKey_quoted (key : String) (cs : List Char) : readKey (quoted key ++ cs) = .ok (key, cs) := by
  rw [readKey, quoted, List.cons_append, List.append_assoc, List.singleton_append, skipBlank_cons (by decide)]
  simp [stringTail_quoted, bind, Except.bind]

/-- A colon in front is skipped. -/
theorem skipColon_colon (cs : List Char) : skipColon (':' :: cs) = .ok cs := by
  simp [skipColon, skipBlank, isBlank, expect]

/-- What is written of members is taken from their text up to the brace. -/
theorem readWrittenMembers_compact {depth : Nat} {members : List (String × Json)} (hne : members ≠ [])
    (h : ∀ member ∈ members, TakenAt depth member.2) (fuel : Nat) (rest : List Char)
    (hfuel : 2 * (compactMembers members).length + 1 ≤ fuel) :
    readWrittenMembers fuel depth (compactMembers members ++ '}' :: rest) =
      .ok (Written.ofMembers members, rest) := by
  induction members generalizing fuel with
  | nil => contradiction
  | cons first others ih =>
    obtain ⟨key, value⟩ := first
    obtain ⟨fuel, rfl⟩ : ∃ f, fuel = f + 1 := ⟨fuel - 1, by omega⟩
    have hfirst : TakenAt depth value := h _ List.mem_cons_self
    cases others with
    | nil =>
      have htext : compactMembers [(key, value)] = quoted key ++ ':' :: value.compact := rfl
      rw [htext, List.length_append, List.length_cons] at hfuel
      rw [htext, List.append_assoc, List.cons_append, readWrittenMembers, readKey_quoted]
      simp [bind, Except.bind, skipColon_colon, hfirst fuel _ (by omega) (by simp [Breaks] : Breaks ('}' :: rest)),
        skipBlank, isBlank, Written.ofMembers]
    | cons second others =>
      have htext : compactMembers ((key, value) :: second :: others) =
          quoted key ++ ':' :: (value.compact ++ ',' :: compactMembers (second :: others)) := rfl
      rw [htext] at hfuel ⊢
      simp only [List.length_append, List.length_cons] at hfuel
      have hrest := ih (List.cons_ne_nil _ _) (fun member hmember => h member (List.mem_cons_of_mem _ hmember))
        fuel (by omega)
      have hvalue := hfirst fuel (',' :: (compactMembers (second :: others) ++ '}' :: rest)) (by omega)
        (by simp [Breaks])
      simp only [List.append_assoc, List.cons_append, readWrittenMembers, readKey_quoted]
      simp [bind, Except.bind, skipColon_colon, hvalue, skipBlank, isBlank, hrest, Written.ofMembers]

/-- An array that does not close at once is read element by element. -/
theorem readWritten_array {fuel depth : Nat} {c : Char} (hblank : isBlank c = false) (hclose : c ≠ ']')
    (cs : List Char) : readWritten (fuel + 1) (depth + 1) ('[' :: c :: cs) = (do
      let (items, rest) ← readWrittenItems fuel depth (c :: cs)
      .ok (.array items, rest)) := by
  rw [readWritten, skipBlank_cons (by decide)]
  simp only [skipBlank_cons hblank, Nat.add_sub_cancel, Nat.add_one_ne_zero, if_false, if_true, Char.reduceEq]
  split
  · next heq => exact absurd (List.cons.inj heq).1 hclose
  · rfl

/-- An object that does not close at once is read member by member. -/
theorem readWritten_object {fuel depth : Nat} {c : Char} (hblank : isBlank c = false) (hclose : c ≠ '}')
    (cs : List Char) : readWritten (fuel + 1) (depth + 1) ('{' :: c :: cs) = (do
      let (members, rest) ← readWrittenMembers fuel depth (c :: cs)
      .ok (.object members, rest)) := by
  rw [readWritten, skipBlank_cons (by decide)]
  simp only [skipBlank_cons hblank, Nat.add_sub_cancel, Nat.add_one_ne_zero, if_false, if_true, Char.reduceEq]
  split
  · next heq => exact absurd (List.cons.inj heq).1 hclose
  · rfl

/-- The text of elements starts like the first of them. -/
theorem exists_tail_compactItems {first : Json} {c : Char} {cs : List Char} (h : first.compact = c :: cs)
    (others : List Json) : ∃ tail, compactItems (first :: others) = c :: tail := by
  cases others with
  | nil => exact ⟨cs, h⟩
  | cons second others =>
    refine ⟨cs ++ ',' :: compactItems (second :: others), ?_⟩
    rw [← List.cons_append, ← h]
    rfl

/-- The text of members starts with a quotation mark. -/
theorem exists_tail_compactMembers (first : String × Json) (others : List (String × Json)) :
    ∃ tail, compactMembers (first :: others) = '"' :: tail := by
  cases others with
  | nil => exact ⟨_, rfl⟩
  | cons second others => exact ⟨_, rfl⟩

namespace Within

variable {good : JsonNumber → Prop} {depth : Nat} {value : Json}

/-- What is written of a value that is not too deep is taken from its text. -/
theorem takenAt (h : Within good depth value) : TakenAt depth value := by
  induction h with
  | null =>
    intro fuel rest hfuel _
    obtain ⟨fuel, rfl⟩ : ∃ f, fuel = f + 1 := ⟨fuel - 1, by simp [compact] at hfuel; omega⟩
    simp [compact, readWritten, skipBlank, isBlank, expect, bind, Except.bind, Written.ofValue]
  | bool b =>
    intro fuel rest hfuel _
    obtain ⟨fuel, rfl⟩ : ∃ f, fuel = f + 1 := ⟨fuel - 1, by cases b <;> simp [compact] at hfuel <;> omega⟩
    cases b <;> simp [compact, readWritten, skipBlank, isBlank, expect, bind, Except.bind, Written.ofValue]
  | number _ => exact takenAt_number _ _
  | string s => exact takenAt_string s _
  | @array depth items _ ih =>
    intro fuel rest hfuel _
    rw [compact] at hfuel ⊢
    simp only [List.length_cons, List.length_append, List.length_nil] at hfuel
    obtain ⟨fuel, rfl⟩ : ∃ f, fuel = f + 1 := ⟨fuel - 1, by omega⟩
    rw [List.cons_append, List.append_assoc, List.singleton_append]
    cases items with
    | nil => simp [readWritten, compactItems, skipBlank, isBlank, Written.ofValue, Written.ofItems]
    | cons first others =>
      have hread := readWrittenItems_compact (List.cons_ne_nil first others) ih fuel rest (by omega)
      obtain ⟨c, cs, htext, hc, -⟩ := exists_head_compact first
      obtain ⟨tail, htail⟩ := exists_tail_compactItems htext others
      rw [htail, List.cons_append] at hread ⊢
      rw [readWritten_array hc.ne.1 hc.ne.2, hread]
      rfl
  | @object depth members _ _ ih =>
    intro fuel rest hfuel _
    rw [compact] at hfuel ⊢
    simp only [List.length_cons, List.length_append, List.length_nil] at hfuel
    obtain ⟨fuel, rfl⟩ : ∃ f, fuel = f + 1 := ⟨fuel - 1, by omega⟩
    rw [List.cons_append, List.append_assoc, List.singleton_append]
    cases members with
    | nil => simp [readWritten, compactMembers, skipBlank, isBlank, Written.ofValue, Written.ofMembers]
    | cons first others =>
      have hread := readWrittenMembers_compact (List.cons_ne_nil first others) ih fuel rest (by omega)
      obtain ⟨tail, htail⟩ := exists_tail_compactMembers first others
      rw [htail, List.cons_append] at hread ⊢
      rw [readWritten_object (by decide) (by decide), hread]
      rfl

end Within

/-- In the text of a value stands what is written of it. -/
theorem written_write {good : JsonNumber → Prop} {value : Json} (h : Within good greatestDepth value) :
    written value.write = .ok (.ofValue value) := by
  have hread := h.takenAt (fuelFor value.compact) [] (by unfold fuelFor; omega) breaks_nil
  rw [List.append_nil] at hread
  rw [written, write, String.toList_ofList, readWith, hread]
  rfl

namespace Written

/-- The values of elements are those that were written. -/
theorem itemValues?_ofItems {items : List Json} (h : ∀ item ∈ items, (ofValue item).value? = some item) :
    itemValues? (ofItems items) = some items := by
  induction items with
  | nil => rfl
  | cons first rest ih =>
    rw [List.forall_mem_cons] at h
    simp [ofItems, itemValues?, h.1, ih h.2]

/-- The values of members with different keys are those that were written, after those before. -/
theorem memberValues?_ofMembers {before members : List (String × Json)}
    (hkeys : ((before ++ members).map Prod.fst).Nodup)
    (h : ∀ member ∈ members, (ofValue member.2).value? = some member.2) :
    memberValues? before (ofMembers members) = some (before ++ members) := by
  induction members generalizing before with
  | nil => simp [ofMembers, memberValues?]
  | cons first rest ih =>
    obtain ⟨key, value⟩ := first
    rw [List.forall_mem_cons] at h
    have hput : Entries.put key value before = before ++ [(key, value)] := by
      apply Entries.put_of_notMem
      intro hmem
      rw [List.map_append, List.nodup_append] at hkeys
      exact hkeys.2.2 key hmem key (by simp) rfl
    have hrest : ((before ++ [(key, value)] ++ rest).map Prod.fst).Nodup := by simpa using hkeys
    simp [ofMembers, memberValues?, h.1, hput, ih hrest h.2]

end Written

/-- A value whose numbers are read back is the value of what is written of it. -/
theorem Within.value?_ofValue {depth : Nat} {value : Json} (h : Within JsonNumber.ReadsBack depth value) :
    (Written.ofValue value).value? = some value := by
  induction h with
  | null => rfl
  | bool b => rfl
  | number hn => simp [Written.ofValue, Written.value?, JsonNumber.readsBack_iff.1 hn]
  | string s => rfl
  | array _ ih => simp [Written.ofValue, Written.value?, Written.itemValues?_ofItems ih]
  | @object _ members hkeys _ ih =>
    have hmembers := Written.memberValues?_ofMembers (List.nil_append members ▸ hkeys) ih
    simp [Written.ofValue, Written.value?, hmembers]

/-- A value that the reader can hold is read back from its text if its numbers are. -/
theorem read_write {value : Json} (h : Within JsonNumber.ReadsBack greatestDepth value) :
    read value.write = .ok value :=
  read_eq_ok_iff.2 ⟨.ofValue value, written_write h, h.value?_ofValue⟩

/-! ## What is read is within the reader's bounds -/

/-- The keys differ and the values are in the bounds of the depth. -/
def MembersWithin (depth : Nat) (members : List (String × Json)) : Prop :=
  (members.map Prod.fst).Nodup ∧ ∀ member ∈ members, Within JsonNumber.InRange depth member.2

/-- Setting a member keeps the members in bounds. -/
theorem MembersWithin.put {depth : Nat} {members : List (String × Json)} (h : MembersWithin depth members)
    (key : String) {value : Json} (hvalue : Within JsonNumber.InRange depth value) :
    MembersWithin depth (Entries.put key value members) := by
  refine ⟨Entries.nodup_keys_put key value h.1, fun member hmember => ?_⟩
  rcases Entries.mem_put hmember with rfl | hold
  · exact hvalue
  · exact h.2 member hold

/-- With some fuel, whatever is read is in bounds. -/
structure ReadsWithin (fuel : Nat) : Prop where
  value : ∀ {depth : Nat} {cs rest : List Char} {value : Json},
    readValue fuel depth cs = .ok (value, rest) → Within JsonNumber.InRange depth value
  items : ∀ {depth : Nat} {cs rest : List Char} {items : List Json},
    readItems fuel depth cs = .ok (items, rest) → ∀ item ∈ items, Within JsonNumber.InRange depth item
  members : ∀ {depth : Nat} {before members : List (String × Json)} {cs rest : List Char},
    MembersWithin depth before → readMembers fuel depth before cs = .ok (members, rest) →
      MembersWithin depth members

/-- With one step more for the value around elements or members that are in bounds, the value is. -/
theorem ReadsWithin.succ_value {fuel : Nat} (h : ReadsWithin fuel) {depth : Nat} {cs rest : List Char} {value : Json}
    (hread : readValue (fuel + 1) depth cs = .ok (value, rest)) : Within JsonNumber.InRange depth value := by
  unfold readValue at hread
  split at hread
  · contradiction
  · next c tail _ =>
    by_cases hquote : c = '"'
    · rw [if_pos hquote] at hread
      obtain ⟨⟨s, _⟩, -, hread⟩ := bind_eq_ok_iff.1 hread
      cases hread
      exact .string _
    rw [if_neg hquote] at hread
    by_cases harray : c = '['
    · rw [if_pos harray] at hread
      cases depth with
      | zero => contradiction
      | succ depth =>
        rw [if_neg (Nat.succ_ne_zero depth)] at hread
        split at hread
        · cases hread
          exact .array (by simp)
        · obtain ⟨⟨items, _⟩, hitems, hread⟩ := bind_eq_ok_iff.1 hread
          cases hread
          exact .array (h.items hitems)
    rw [if_neg harray] at hread
    by_cases hobject : c = '{'
    · rw [if_pos hobject] at hread
      cases depth with
      | zero => contradiction
      | succ depth =>
        rw [if_neg (Nat.succ_ne_zero depth)] at hread
        split at hread
        · cases hread
          exact .object List.nodup_nil (by simp)
        · obtain ⟨⟨members, _⟩, hmembers, hread⟩ := bind_eq_ok_iff.1 hread
          cases hread
          have hempty : MembersWithin depth [] := ⟨List.nodup_nil, by simp⟩
          have hwithin := h.members hempty hmembers
          exact .object hwithin.1 hwithin.2
    rw [if_neg hobject] at hread
    -- the three words and the numbers hold nothing else
    split at hread
    · obtain ⟨_, -, hread⟩ := bind_eq_ok_iff.1 hread
      cases hread
      exact .null
    split at hread
    · obtain ⟨_, -, hread⟩ := bind_eq_ok_iff.1 hread
      cases hread
      exact .bool true
    split at hread
    · obtain ⟨_, -, hread⟩ := bind_eq_ok_iff.1 hread
      cases hread
      exact .bool false
    split at hread
    · obtain ⟨⟨n, _⟩, hn, hread⟩ := bind_eq_ok_iff.1 hread
      cases hread
      exact .number (JsonNumber.inRange_of_read hn)
    · contradiction

/-- Whatever is read, with any fuel, is in bounds. -/
theorem readsWithin (fuel : Nat) : ReadsWithin fuel := by
  induction fuel with
  | zero =>
    exact ⟨fun h => by contradiction, fun h => by contradiction, fun _ h => by contradiction⟩
  | succ fuel ih =>
    refine ⟨ih.succ_value, ?items, ?members⟩
    case items =>
      intro depth cs rest items hread
      unfold readItems at hread
      obtain ⟨⟨item, after⟩, hitem, hread⟩ := bind_eq_ok_iff.1 hread
      dsimp only at hread
      split at hread
      · obtain ⟨⟨others, _⟩, hothers, hread⟩ := bind_eq_ok_iff.1 hread
        cases hread
        exact List.forall_mem_cons.2 ⟨ih.value hitem, ih.items hothers⟩
      · cases hread
        exact List.forall_mem_singleton.2 (ih.value hitem)
      · contradiction
    case members =>
      intro depth before members cs rest hbefore hread
      unfold readMembers at hread
      obtain ⟨⟨key, after⟩, -, hread⟩ := bind_eq_ok_iff.1 hread
      obtain ⟨colon, -, hread⟩ := bind_eq_ok_iff.1 hread
      obtain ⟨⟨value, after⟩, hvalue, hread⟩ := bind_eq_ok_iff.1 hread
      have hput := hbefore.put key (ih.value hvalue)
      dsimp only at hread
      split at hread
      · exact ih.members hput hread
      · cases hread
        exact hput
      · contradiction

/-- The value of a text is in the reader's bounds. -/
theorem within_of_read {text : String} {value : Json} (h : read text = .ok value) :
    Within JsonNumber.InRange greatestDepth value := by
  obtain ⟨⟨value, rest⟩, hvalue, h⟩ := bind_eq_ok_iff.1 h
  dsimp only at h
  split at h
  · cases h
    exact (readsWithin _).value hvalue
  · contradiction

/-- A value that was read is read back from its text if its binary numbers are. -/
theorem readsBack_of_read {text : String} {value : Json} (h : read text = .ok value)
    (hbinary : ∀ x, .binary x ∈ value.numbers → (JsonNumber.binary x).ReadsBack) :
    Within JsonNumber.ReadsBack greatestDepth value :=
  (within_of_read h).imp fun n hmem hrange =>
    match n, hmem, hrange with
    | .whole _, _, hrange => JsonNumber.readsBack_whole hrange
    | .binary x, hmem, _ => hbinary x hmem

/-- A value does not start with white space of any kind. -/
theorem not_blank_of_readValue {fuel depth : Nat} {cs rest : List Char} {value : Json}
    (h : readValue fuel depth cs = .ok (value, rest)) : ∃ c ∈ cs, Text.isBlank c = false := by
  cases fuel with
  | zero => contradiction
  | succ fuel =>
    unfold readValue at h
    split at h
    · contradiction
    · next c tail hskip =>
      have hmem : c ∈ cs := (List.dropWhile_suffix _).subset (hskip ▸ List.mem_cons_self)
      refine ⟨c, hmem, ?_⟩
      by_contra hblank
      rw [Bool.not_eq_false] at hblank
      have hne : ∀ d, Text.isBlank d = false → c ≠ d := by
        rintro d hd rfl
        rw [hd] at hblank
        contradiction
      have hdigit : c.isDigit = false := by
        by_contra hd
        have hrange : 48 ≤ c.toNat ∧ c.toNat ≤ 57 := Char.isDigit_iff_toNat.1 (by simpa using hd)
        simp only [Text.isBlank, Bool.or_eq_true, Bool.and_eq_true, decide_eq_true_eq, beq_iff_eq] at hblank
        omega
      simp [hne '"' rfl, hne '[' rfl, hne '{' rfl, hne 'n' rfl, hne 't' rfl, hne 'f' rfl, hne '-' rfl, hdigit] at h

/-- A text that reads as a value is not blank. -/
theorem blank_eq_false_of_read {text : String} {value : Json} (h : read text = .ok value) :
    Text.blank text = false := by
  obtain ⟨⟨_, _⟩, hvalue, -⟩ := bind_eq_ok_iff.1 h
  obtain ⟨c, hc, hblank⟩ := not_blank_of_readValue hvalue
  rw [Text.blank, List.all_eq_false]
  exact ⟨c, hc, by simp [hblank]⟩

end SignOff.Json
