import SignOff.Json.Form
import SignOff.Proofs.Results

/-!
# What typed readers yield

Whatever the text, an integer that is read is one of those asked for, and the parts of a value that is read are
read by the readers of the parts. For a record this holds in its object and in its array form: every field has a
value from its reader, or the one that stands for a missing field.
-/

namespace SignOff.Json

variable {α : Type}

/-- The reader takes the value off some text. -/
def Yields (read : Reader α) (value : α) : Prop := ∃ cs rest, read cs = .ok (value, rest)

/-- A reader of whole numbers keeps its bounds. -/
theorem bounds_of_yields {least greatest n : Int} (h : Yields (readInteger least greatest) n) :
    least ≤ n ∧ n ≤ greatest := by
  obtain ⟨cs, rest, h⟩ := h
  unfold readInteger at h
  split at h
  · split at h
    · obtain ⟨⟨number, _⟩, -, h⟩ := bind_eq_ok_iff.1 h
      cases number with
      | whole m =>
        dsimp only at h
        split at h
        · next hbounds =>
          cases h
          exact hbounds
        · contradiction
      | binary x => contradiction
    · contradiction
  · contradiction

/-- A reader of natural numbers keeps its bound. -/
theorem le_of_yields {greatest n : Nat} (h : Yields (readNatural greatest) n) : n ≤ greatest := by
  obtain ⟨cs, rest, h⟩ := h
  obtain ⟨⟨m, _⟩, hm, h⟩ := bind_eq_ok_iff.1 h
  cases h
  have hbounds := bounds_of_yields ⟨cs, _, hm⟩
  omega

/-- A value in place of null is one of its reader. -/
theorem yields_of_optional {read : Reader α} {value? : Option α} (h : Yields (readOptional read) value?) :
    ∀ value ∈ value?, Yields read value := by
  obtain ⟨cs, rest, h⟩ := h
  unfold readOptional at h
  split at h
  · obtain ⟨_, -, h⟩ := bind_eq_ok_iff.1 h
    cases h
    simp
  · obtain ⟨⟨value, _⟩, hvalue, h⟩ := bind_eq_ok_iff.1 h
    cases h
    intro _ heq
    cases heq
    exact ⟨_, _, hvalue⟩

/-! ## Arrays -/

/-- Each element that is read is one of its reader. -/
theorem yields_of_elements {read : Reader α} {fuel : Nat} {first : Bool} {cs rest : List Char} {values : List α}
    (h : readElements read fuel first cs = .ok (values, rest)) : ∀ value ∈ values, Yields read value := by
  induction fuel generalizing first cs values with
  | zero => contradiction
  | succ fuel ih =>
    unfold readElements at h
    obtain ⟨start?, -, h⟩ := bind_eq_ok_iff.1 h
    cases start? with
    | none =>
      obtain ⟨_, -, h⟩ := bind_eq_ok_iff.1 h
      cases h
      simp
    | some start =>
      obtain ⟨⟨value, _⟩, hvalue, h⟩ := bind_eq_ok_iff.1 h
      obtain ⟨⟨others, _⟩, hothers, h⟩ := bind_eq_ok_iff.1 h
      cases h
      exact List.forall_mem_cons.2 ⟨⟨_, _, hvalue⟩, ih hothers⟩

/-- The elements of an array are values of their reader. -/
theorem yields_of_list {read : Reader α} {values : List α} (h : Yields (readList read) values) :
    ∀ value ∈ values, Yields read value := by
  obtain ⟨cs, rest, h⟩ := h
  unfold readList at h
  split at h
  · exact yields_of_elements h
  · contradiction

/-! ## Records -/

/-- The values of a field: what its reader yields, and what stands for a field that is missing. -/
inductive Field.Yields (field : Field α) : α → Prop
  | read {value : α} (h : Json.Yields field.read value) : field.Yields value
  | absent {value : α} (h : field.absent = some value) : field.Yields value
  | short {value : α} (h : field.short = some value) : field.Yields value

/-- A field that has to be there has a value of its reader. -/
theorem Field.Yields.of_required {name : String} {read : Reader α} {value : α}
    (h : (required name read).Yields value) : Json.Yields read value := by
  cases h with
  | read h => exact h
  | absent h => contradiction
  | short h => contradiction

/-- A field that may be missing is null there. -/
theorem Field.Yields.of_optional {name : String} {read : Reader α} {value? : Option α}
    (h : (optional name read).Yields value?) : ∀ value ∈ value?, Json.Yields read value := by
  cases h with
  | read h => exact yields_of_optional h
  | absent h =>
    cases h
    simp
  | short h => contradiction

namespace Fields

/-- Each field has a value of its own. -/
def Yields : {types : List Type} → Fields types → Row types → Prop
  | _, .nil, _ => True
  | _, .cons field rest, (value, row) => field.Yields value ∧ rest.Yields row

/-- Each slot that is filled holds a value of its field's reader. -/
def Filled : {types : List Type} → Fields types → Slots types → Prop
  | _, .nil, _ => True
  | _, .cons field rest, (slot, slots) => (∀ value ∈ slot, Json.Yields field.read value) ∧ rest.Filled slots

variable {types : List Type} {fields : Fields types} {slots : Slots types} {row : Row types}

/-- Empty slots hold nothing that is not of its reader. -/
theorem filled_empty (fields : Fields types) : fields.Filled fields.empty := by
  induction fields with
  | nil => trivial
  | cons field rest ih => exact ⟨by simp, ih⟩

/-- Reading a member fills a slot with a value of its field's reader, or none. -/
theorem Filled.readMember {slots' : Slots types} {key : String} {cs rest : List Char} (h : fields.Filled slots)
    (hread : fields.readMember key slots cs = .ok (slots', rest)) : fields.Filled slots' := by
  induction fields with
  | nil => trivial
  | cons field fields ih =>
    obtain ⟨slot, slots⟩ := slots
    by_cases hkey : key = field.name
    · cases slot with
      | some old => simp [Fields.readMember, hkey] at hread
      | none =>
        rw [Fields.readMember, if_pos hkey] at hread
        obtain ⟨_, -, hread⟩ := bind_eq_ok_iff.1 hread
        obtain ⟨⟨value, _⟩, hvalue, hread⟩ := bind_eq_ok_iff.1 hread
        cases hread
        refine ⟨?_, h.2⟩
        rintro _ ⟨⟩
        exact ⟨_, _, hvalue⟩
    · have hrest : (fields.readMember key slots cs >>= fun found => .ok ((slot, found.1), found.2)) =
          .ok (slots', rest) := by
        cases slot <;> rwa [Fields.readMember, if_neg hkey] at hread
      obtain ⟨⟨_, _⟩, hothers, hrest⟩ := bind_eq_ok_iff.1 hrest
      cases hrest
      exact ⟨h.1, ih h.2 hothers⟩

/-- Filled slots, and values for the fields that are missing, make up the row of an object. -/
theorem Filled.complete (h : fields.Filled slots) (hrow : fields.complete slots = .ok row) : fields.Yields row := by
  induction fields with
  | nil => trivial
  | cons field fields ih =>
    obtain ⟨slot, slots⟩ := slots
    rw [Fields.complete] at hrow
    split at hrow
    · contradiction
    · next value hvalue =>
      obtain ⟨_, hothers, hrow⟩ := bind_eq_ok_iff.1 hrow
      cases hrow
      refine ⟨?_, ih h.2 hothers⟩
      cases slot with
      | some _ =>
        cases hvalue
        exact .read (h.1 _ rfl)
      | none => exact .absent hvalue

/-- An object ends with its row, or goes on with one more member. -/
theorem cases_of_object {fuel : Nat} {first : Bool} {cs rest : List Char}
    (h : fields.readObject (fuel + 1) first slots cs = .ok (row, rest)) :
    fields.complete slots = .ok row ∨ ∃ key colon slots' after,
      fields.readMember key slots colon = .ok (slots', after) ∧
        fields.readObject fuel false slots' after = .ok (row, rest) := by
  have hmember {quote : List Char} (h : (stringTail quote >>= fun key =>
      fields.readMember (String.ofList key.1) slots key.2 >>= fun found =>
        fields.readObject fuel false found.1 found.2) = .ok (row, rest)) :
      ∃ key colon slots' after, fields.readMember key slots colon = .ok (slots', after) ∧
        fields.readObject fuel false slots' after = .ok (row, rest) := by
    obtain ⟨⟨_, _⟩, -, h⟩ := bind_eq_ok_iff.1 h
    obtain ⟨⟨_, _⟩, hslots, h⟩ := bind_eq_ok_iff.1 h
    exact ⟨_, _, _, _, hslots, h⟩
  rw [readObject] at h
  split at h
  · obtain ⟨_, hrow, h⟩ := bind_eq_ok_iff.1 h
    cases h
    exact .inl hrow
  · split at h
    · exact .inr (hmember h)
    · contradiction
  · split at h
    · contradiction
    · split at h
      · exact .inr (hmember h)
      · contradiction
  · contradiction

/-- The row of an object whose members are set into slots one after another. -/
theorem yields_of_object {fuel : Nat} {first : Bool} {cs rest : List Char} (h : fields.Filled slots)
    (hread : fields.readObject fuel first slots cs = .ok (row, rest)) : fields.Yields row := by
  induction fuel generalizing first slots cs with
  | zero => contradiction
  | succ fuel ih =>
    rcases cases_of_object hread with hrow | ⟨_, _, _, _, hslots, hread⟩
    · exact h.complete hrow
    · exact ih (h.readMember hslots) hread

/-- The row of an array whose elements are the fields in order. -/
theorem yields_of_array {first : Bool} {cs rest : List Char}
    (hread : fields.readArray first cs = .ok (row, rest)) : fields.Yields row := by
  induction fields generalizing first cs with
  | nil => trivial
  | cons field fields ih =>
    unfold readArray at hread
    obtain ⟨start?, -, hread⟩ := bind_eq_ok_iff.1 hread
    cases start? with
    | none =>
      dsimp only at hread
      split at hread
      · contradiction
      · next value hvalue =>
        obtain ⟨⟨_, _⟩, hothers, hread⟩ := bind_eq_ok_iff.1 hread
        cases hread
        exact ⟨.short hvalue, ih hothers⟩
    | some start =>
      obtain ⟨⟨_, _⟩, hvalue, hread⟩ := bind_eq_ok_iff.1 hread
      obtain ⟨⟨_, _⟩, hothers, hread⟩ := bind_eq_ok_iff.1 hread
      cases hread
      exact ⟨.read ⟨_, _, hvalue⟩, ih hothers⟩

end Fields

/-- A record is built of a row in which each field has a value of its own. -/
theorem exists_row_of_yields {types : List Type} {fields : Fields types} {build : Row types → α} {value : α}
    (h : Yields (readRecord fields build) value) : ∃ row, fields.Yields row ∧ build row = value := by
  obtain ⟨cs, rest, h⟩ := h
  unfold readRecord at h
  split at h
  · obtain ⟨⟨row, _⟩, hrow, h⟩ := bind_eq_ok_iff.1 h
    cases h
    exact ⟨row, Fields.yields_of_object fields.filled_empty hrow, rfl⟩
  · obtain ⟨⟨row, _⟩, hrow, h⟩ := bind_eq_ok_iff.1 h
    cases h
    exact ⟨row, Fields.yields_of_array hrow, rfl⟩
  · contradiction

end SignOff.Json
