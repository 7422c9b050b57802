import Mathlib.Data.List.Basic
import SignOff.Document

/-!
# Places of slots and steps

A slot has a place: its approver, and how many slots of the same approver stand before it. The step at a
place is found by counting the steps of that approver. Dating the slots that a decision hits is filling in
a date at the places whose step has been decided, and to fill in twice is to fill in once.
-/

namespace SignOff.Document

/-- The approvers of slots, in their order; a slot without one does not count. -/
def slotApprovers (slots : List (String × Json)) : List String :=
  slots.filterMap fun entry => slotApprover? entry.2

/-- The place of the slot with index `i`: its approver, and how many slots of the approver stand before it. -/
def place? (slots : List (String × Json)) (i : Nat) : Option (String × Nat) :=
  (slots[i]?.bind fun entry => slotApprover? entry.2).map fun approver =>
    (approver, (slotApprovers (slots.take i)).count approver)

/-- The step at a place, counted among the steps of the approver. -/
def stepAt? (steps : List Step) (place : String × Nat) : Option Step :=
  (steps.filter fun s => s.approver = place.1)[place.2]?

/-- The slots, with a date in each whose place has one. -/
def fill (date? : String × Nat → Option String) (slots : List (String × Json)) : List (String × Json) :=
  slots.mapIdx fun i entry =>
    match (place? slots i).bind date? with
    | some date => (entry.1, dated date entry.2)
    | none => entry

/-! ## Slots -/

/-- A date is no approver, so a slot keeps the one it has. -/
@[simp] theorem slotApprover?_dated (date : String) (slot : Json) :
    slotApprover? (dated date slot) = slotApprover? slot := by
  cases slot with
  | object members =>
    have hne : approverKey ≠ dateKey := by decide
    simp only [dated, slotApprover?, Json.member?, Entries.lookup_put_of_ne hne]
  | _ => rfl

/-- The later of two dates stays. -/
@[simp] theorem dated_dated (date old : String) (slot : Json) :
    dated date (dated old slot) = dated date slot := by
  cases slot with
  | object members => simp only [dated, Entries.put_put]
  | _ => rfl

/-- The places depend on the approvers of the slots only. -/
theorem place?_congr {slots other : List (String × Json)}
    (h : slots.map (fun entry => slotApprover? entry.2) = other.map fun entry => slotApprover? entry.2) (i : Nat) :
    place? slots i = place? other i := by
  have happrovers (entries : List (String × Json)) : slotApprovers entries =
      (entries.map fun entry => slotApprover? entry.2).filterMap id := by
    simp [slotApprovers]
  have hslot (entries : List (String × Json)) : entries[i]?.bind (fun entry => slotApprover? entry.2) =
      (entries.map fun entry => slotApprover? entry.2)[i]?.bind id := by
    cases hentry : entries[i]? <;> simp [hentry]
  rw [place?, place?, hslot, hslot, happrovers, happrovers, List.map_take, List.map_take, h]

section Fill

variable {date? other? : String × Nat → Option String} {slots : List (String × Json)}

/-- Filling in dates changes a slot by the date for its place, if there is one. -/
theorem getElem?_fill (i : Nat) :
    (fill date? slots)[i]? = slots[i]?.map fun entry =>
      match (place? slots i).bind date? with
      | some date => (entry.1, dated date entry.2)
      | none => entry := by
  rw [fill, List.getElem?_mapIdx]

/-- Filling in dates keeps the keys of the slots. -/
@[simp] theorem keys_fill : (fill date? slots).map Prod.fst = slots.map Prod.fst := by
  apply List.ext_getElem?
  intro i
  rw [List.getElem?_map, List.getElem?_map, getElem?_fill, Option.map_map]
  congr 1
  funext entry
  simp only [Function.comp_apply]
  split <;> rfl

/-- Filling in dates keeps the approver of each slot. -/
theorem map_slotApprover?_fill :
    (fill date? slots).map (fun entry => slotApprover? entry.2) =
      slots.map fun entry => slotApprover? entry.2 := by
  apply List.ext_getElem?
  intro i
  rw [List.getElem?_map, List.getElem?_map, getElem?_fill, Option.map_map]
  congr 1
  funext entry
  simp only [Function.comp_apply]
  split <;> simp

/-- Filling in dates keeps the places of the slots. -/
@[simp] theorem place?_fill (i : Nat) : place? (fill date? slots) i = place? slots i :=
  place?_congr map_slotApprover?_fill i

/-- To fill in dates twice is to fill them in once, where the later dates go first. -/
theorem fill_fill : fill date? (fill other? slots) = fill (fun place => (date? place).or (other? place)) slots := by
  apply List.ext_getElem?
  intro i
  rw [getElem?_fill, getElem?_fill, getElem?_fill, place?_fill, Option.map_map]
  congr 1
  funext entry
  cases hplace : place? slots i with
  | none => simp
  | some place => cases hdate : date? place <;> cases hother : other? place <;> simp [hdate, hother]

/-- Only the dates at the places of the slots matter. -/
theorem fill_congr (h : ∀ i place, place? slots i = some place → date? place = other? place) :
    fill date? slots = fill other? slots := by
  apply List.ext_getElem?
  intro i
  have hbind : (place? slots i).bind date? = (place? slots i).bind other? := by
    cases hplace : place? slots i with
    | none => rfl
    | some place => exact h i place hplace
  rw [getElem?_fill, getElem?_fill, hbind]

/-- Without a date nothing is filled in. -/
theorem fill_eq_self (h : ∀ i place, place? slots i = some place → date? place = none) :
    fill date? slots = slots := by
  apply List.ext_getElem?
  intro i
  have hbind : (place? slots i).bind date? = none := by
    cases hplace : place? slots i with
    | none => rfl
    | some place => exact h i place hplace
  rw [getElem?_fill, hbind, Option.map_id']

end Fill

/-! ## Occurrences -/

/-- A step is the one at the place that it has among the steps. -/
theorem stepAt?_of_getElem? {steps : List Step} {i : Nat} {s : Step} (h : steps[i]? = some s) :
    stepAt? steps (s.approver, ((steps.take i).map Step.approver).count s.approver) = some s := by
  obtain ⟨hi, hget⟩ := List.getElem?_eq_some_iff.1 h
  have hbefore : ((steps.take i).map Step.approver).count s.approver =
      ((steps.take i).filter fun t => t.approver = s.approver).length := by
    rw [← List.countP_eq_length_filter, List.count, List.countP_map]
    rfl
  have hsplit : steps = steps.take i ++ s :: steps.drop (i + 1) := by
    rw [← hget, ← List.drop_eq_getElem_cons hi, List.take_append_drop]
  have hfilter := congrArg (List.filter fun t => t.approver = s.approver) hsplit
  rw [List.filter_append, List.filter_cons_of_pos (by simp)] at hfilter
  rw [stepAt?, hfilter, hbefore, List.getElem?_append_right (Nat.le_refl _), Nat.sub_self, List.getElem?_cons_zero]

/-- An occurrence is a target exactly when the step at its place has been decided. -/
theorem mem_targets_iff {steps : List Step} {decided : List Nat} {place : String × Nat} :
    (place.1, place.2 + 1) ∈ targets steps decided ↔
      ∃ s, stepAt? steps place = some s ∧ s.sequence ∈ decided := by
  obtain ⟨approver, earlier⟩ := place
  -- Steps that have been counted already only shift the count.
  suffices hseen : ∀ (seen : List String) (n : Nat),
      (approver, n) ∈ ((occurrences seen (steps.map Step.approver)).zip steps).filterMap
          (fun entry => if decided.contains entry.2.sequence then some entry.1 else none) ↔
        ∃ k s, (steps.filter fun s => s.approver = approver)[k]? = some s ∧ s.sequence ∈ decided ∧
          n = seen.count approver + k + 1 by
    refine (hseen [] (earlier + 1)).trans ?_
    constructor
    · rintro ⟨k, s, hs, hdecided, hk⟩
      obtain rfl : earlier = k := by simpa using hk
      exact ⟨s, hs, hdecided⟩
    · rintro ⟨s, hs, hdecided⟩
      exact ⟨earlier, s, hs, hdecided, by simp⟩
  induction steps with
  | nil => simp [occurrences]
  | cons first rest ih =>
    intro seen n
    have hmem : ∀ (l : List ((String × Nat) × Step)) (occurrence : String × Nat),
        (approver, n) ∈ ((occurrence, first) :: l).filterMap
            (fun entry => if decided.contains entry.2.sequence then some entry.1 else none) ↔
          (first.sequence ∈ decided ∧ (approver, n) = occurrence) ∨ (approver, n) ∈ l.filterMap
            (fun entry => if decided.contains entry.2.sequence then some entry.1 else none) := by
      intro l occurrence
      by_cases hdecided : first.sequence ∈ decided <;> simp [hdecided]
    rw [List.map_cons, occurrences, List.zip_cons_cons, hmem, ih]
    by_cases happrover : first.approver = approver
    · rw [List.filter_cons_of_pos (by simpa using happrover), happrover, List.count_cons_self]
      constructor
      · rintro (⟨hdecided, heq⟩ | ⟨k, s, hs, hdecided, rfl⟩)
        · exact ⟨0, first, rfl, hdecided, (Prod.mk.inj heq).2⟩
        · exact ⟨k + 1, s, hs, hdecided, by omega⟩
      · rintro ⟨k, s, hs, hdecided, rfl⟩
        cases k with
        | zero =>
          rw [List.getElem?_cons_zero, Option.some.injEq] at hs
          exact Or.inl ⟨hs ▸ hdecided, rfl⟩
        | succ k => exact Or.inr ⟨k, s, hs, hdecided, by omega⟩
    · rw [List.filter_cons_of_neg (by simpa using happrover), List.count_cons_of_ne happrover]
      constructor
      · rintro (⟨-, heq⟩ | hrest)
        · exact absurd (Prod.mk.inj heq).1.symm happrover
        · exact hrest
      · exact Or.inr

/-- The place of a slot, where `seen` holds the approvers of slots in front of all these. -/
def placeAfter? (seen : List String) (slots : List (String × Json)) (i : Nat) : Option (String × Nat) :=
  (slots[i]?.bind fun entry => slotApprover? entry.2).map fun approver =>
    (approver, seen.count approver + (slotApprovers (slots.take i)).count approver)

/-- With no approvers before, the place of a slot is its place among the slots. -/
theorem placeAfter?_nil (slots : List (String × Json)) (i : Nat) : placeAfter? [] slots i = place? slots i := by
  simp [placeAfter?, place?]

/-- The place of the first slot is its approver with how often that has been seen before. -/
theorem placeAfter?_zero (seen : List String) (first : String × Json) (rest : List (String × Json)) :
    placeAfter? seen (first :: rest) 0 =
      (slotApprover? first.2).map fun approver => (approver, seen.count approver) := by
  simp [placeAfter?, slotApprovers]

/-- The approver of the first slot, if it has one, is seen before the others. -/
theorem placeAfter?_succ (seen : List String) (first : String × Json) (rest : List (String × Json)) (i : Nat) :
    placeAfter? seen (first :: rest) (i + 1) = placeAfter? ((slotApprover? first.2).toList ++ seen) rest i := by
  have hcount (approver : String) : (slotApprovers (first :: rest.take i)).count approver =
      (slotApprover? first.2).toList.count approver + (slotApprovers (rest.take i)).count approver := by
    rw [slotApprovers, List.filterMap_cons, slotApprovers]
    cases slotApprover? first.2 with
    | none => simp
    | some name => simp [List.count_cons, Nat.add_comm]
  simp only [placeAfter?, List.getElem?_cons_succ, List.take_succ_cons, hcount, List.count_append]
  congr 1
  funext approver
  congr 1
  omega

/-- Exactly the slots whose places are hit are dated. -/
theorem getElem?_dateSlots (hits : List (String × Nat)) (date : String) (seen : List String)
    (slots : List (String × Json)) (i : Nat) :
    (dateSlots hits date seen slots).1[i]? = slots[i]?.map fun entry =>
      if (placeAfter? seen slots i).any fun place => hits.contains (place.1, place.2 + 1) then
        (entry.1, dated date entry.2)
      else entry := by
  induction slots generalizing seen i with
  | nil => simp [dateSlots]
  | cons first rest ih =>
    obtain ⟨key, slot⟩ := first
    cases hslot : slotApprover? slot with
    | none =>
      cases i with
      | zero => simp [dateSlots, hslot, placeAfter?_zero]
      | succ i => simp [dateSlots, hslot, placeAfter?_succ, ih]
    | some approver =>
      cases i with
      | zero =>
        by_cases hhit : (approver, seen.count approver + 1) ∈ hits <;>
          simp [dateSlots, hslot, placeAfter?_zero, hhit]
      | succ i =>
        by_cases hhit : (approver, seen.count approver + 1) ∈ hits <;>
          simp [dateSlots, hslot, placeAfter?_succ, hhit, ih]

/-- No slot is dated exactly when no place is hit. -/
theorem dateSlots_snd_eq_zero_iff_after {hits : List (String × Nat)} {date : String} {seen : List String}
    {slots : List (String × Json)} :
    (dateSlots hits date seen slots).2 = 0 ↔
      ∀ i place, placeAfter? seen slots i = some place → (place.1, place.2 + 1) ∉ hits := by
  induction slots generalizing seen with
  | nil => simp [dateSlots, placeAfter?]
  | cons first rest ih =>
    obtain ⟨key, slot⟩ := first
    have hsplit : (∀ i place, placeAfter? seen ((key, slot) :: rest) i = some place →
          (place.1, place.2 + 1) ∉ hits) ↔
        (∀ place, placeAfter? seen ((key, slot) :: rest) 0 = some place → (place.1, place.2 + 1) ∉ hits) ∧
          ∀ i place, placeAfter? seen ((key, slot) :: rest) (i + 1) = some place →
            (place.1, place.2 + 1) ∉ hits :=
      ⟨fun h => ⟨h 0, fun i => h (i + 1)⟩, fun h i => Nat.casesOn i h.1 h.2⟩
    rw [hsplit]
    simp only [placeAfter?_zero, placeAfter?_succ]
    cases hslot : slotApprover? slot with
    | none => simp [dateSlots, hslot, ih]
    | some approver =>
      by_cases hhit : (approver, seen.count approver + 1) ∈ hits <;>
        simp [dateSlots, hslot, hhit, ih]

/-- Dating slots is filling in the date at the places that are hit. -/
theorem dateSlots_fst (hits : List (String × Nat)) (date : String) (slots : List (String × Json)) :
    (dateSlots hits date [] slots).1 =
      fill (fun place => if (place.1, place.2 + 1) ∈ hits then some date else none) slots := by
  apply List.ext_getElem?
  intro i
  rw [getElem?_dateSlots, getElem?_fill, placeAfter?_nil]
  congr 1
  funext entry
  cases hplace : place? slots i with
  | none => simp
  | some place => by_cases hhit : (place.1, place.2 + 1) ∈ hits <;> simp [hhit]

/-- No slot is dated exactly when no place is hit. -/
theorem dateSlots_snd_eq_zero_iff {hits : List (String × Nat)} {date : String} {slots : List (String × Json)} :
    (dateSlots hits date [] slots).2 = 0 ↔
      ∀ i place, place? slots i = some place → (place.1, place.2 + 1) ∉ hits := by
  simp only [dateSlots_snd_eq_zero_iff_after, placeAfter?_nil]

end SignOff.Document
