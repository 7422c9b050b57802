import SignOff.Proofs.Approval.Deciding
import SignOff.Store.Shelf

/-!
# What a unit on a shelf sees

A unit sees its own writes and below them the chains of the shelf. A commit goes through exactly when
every chain that the unit has written is on the shelf in its base version.
-/

namespace SignOff.Shelf

variable {shelf : Shelf} {unit : Session} {id : String}

/-- The chain that a unit sees for an application. -/
def view (shelf : Shelf) (unit : Session) (id : String) : Option Chain :=
  (unit.staged.lookup id).or (shelf.get? id)

/-- The version of a chain on the shelf. -/
def storedVersion? (shelf : Shelf) (id : String) : Option Int :=
  (shelf.get? id).map fun chain => chain.application.version

/-- A load answers with what the unit sees. -/
theorem load_fst (shelf : Shelf) (unit : Session) (id : String) :
    (load shelf unit id).1 = view shelf unit id := by
  unfold load view
  cases unit.staged.lookup id with
  | some chain => rfl
  | none => cases shelf.get? id <;> rfl

/-- A load leaves the writes of the unit as they are. -/
theorem load_staged (shelf : Shelf) (unit : Session) (id : String) :
    (load shelf unit id).2.staged = unit.staged := by
  unfold load
  cases unit.staged.lookup id with
  | some chain => rfl
  | none => cases shelf.get? id <;> rfl

/-- A load fixes the version of a chain that the unit has not written and not met before. -/
theorem load_bases (shelf : Shelf) (unit : Session) (id : String) :
    (load shelf unit id).2.bases = unit.bases ∨
      ∃ chain, shelf.get? id = some chain ∧
        (load shelf unit id).2.bases = Entries.putNew id chain.application.version unit.bases := by
  unfold load
  cases unit.staged.lookup id with
  | some chain => exact Or.inl rfl
  | none =>
    cases shelf.get? id with
    | none => exact Or.inl rfl
    | some chain => exact Or.inr ⟨chain, rfl, rfl⟩

/-- The unit with a record set aside. -/
def Session.take (unit : Session) (record : Record) : Session where
  staged := Entries.put record.chain.application.id record.chain unit.staged
  bases := Entries.putNew record.chain.application.id record.expectedVersion unit.bases

/-- A record is taken in exactly when it was made on the version that the unit sees. -/
theorem store_eq (shelf : Shelf) (unit : Session) (record : Record) :
    store shelf unit record =
      if (view shelf unit record.chain.application.id).map (fun c => c.application.version) =
          some record.expectedVersion then
        (.ok (), unit.take record)
      else (.error (.concurrentModification record.chain.application.id), unit) := rfl

section Decided

variable {record : Record} {seen chain : Chain} {command : Command} {pattern : String} {today : Date}

/-- A record made on the version that the unit sees is taken in. -/
theorem store_of_decide (hview : view shelf unit chain.application.id = some seen)
    (hdecide : chain.decide command pattern today = .ok record)
    (hversion : seen.application.version = chain.application.version) :
    store shelf unit record = (.ok (), unit.take record) := by
  rw [store_eq, Chain.id_of_decide hdecide, hview, Option.map_some, Chain.expectedVersion_of_decide hdecide,
    if_pos (congrArg some hversion)]

/-- A record made on another version than the unit sees is refused. -/
theorem store_of_decide_of_ne (hview : view shelf unit chain.application.id = some seen)
    (hdecide : chain.decide command pattern today = .ok record)
    (hversion : seen.application.version ≠ chain.application.version) :
    store shelf unit record = (.error (.concurrentModification chain.application.id), unit) := by
  rw [store_eq, Chain.id_of_decide hdecide, hview, Option.map_some, Chain.expectedVersion_of_decide hdecide,
    if_neg (by simpa using hversion)]

end Decided

/-- The chain of a record set aside is written under its id. -/
theorem lookup_staged_take (unit : Session) (record : Record) (id : String) :
    (unit.take record).staged.lookup id =
      if id = record.chain.application.id then some record.chain else unit.staged.lookup id :=
  Entries.lookup_put _ _ _ _

/-- A unit sees the chain of a record that it has set aside, and the others as before. -/
theorem view_take (shelf : Shelf) (unit : Session) (record : Record) :
    view shelf (unit.take record) =
      Function.update (view shelf unit) record.chain.application.id (some record.chain) := by
  funext id
  rw [view, lookup_staged_take]
  by_cases heq : id = record.chain.application.id
  · rw [if_pos heq, Option.some_or, heq, Function.update_self]
  · rw [if_neg heq, Function.update_of_ne heq, view]

/-- There is no conflict exactly when all that the unit has written is in its base version. -/
theorem conflict?_eq_none_iff :
    conflict? shelf unit = none ↔ ∀ id base, (id, base) ∈ unit.bases →
      (unit.staged.lookup id).isSome = true → storedVersion? shelf id = some base := by
  rw [conflict?, Option.map_eq_none_iff, List.find?_eq_none]
  constructor
  · intro h id base hmem hstaged
    have := h (id, base) hmem
    simpa [hstaged, storedVersion?] using this
  · intro h entry hmem
    obtain ⟨id, base⟩ := entry
    have := h id base hmem
    simp only [storedVersion?] at this
    simpa using this

/-- A conflict is reported for an application that the unit has written. -/
theorem conflict?_eq_some {id : String} (h : conflict? shelf unit = some id) :
    ∃ base, (id, base) ∈ unit.bases ∧ (unit.staged.lookup id).isSome = true ∧
      storedVersion? shelf id ≠ some base := by
  obtain ⟨⟨key, base⟩, hfind, rfl⟩ := Option.map_eq_some_iff.1 h
  have hcheck := List.find?_some hfind
  simp only [Bool.and_eq_true, bne_iff_ne, ne_eq] at hcheck
  exact ⟨base, List.mem_of_find?_eq_some hfind, hcheck.1, hcheck.2⟩

/-- A commit without a conflict replaces the chains that the unit has written. -/
theorem commit_of_conflict?_eq_none (h : conflict? shelf unit = none) :
    commit shelf unit = (.ok (), ⟨Entries.putAll unit.staged shelf.chains⟩) := by
  simp [commit, h]

end SignOff.Shelf
