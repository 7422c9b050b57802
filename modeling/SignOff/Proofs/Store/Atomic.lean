import SignOff.Proofs.Store.Serial

/-!
# Refusals leave a store as it was

Work in a unit of its own ends with a commit or leaves the store alone, wherever in between it is refused:
before the unit is open, at any operation in it after others have been carried out, or by the commit
itself. Whatever the unit has written by then goes with the unit. Single decisions and batches are such work.
-/

namespace SignOff

open UnitStore

/-- The answer is no refusal, or the state that comes with it is the one from before. -/
def Atomic {σ α : Type} (before : σ) (result : Except Refusal α × σ) : Prop :=
  ∀ refusal, result.1 = .error refusal → result.2 = before

section

variable {σ : Type} {α : Type} {s : σ}

/-- A refusal that comes with the store as it was is atomic. -/
theorem atomic_error (refusal : Refusal) : Atomic s ((.error refusal, s) : Except Refusal α × σ) :=
  fun _ _ => rfl

/-- An answer is atomic, whatever store it comes with. -/
theorem atomic_ok (answer : α) (after : σ) : Atomic s ((.ok answer, after) : Except Refusal α × σ) :=
  fun _ h => by cases h

end

variable {σ υ : Type} [UnitStore σ υ] [SideBySide σ] [SerialStore σ υ]

/-- Work in a unit of its own leaves the store alone when it is refused, whatever the unit has written. -/
theorem UnitStore.inUnit_atomic {α : Type} (s : σ) (work : υ → Except Refusal α × υ) :
    Atomic s (inUnit s work) := by
  unfold inUnit
  cases openUnit s with
  | error refusal => exact atomic_error refusal
  | ok u =>
    simp only
    rcases work u with ⟨refusal | answer, u'⟩
    · exact atomic_error refusal
    · simp only
      rcases hcommit : commit s u' with ⟨refusal | done, after⟩
      · rw [SerialStore.commit_error hcommit]
        exact atomic_error refusal
      · exact atomic_ok answer after

namespace Service

variable (policy : Policy) (today : Date) (s : σ)

/-- A single decision that is refused leaves the store alone. -/
theorem decide_atomic (request : DecisionRequest) : Atomic s (decide policy today s request) := by
  unfold decide
  cases request.command with
  | error refusal => exact atomic_error refusal
  | ok command => exact inUnit_atomic s _

/-- A batch that is refused leaves the store alone, at whichever item that happens. -/
theorem bulkDecide_atomic (items : List DecisionRequest) :
    Atomic s (bulkDecide policy today s items) := by
  unfold bulkDecide
  by_cases hlong : policy.bulkMaxItems < items.length
  · rw [if_pos hlong]
    exact atomic_error _
  · rw [if_neg hlong]
    by_cases hnone : items.isEmpty = true
    · rw [if_pos hnone]
      exact atomic_ok _ s
    · rw [if_neg hnone]
      exact inUnit_atomic s _

end Service

end SignOff
