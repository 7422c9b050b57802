import SignOff.Proofs.Ledger.Units
import SignOff.Proofs.Store.Atomic

/-!
# Submissions row by row

A submission goes into the ledger as one row after another: its header, whose id has to be new, the link to
what it is about, and its steps, none of which may have the number zero. All rows are written in one unit of
work, so a row that is turned down takes those before it along.
-/

namespace SignOff.Ledger

namespace Tables

/-- Adds the header of an application, unless there is one with its id. -/
def insertHeader (t : Tables) (a : Application) : Except Refusal Unit × Tables :=
  if (t.header? a.id).isSome then
    (.error (constraintRefusal 1555 "UNIQUE constraint failed: application.id"), t)
  else (.ok (), { t with headers := t.headers ++ [HeaderRow.ofApplication a] })

/-- Adds the link of an application to the record that it is about, if there is such a record. -/
def insertLink (t : Tables) (id : String) : Option Origin → Tables
  | none => t
  | some o =>
    { t with
      links := t.links ++ [⟨t.links.length + 1, id, { o with tableCode := Text.trim o.tableCode }⟩] }

/-- Adds steps one after another, up to the first with the number zero. -/
def insertSteps (t : Tables) : List Step → Except Refusal Unit × Tables
  | [] => (.ok (), t)
  | s :: rest =>
    if s.sequence = 0 then
      (.error (constraintRefusal 275 "CHECK constraint failed: sequence >= 1"), t)
    else insertSteps { t with steps := t.steps ++ [StepRow.ofStep s] } rest

/-- Adds the rows of a submission, up to the first that is turned down. -/
def insertRows (t : Tables) (id : String) (s : Submission) (today : Date) : Except Refusal Unit × Tables :=
  match t.insertHeader (s.header id today) with
  | (.error refusal, t) => (.error refusal, t)
  | (.ok (), t) => (t.insertLink id s.origin).insertSteps (s.steps id)

/-- Steps are added if none of them has the number zero. -/
theorem insertSteps_of_ne_zero {steps : List Step} (h : ∀ s ∈ steps, s.sequence ≠ 0) (t : Tables) :
    t.insertSteps steps = (.ok (), { t with steps := t.steps ++ steps.map StepRow.ofStep }) := by
  induction steps generalizing t with
  | nil => simp [insertSteps]
  | cons s rest ih =>
    have hs : s.sequence ≠ 0 := h s List.mem_cons_self
    rw [insertSteps, if_neg hs, ih fun r hr => h r (List.mem_cons_of_mem _ hr)]
    simp

/-- A step with the number zero is turned down, after those before it have been added. -/
theorem insertSteps_of_eq_zero {steps : List Step} {s : Step} (hs : s ∈ steps) (hzero : s.sequence = 0)
    (t : Tables) : ∃ t', t.insertSteps steps =
      (.error (constraintRefusal 275 "CHECK constraint failed: sequence >= 1"), t') := by
  induction steps generalizing t with
  | nil => contradiction
  | cons first rest ih =>
    by_cases hfirst : first.sequence = 0
    · exact ⟨t, by rw [insertSteps, if_pos hfirst]⟩
    · have hrest : s ∈ rest := by
        rcases List.mem_cons.1 hs with rfl | hrest
        · exact absurd hzero hfirst
        · exact hrest
      rw [insertSteps, if_neg hfirst]
      exact ih hrest _

section InsertRows

variable {t : Tables} {id : String} {s : Submission}

/-- The header of an application that is there is turned down. -/
theorem insertRows_of_taken (htaken : (t.header? id).isSome = true) (s : Submission) (today : Date) :
    t.insertRows id s today =
      (.error (constraintRefusal 1555 "UNIQUE constraint failed: application.id"), t) := by
  have hheader : t.insertHeader (s.header id today) = _ := if_pos htaken
  rw [insertRows, hheader]

/-- After the header and the link a step with the number zero is turned down. -/
theorem insertRows_of_zero (hnew : t.header? id = none)
    (hzero : ((s.steps id).any fun step => step.sequence = 0) = true) (today : Date) :
    ∃ t', t.insertRows id s today =
      (.error (constraintRefusal 275 "CHECK constraint failed: sequence >= 1"), t') := by
  obtain ⟨step, hstep, hsequence⟩ := List.any_eq_true.1 hzero
  have hheader : t.insertHeader (s.header id today) = _ :=
    if_neg (by simp [Submission.header, hnew])
  rw [insertRows, hheader]
  exact insertSteps_of_eq_zero hstep (of_decide_eq_true hsequence) _

/-- All rows of a submission together are what the tables have after it. -/
theorem insertRows_eq_submit (hnew : t.header? id = none)
    (hnonzero : ((s.steps id).any fun step => step.sequence = 0) = false) (today : Date) :
    t.insertRows id s today = (.ok (), t.submit id s today) := by
  have hheader : t.insertHeader (s.header id today) = _ :=
    if_neg (by simp [Submission.header, hnew])
  have hsteps : ∀ step ∈ s.steps id, step.sequence ≠ 0 := by simpa using hnonzero
  rw [insertRows, hheader]
  simp only [insertSteps_of_ne_zero hsteps]
  cases horigin : s.origin <;> simp [submit, insertLink, horigin]

end InsertRows

end Tables

/-- A valid submission is a unit of work that adds its rows one after another. -/
theorem submit_eq_inUnit (ledger : Ledger) (id : String) (s : Submission) (today : Date) :
    ledger.submit id s today =
      match s.validate with
      | .error refusal => (.error refusal, ledger)
      | .ok () => UnitStore.inUnit ledger fun t => t.insertRows id s today := by
  unfold submit
  cases s.validate with
  | error refusal => rfl
  | ok =>
    have hopen : UnitStore.openUnit ledger = ledger.openTables := rfl
    simp only [UnitStore.inUnit, hopen]
    cases ledger.openTables with
    | error refusal => rfl
    | ok t =>
      simp only
      split
      · next htaken => rw [Tables.insertRows_of_taken htaken]
      · next hfree =>
        have hnew : t.header? id = none := Option.not_isSome_iff_eq_none.1 hfree
        split
        · next hzero =>
          obtain ⟨t', hrefused⟩ := Tables.insertRows_of_zero hnew hzero today
          rw [hrefused]
        · next hnonzero =>
          rw [Tables.insertRows_eq_submit hnew (Bool.eq_false_iff.2 hnonzero)]
          rfl

/-- A submission that is refused leaves the ledger alone, at whichever of its rows that happens. -/
theorem submit_atomic (ledger : Ledger) (id : String) (s : Submission) (today : Date) :
    Atomic ledger (ledger.submit id s today) := by
  rw [submit_eq_inUnit]
  cases s.validate with
  | error refusal => exact atomic_error refusal
  | ok => exact UnitStore.inUnit_atomic ledger _

end SignOff.Ledger
