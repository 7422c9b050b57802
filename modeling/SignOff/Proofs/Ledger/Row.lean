import SignOff.Ledger.Row
import SignOff.Proofs.Approval.Deciding
import SignOff.Proofs.Calendar.DateText

/-!
# Rows read back

What is written as a row is read back as it was. A row that can be read still can be after a decision has
been written onto it, and then it says what the decision made of the application or step.
-/

namespace SignOff.Ledger

/-- The text of a date is read as that date. -/
@[simp] theorem storedDate_toText (d : Date) : storedDate d.toText = .ok d := by
  simp [storedDate, Date.readStored_toText]

/-- A column for whole numbers is read as a number exactly when it holds that number. -/
theorem wholeNumber_eq_ok_iff {column : String} {cell : Cell} {n : Int} :
    wholeNumber column cell = .ok n ↔ cell = .whole n := by
  cases cell <;> simp [wholeNumber]

namespace HeaderRow

/-- A row is read as an application exactly when its columns say what the application does. -/
theorem application_eq_ok_iff {row : HeaderRow} {a : Application} :
    row.application = .ok a ↔ storedDate row.requestedOn = .ok a.requestedOn ∧
      row = { ofApplication a with requestedOn := row.requestedOn } := by
  obtain ⟨id, title, document, status, requester, requestedOn, requesterOpinion, version⟩ := row
  obtain ⟨id', title', document', status', requester', requestedOn', requesterOpinion', version'⟩ := a
  unfold application
  cases hdate : storedDate requestedOn with
  | error fault => simp [bind, Except.bind]
  | ok date =>
    cases hversion : wholeNumber "version" version with
    | error fault =>
      have hne : version ≠ .whole version' := by
        intro heq
        subst heq
        simp [wholeNumber] at hversion
      simp [bind, Except.bind, ofApplication, hne]
    | ok n =>
      rw [wholeNumber_eq_ok_iff] at hversion
      subst hversion
      simp [bind, Except.bind, pure, Except.pure, ofApplication, and_left_comm]

/-- An application is read back from its row. -/
theorem application_ofApplication (a : Application) : (ofApplication a).application = .ok a :=
  application_eq_ok_iff.2 ⟨storedDate_toText _, rfl⟩

/-- The row, with what a decision changes if it is that of the application. -/
def take (row : HeaderRow) (a : Application) : HeaderRow :=
  if row.id = a.id then { row with status := a.status, document := a.document, version := .whole a.version }
  else row

@[simp] theorem id_take (row : HeaderRow) (a : Application) : (row.take a).id = row.id := by
  unfold take
  split <;> rfl

/-- Decisions on two applications change different headers. -/
theorem take_comm {a b : Application} (hne : a.id ≠ b.id) (row : HeaderRow) :
    (row.take a).take b = (row.take b).take a := by
  by_cases ha : row.id = a.id
  · have hb : row.id ≠ b.id := fun hb => hne (ha.symm.trans hb)
    rw [take, if_neg (by simpa using hb), take.eq_1 row b, if_neg hb]
  · rw [take.eq_1 row a, if_neg ha, take.eq_1 (row.take b), if_neg (by simpa using ha)]

end HeaderRow

namespace StepRow

/-- The sequence of a row is a number of 32 bits. -/
theorem sequenceNumber_eq_ok_iff {row : StepRow} {n : Nat} :
    row.sequenceNumber = .ok n ↔ row.sequence = .whole n ∧ n ≤ Text.nat32Greatest := by
  unfold sequenceNumber
  cases hnumber : wholeNumber "sequence" row.sequence with
  | error fault =>
    have hne : row.sequence ≠ .whole n := fun heq => by
      simp [wholeNumber_eq_ok_iff.2 heq] at hnumber
    simp [bind, Except.bind, hne]
  | ok m =>
    rw [wholeNumber_eq_ok_iff] at hnumber
    simp only [bind, Except.bind, hnumber, Cell.whole.injEq]
    split
    · next hrange =>
      simp only [pure, Except.pure, Except.ok.injEq]
      omega
    · next hrange =>
      simp only [throw, throwThe, MonadExceptOf.throw, reduceCtorEq, false_iff]
      omega

/-- A row is read as a step exactly when its columns say what the step does. -/
theorem step_eq_ok_iff {row : StepRow} {s : Step} :
    row.step = .ok s ↔ row.applicationId = s.applicationId ∧
      (row.sequence = .whole s.sequence ∧ s.sequence ≤ Text.nat32Greatest) ∧ row.approver = s.approver ∧
      row.decision s.sequence = .ok s.decision ∧ row.isFinal = s.isFinal := by
  obtain ⟨id, sequence, approver, decision, isFinal⟩ := s
  rw [← sequenceNumber_eq_ok_iff]
  unfold step
  cases hnumber : row.sequenceNumber with
  | error fault => simp [bind, Except.bind]
  | ok n =>
    cases hdecision : row.decision n with
    | error fault =>
      simp only [bind, Except.bind, hdecision, reduceCtorEq, Except.ok.injEq, false_iff]
      intro hcolumns
      obtain ⟨-, rfl, -, hok, -⟩ := hcolumns
      simp [hdecision] at hok
    | ok found =>
      simp only [bind, Except.bind, hdecision, pure, Except.pure, Except.ok.injEq, Step.mk.injEq]
      constructor
      · intro hcolumns
        obtain ⟨rfl, rfl, rfl, rfl, rfl⟩ := hcolumns
        exact ⟨rfl, rfl, rfl, hdecision, rfl⟩
      · intro hcolumns
        obtain ⟨rfl, rfl, rfl, hok, rfl⟩ := hcolumns
        rw [hdecision, Except.ok.injEq] at hok
        exact ⟨rfl, rfl, rfl, hok, rfl⟩

/-- The decision of a row marked as decided is there, and of another one it is not. -/
theorem isDecided_of_decision {row : StepRow} {n : Nat} {decision : Option Decision}
    (h : row.decision n = .ok decision) : row.isDecided = decision.isSome := by
  unfold StepRow.decision at h
  cases hdecided : row.isDecided with
  | false =>
    simp only [hdecided, Bool.false_eq_true, if_false, Except.ok.injEq] at h
    simp [← h]
  | true =>
    simp only [hdecided, if_true] at h
    split at h
    · contradiction
    · contradiction
    · split at h
      · contradiction
      · cases h
        rfl

/-- The row of an open step is not marked as decided. -/
theorem isDecided_of_step {row : StepRow} {s : Step} (h : row.step = .ok s) :
    row.isDecided = !s.isOpen := by
  rw [isDecided_of_decision (step_eq_ok_iff.1 h).2.2.2.1, Step.isOpen, Option.not_isNone]

/-- A step is read back from its row if its sequence fits. -/
theorem step_ofStep {s : Step} (h : s.sequence ≤ Text.nat32Greatest) : (ofStep s).step = .ok s := by
  refine step_eq_ok_iff.2 ⟨rfl, ⟨rfl, h⟩, rfl, ?_, rfl⟩
  cases hdecision : s.decision <;> simp [StepRow.decision, ofStep, Step.isOpen, hdecision]

/-- A decision written onto a row is read as the decision on its step. -/
theorem step_decide {row : StepRow} {s : Step} (h : row.step = .ok s) (d : Decision) :
    (row.decide d).step = .ok (s.decide d) := by
  obtain ⟨hid, hsequence, happrover, -, hfinal⟩ := step_eq_ok_iff.1 h
  refine step_eq_ok_iff.2 ⟨hid, hsequence, happrover, ?_, hfinal⟩
  simp [StepRow.decision, StepRow.decide, Step.decide]

/-- The row, with a decision if it is that of a step of the application with one of the sequences. -/
def take (row : StepRow) (id : String) (sequences : List Nat) (d : Decision) : StepRow :=
  if row.applicationId = id ∧ ∃ n ∈ sequences, row.sequence = .whole n then row.decide d else row

/-- Taking decisions in leaves the key of a step row alone. -/
theorem keys_take (row : StepRow) (id : String) (sequences : List Nat) (d : Decision) :
    (row.take id sequences d).applicationId = row.applicationId ∧
      (row.take id sequences d).sequence = row.sequence := by
  unfold take
  split <;> exact ⟨rfl, rfl⟩

/-- Decisions on two applications are written onto different rows. -/
theorem take_comm {id id' : String} (hne : id ≠ id') (row : StepRow) (sequences sequences' : List Nat)
    (d d' : Decision) :
    (row.take id sequences d).take id' sequences' d' = (row.take id' sequences' d').take id sequences d := by
  have hkeep {row : StepRow} {id : String} (hid : row.applicationId ≠ id) (sequences : List Nat)
      (d : Decision) : row.take id sequences d = row := if_neg fun hrow => hid hrow.1
  by_cases hid : row.applicationId = id
  · have hid' : row.applicationId ≠ id' := fun hid' => hne (hid.symm.trans hid')
    have hrow : (row.take id sequences d).applicationId ≠ id' := by rwa [(row.keys_take id sequences d).1]
    rw [hkeep hrow, hkeep hid']
  · have hid' : (row.take id' sequences' d').applicationId ≠ id := by rwa [(row.keys_take id' sequences' d').1]
    rw [hkeep hid, hkeep hid']

/-- Decisions on other steps leave a row as it is. -/
theorem take_of_forall_ne {row : StepRow} {sequences : List Nat}
    (h : ∀ n ∈ sequences, row.sequence ≠ .whole n) (id : String) (d : Decision) :
    row.take id sequences d = row :=
  if_neg fun ⟨_, n, hn, heq⟩ => h n hn heq

/-- A decision on one step and then on others is one on all of them. -/
theorem take_take {n : Nat} {sequences : List Nat} (hn : n ∉ sequences) (row : StepRow) (id : String)
    (d : Decision) : (row.take id [n] d).take id sequences d = row.take id (n :: sequences) d := by
  by_cases hrow : row.applicationId = id ∧ row.sequence = .whole n
  · have hout : ∀ m ∈ sequences, (row.decide d).sequence ≠ .whole m := by
      intro m hm heq
      have hnm : Cell.whole n = .whole m := hrow.2.symm.trans heq
      rw [Cell.whole.injEq, Int.natCast_inj] at hnm
      exact hn (hnm ▸ hm)
    have hfirst : row.take id [n] d = row.decide d := if_pos ⟨hrow.1, n, by simp, hrow.2⟩
    rw [hfirst, take_of_forall_ne hout]
    exact (if_pos ⟨hrow.1, n, by simp, hrow.2⟩).symm
  · have hfirst : row.take id [n] d = row := if_neg fun ⟨hid, m, hm, heq⟩ => by
      rw [List.mem_singleton] at hm
      exact hrow ⟨hid, hm ▸ heq⟩
    rw [hfirst]
    apply if_congr (and_congr_right _) rfl rfl
    intro hid
    have hne : row.sequence ≠ .whole n := fun heq => hrow ⟨hid, heq⟩
    simp [hne]

end StepRow

end SignOff.Ledger
