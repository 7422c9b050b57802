import Mathlib.Data.List.Nodup
import SignOff.Ledger.Amendment
import SignOff.Proofs.Ledger.Row
import SignOff.Proofs.Results

/-!
# Chains read from tables

A chain stands in the tables when its header is found and its step rows, by sequence, are read as its
steps. In well-formed tables the steps of a chain have distinct sequences, and a row is settled by its
application and sequence. Changing rows without touching their keys changes what is read row by row.
-/

namespace SignOff.Ledger

namespace Tables

variable {t : Tables} {id : String} {chain : Chain}

/-- A chain stands in the tables exactly when its header and its steps are read from their rows. -/
theorem chain?_eq_some_iff :
    t.chain? id = .ok (some chain) ↔ ∃ header, t.header? id = some header ∧
      header.application = .ok chain.application ∧
      List.Forall₂ (fun row s => StepRow.step row = .ok s) (t.stepsOf id) chain.steps := by
  obtain ⟨application, steps⟩ := chain
  simp only [← mapM_eq_ok_iff]
  unfold chain?
  cases hheader : t.header? id with
  | none => simp
  | some header =>
    cases happlication : header.application with
    | error fault => simp [bind, Except.bind, happlication]
    | ok a =>
      cases hsteps : (t.stepsOf id).mapM StepRow.step with
      | error fault => simp [bind, Except.bind, happlication]
      | ok read => simp [bind, Except.bind, pure, Except.pure, happlication]

/-- There is no chain exactly when there is no header. -/
theorem chain?_eq_none_iff : t.chain? id = .ok none ↔ t.header? id = none := by
  unfold chain?
  cases t.header? id with
  | none => simp
  | some header =>
    cases happlication : header.application with
    | error fault => simp [bind, Except.bind, happlication]
    | ok a =>
      cases hsteps : (t.stepsOf id).mapM StepRow.step with
      | error fault => simp [bind, Except.bind, happlication]
      | ok read => simp [bind, Except.bind, pure, Except.pure, happlication]

/-- A header is found under its own id. -/
theorem id_of_header? {row : HeaderRow} (h : t.header? id = some row) : row.id = id := by
  simpa using List.find?_some h

/-- There is a header exactly when some row has the id. -/
theorem header?_eq_none_iff : t.header? id = none ↔ id ∉ t.headers.map HeaderRow.id := by
  simp [header?]

/-- The step rows of an application. -/
theorem mem_stepsOf {row : StepRow} : row ∈ t.stepsOf id ↔ row ∈ t.steps ∧ row.applicationId = id := by
  simp [stepsOf, List.mem_mergeSort]

/-- A chain is read under the id of its application. -/
theorem id_of_chain? (h : t.chain? id = .ok (some chain)) : chain.application.id = id := by
  obtain ⟨header, hheader, happlication, -⟩ := chain?_eq_some_iff.1 h
  have hrow := congrArg HeaderRow.id (HeaderRow.application_eq_ok_iff.1 happlication).2
  rw [id_of_header? hheader] at hrow
  exact hrow.symm

/-- Every step of a chain is read from a row of its application. -/
theorem exists_row_of_mem (h : t.chain? id = .ok (some chain)) {s : Step} (hs : s ∈ chain.steps) :
    ∃ row ∈ t.steps, row.applicationId = id ∧ row.step = .ok s := by
  obtain ⟨header, -, -, hsteps⟩ := chain?_eq_some_iff.1 h
  obtain ⟨i, hi, rfl⟩ := List.getElem_of_mem hs
  have hi' : i < (t.stepsOf id).length := hsteps.length_eq ▸ hi
  obtain ⟨hmem, hid⟩ := mem_stepsOf.1 (List.getElem_mem hi')
  exact ⟨_, hmem, hid, hsteps.get hi' hi⟩

/-- The steps of a chain belong to its application. -/
theorem applicationId_of_mem (h : t.chain? id = .ok (some chain)) {s : Step} (hs : s ∈ chain.steps) :
    s.applicationId = id := by
  obtain ⟨row, -, hid, hstep⟩ := exists_row_of_mem h hs
  rw [← (StepRow.step_eq_ok_iff.1 hstep).1, hid]

/-- In well-formed tables a step row is settled by its application and sequence. -/
theorem row_eq_of_keys (hwf : t.WellFormed) {row other : StepRow} (hrow : row ∈ t.steps)
    (hother : other ∈ t.steps) (hid : row.applicationId = other.applicationId)
    (hsequence : row.sequence = other.sequence) : row = other :=
  List.inj_on_of_nodup_map hwf.2.1 hrow hother (by rw [hid, hsequence])

/-- In well-formed tables no sequence of a chain comes twice. -/
theorem nodup_sequences (hwf : t.WellFormed) (h : t.chain? id = .ok (some chain)) :
    (chain.steps.map Step.sequence).Nodup := by
  obtain ⟨header, -, -, hsteps⟩ := chain?_eq_some_iff.1 h
  have hrows := (List.forall₂_and_left _ _).2 ⟨fun row hrow => (mem_stepsOf.1 hrow).2, hsteps⟩
  have hkeys : (t.stepsOf id).map (fun row => (row.applicationId, row.sequence)) =
      (chain.steps.map Step.sequence).map fun n : Nat => (id, Cell.whole n) := by
    rw [List.map_map, ← List.forall₂_eq_eq_eq, List.forall₂_map_left_iff, List.forall₂_map_right_iff]
    apply hrows.imp
    intro row s ⟨hid, hstep⟩
    rw [hid, (StepRow.step_eq_ok_iff.1 hstep).2.1.1]
    rfl
  have hnodup : ((t.stepsOf id).map fun row => (row.applicationId, row.sequence)).Nodup :=
    ((List.mergeSort_perm _ _).map _).nodup_iff.2 (hwf.2.1.sublist (List.filter_sublist.map _))
  rw [hkeys] at hnodup
  exact hnodup.of_map

section MapRows

/-- The tables with every header and every step row changed. -/
def mapRows (t : Tables) (onHeader : HeaderRow → HeaderRow) (onStep : StepRow → StepRow) : Tables :=
  { t with headers := t.headers.map onHeader, steps := t.steps.map onStep }

variable {onHeader : HeaderRow → HeaderRow} {onStep : StepRow → StepRow}

/-- A header is changed in its place. -/
theorem header?_mapRows (hid : ∀ row, (onHeader row).id = row.id) (id : String) :
    (t.mapRows onHeader onStep).header? id = (t.header? id).map onHeader := by
  simp only [header?, mapRows, List.find?_map, Function.comp_def, hid]

/-- The steps of an application are changed in their order. -/
theorem stepsOf_mapRows
    (hkeys : ∀ row, (onStep row).applicationId = row.applicationId ∧ (onStep row).sequence = row.sequence)
    (id : String) : (t.mapRows onHeader onStep).stepsOf id = (t.stepsOf id).map onStep := by
  unfold stepsOf
  rw [List.map_mergeSort (s := fun a b => a.sequence.precedes b.sequence)
    fun a _ b _ => by rw [(hkeys a).2, (hkeys b).2]]
  simp [mapRows, List.filter_map, Function.comp_def, hkeys]

/-- Tables stay well-formed when the keys of their rows stay. -/
theorem wellFormed_mapRows (hwf : t.WellFormed) (hid : ∀ row, (onHeader row).id = row.id)
    (hkeys : ∀ row, (onStep row).applicationId = row.applicationId ∧ (onStep row).sequence = row.sequence) :
    (t.mapRows onHeader onStep).WellFormed := by
  simpa [WellFormed, mapRows, Function.comp_def, hid, hkeys] using hwf

end MapRows

end Tables

end SignOff.Ledger
