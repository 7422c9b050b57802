import SignOff.Proofs.Ledger.Reading

/-!
# Records written onto tables

The record of a decision on a chain just read is always taken in. Of the rows only the header of the
application and those of the decided steps change, and what is read afterwards is the chain of the record.
-/

namespace SignOff

namespace Chain

variable {chain : Chain} {command : Command} {pattern : String} {today : Date} {record : Record}

/-- The decided sequences are those of steps of the chain. -/
theorem mem_sequences_of_decided (h : chain.decide command pattern today = .ok record) {n : Nat}
    (hn : n ∈ record.decidedSequences) : ∃ s ∈ chain.steps, s.sequence = n := by
  obtain ⟨cursor, hcursor, -, rfl⟩ := decide_eq_ok_iff.1 h
  obtain ⟨hsteps, -, -⟩ := Cursor.find?_eq_some hcursor
  rw [recordAt_decidedSequences] at hn
  obtain ⟨s, hs, rfl⟩ := List.mem_map.1 hn
  refine ⟨s, ?_, rfl⟩
  rw [hsteps, ← command.cascade_append_drop cursor.after, ← List.cons_append]
  exact List.mem_append_right _ (List.mem_append_left _ hs)

/-- Where no sequence comes twice, the decided steps are those of the decided sequences, decided. -/
theorem decidedSteps_of_decide (hnodup : (chain.steps.map Step.sequence).Nodup)
    (h : chain.decide command pattern today = .ok record) :
    record.decidedSteps = (chain.steps.filter fun s => record.decidedSequences.contains s.sequence).map
      fun s => s.decide (command.decision today) := by
  have hkeep (s : Step) : (if s.sequence ∈ record.decidedSequences then s.decide (command.decision today)
      else s).sequence = s.sequence := by
    split <;> rfl
  rw [Record.decidedSteps, steps_of_decide hnodup h, List.filter_map]
  simp only [Function.comp_def, hkeep]
  apply List.map_congr_left
  intro s hs
  apply if_pos
  simpa using (List.mem_filter.1 hs).2

end Chain

namespace Ledger.Tables

variable {t : Tables}

/-- A header in the expected version is written. -/
theorem writeHeader_eq (hwf : t.WellFormed) {record : Record} {header : HeaderRow}
    (hheader : t.header? record.chain.application.id = some header)
    (hversion : header.version = .whole record.expectedVersion) :
    t.writeHeader record =
      some (t.mapRows (fun row => row.take record.chain.application) fun row => row) := by
  have hmem : header ∈ t.headers := List.mem_of_find?_eq_some hheader
  have hid := id_of_header? hheader
  have hfits : ∀ row ∈ t.headers, row.id = record.chain.application.id →
      row.version = .whole record.expectedVersion := by
    intro row hrow heq
    rwa [List.inj_on_of_nodup_map hwf.1 hrow hmem (heq.trans hid.symm)]
  have hany : (t.headers.any fun row =>
      row.id = record.chain.application.id && row.version = .whole record.expectedVersion) = true :=
    List.any_eq_true.2 ⟨header, hmem, by simp [hid, hversion]⟩
  rw [writeHeader, if_pos hany, mapRows, List.map_id']
  dsimp only
  congr 2
  apply List.map_congr_left
  intro row hrow
  apply if_congr _ rfl rfl
  simpa using hfits row hrow

/-- A decision on an open step is written. -/
theorem writeDecision_eq (hwf : t.WellFormed) {row : StepRow} (hrow : row ∈ t.steps) {s : Step}
    (hid : row.applicationId = s.applicationId) (hsequence : row.sequence = .whole s.sequence)
    (hopen : row.isDecided = false) (d : Decision) :
    t.writeDecision s d =
      some (t.mapRows (fun row => row) fun row => row.take s.applicationId [s.sequence] d) := by
  have hsame : ∀ other ∈ t.steps, other.applicationId = s.applicationId →
      other.sequence = .whole s.sequence → other = row := fun other hother hid' hsequence' =>
    row_eq_of_keys hwf hother hrow (hid'.trans hid.symm) (hsequence'.trans hsequence.symm)
  have hfits : ∀ other ∈ t.steps, (other.applicationId = s.applicationId &&
      other.sequence = .whole s.sequence && !other.isDecided) = true ↔ other = row := by
    intro other hother
    simp only [Bool.and_eq_true, decide_eq_true_eq]
    constructor
    · intro hfit
      obtain ⟨⟨hid', hsequence'⟩, -⟩ := hfit
      exact hsame other hother hid' hsequence'
    · intro heq
      subst heq
      exact ⟨⟨hid, hsequence⟩, by simp [hopen]⟩
  have hcount : (t.steps.countP fun other => other.applicationId = s.applicationId &&
      other.sequence = .whole s.sequence && !other.isDecided) = 1 := by
    rw [List.countP_congr fun other hother => (hfits other hother).trans beq_iff_eq.symm]
    exact List.count_eq_one_of_mem hwf.2.1.of_map hrow
  rw [writeDecision, if_pos hcount, mapRows, List.map_id']
  congr 2
  refine List.map_congr_left fun other hother => if_congr ((hfits other hother).trans ⟨?_, ?_⟩) rfl rfl
  · intro heq
    subst heq
    exact ⟨hid, s.sequence, by simp, hsequence⟩
  · intro htake
    obtain ⟨hid', n, hn, hsequence'⟩ := htake
    rw [List.mem_singleton] at hn
    exact hsame other hother hid' (hn ▸ hsequence')

/-- Decisions on open steps of one application are written one after another. -/
theorem writeDecisions_eq (hwf : t.WellFormed) {id : String} {steps : List Step} (d : Decision)
    (hnodup : (steps.map Step.sequence).Nodup)
    (hrows : ∀ s ∈ steps, s.applicationId = id ∧ ∃ row ∈ t.steps, row.applicationId = id ∧
      row.sequence = .whole s.sequence ∧ row.isDecided = false) :
    t.writeDecisions (steps.map fun s => s.decide d) =
      (true, t.mapRows (fun row => row) fun row => row.take id (steps.map Step.sequence) d) := by
  induction steps generalizing t with
  | nil =>
    simp [writeDecisions, mapRows, StepRow.take]
  | cons s rest ih =>
    obtain ⟨hid, row, hrow, hrowId, hsequence, hopen⟩ := hrows s (by simp)
    rw [List.map_cons, List.nodup_cons] at hnodup
    have hwrite := writeDecision_eq hwf hrow (s := s.decide d) (hrowId.trans hid.symm) hsequence hopen d
    have hkeys := fun row : StepRow => row.keys_take (s.decide d).applicationId [(s.decide d).sequence] d
    have hrest : ∀ s' ∈ rest, s'.applicationId = id ∧ ∃ row ∈ (t.mapRows (fun row => row) fun row =>
        row.take (s.decide d).applicationId [(s.decide d).sequence] d).steps,
        row.applicationId = id ∧ row.sequence = .whole s'.sequence ∧ row.isDecided = false := by
      intro s' hs'
      obtain ⟨hid', row', hrow', hrest'⟩ := hrows s' (List.mem_cons_of_mem _ hs')
      refine ⟨hid', row', List.mem_map.2 ⟨row', hrow', StepRow.take_of_forall_ne ?_ _ _⟩, hrest'⟩
      intro n hn heq
      rw [List.mem_singleton, Step.sequence_decide] at hn
      rw [hrest'.2.1, hn, Cell.whole.injEq, Int.natCast_inj] at heq
      exact hnodup.1 (heq ▸ List.mem_map_of_mem hs')
    rw [List.map_cons, writeDecisions]
    simp only [Step.decision_decide, hwrite]
    rw [ih (wellFormed_mapRows hwf (fun _ => rfl) hkeys) hnodup.2 hrest]
    simp only [mapRows, List.map_map, Function.comp_def, List.map_id']
    congr 2
    apply List.map_congr_left
    intro row _
    rw [List.map_cons, ← StepRow.take_take hnodup.1, ← hid]
    rfl

/-- The record of a decision on a chain just read is taken in row by row. -/
theorem store_eq (hwf : t.WellFormed) {id : String} {chain : Chain} {command : Command} {pattern : String}
    {today : Date} {record : Record} (hchain : t.chain? id = .ok (some chain))
    (hdecide : chain.decide command pattern today = .ok record) :
    t.store record = (.ok (), t.mapRows (fun row => row.take record.chain.application) fun row =>
      row.take id record.decidedSequences (command.decision today)) := by
  obtain ⟨header, hheader, happlication, -⟩ := chain?_eq_some_iff.1 hchain
  have hnodup := nodup_sequences hwf hchain
  have hid : record.chain.application.id = id := by
    rw [Chain.id_of_decide hdecide, id_of_chain? hchain]
  have hversion : header.version = .whole record.expectedVersion := by
    rw [Chain.expectedVersion_of_decide hdecide]
    exact congrArg HeaderRow.version (HeaderRow.application_eq_ok_iff.1 happlication).2
  let written := t.mapRows (fun row => row.take record.chain.application) fun row => row
  have hwrite : t.writeHeader record = some written := writeHeader_eq hwf (hid ▸ hheader) hversion
  have hrows : ∀ s ∈ chain.steps.filter (fun s => record.decidedSequences.contains s.sequence),
      s.applicationId = id ∧ ∃ row ∈ t.steps, row.applicationId = id ∧
        row.sequence = .whole s.sequence ∧ row.isDecided = false := by
    intro s hs
    obtain ⟨hmem, hdecided⟩ := List.mem_filter.1 hs
    obtain ⟨row, hrow, hrowId, hstep⟩ := exists_row_of_mem hchain hmem
    have hopen := Chain.isOpen_of_decided hnodup hdecide hmem (by simpa using hdecided)
    exact ⟨applicationId_of_mem hchain hmem, row, hrow, hrowId, (StepRow.step_eq_ok_iff.1 hstep).2.1.1,
      by rw [StepRow.isDecided_of_step hstep, hopen]; rfl⟩
  have hwritten : written.WellFormed :=
    wellFormed_mapRows hwf (fun row => row.id_take _) fun _ => ⟨rfl, rfl⟩
  have hsteps : written.steps = t.steps := List.map_id' _
  have hdecisions := writeDecisions_eq hwritten (command.decision today)
    (hnodup.sublist (List.filter_sublist.map _)) (by rwa [hsteps])
  have hsequences : ∀ n, n ∈ (chain.steps.filter fun s =>
      record.decidedSequences.contains s.sequence).map Step.sequence ↔ n ∈ record.decidedSequences := by
    intro n
    constructor
    · intro hn
      obtain ⟨s, hs, rfl⟩ := List.mem_map.1 hn
      simpa using (List.mem_filter.1 hs).2
    · intro hn
      obtain ⟨s, hs, rfl⟩ := Chain.mem_sequences_of_decided hdecide hn
      exact List.mem_map.2 ⟨s, List.mem_filter.2 ⟨hs, by simpa using hn⟩, rfl⟩
  simp only [store, hwrite, Chain.decidedSteps_of_decide hnodup hdecide, hdecisions]
  simp only [written, mapRows, List.map_map, Function.comp_def, StepRow.take, hsequences, List.map_id']

/-- What is read after a record has been taken in is the chain of the record. -/
theorem chain?_store (hwf : t.WellFormed) {id : String} {chain : Chain} {command : Command}
    {pattern : String} {today : Date} {record : Record} (hchain : t.chain? id = .ok (some chain))
    (hdecide : chain.decide command pattern today = .ok record) :
    ∃ t', t.store record = (.ok (), t') ∧ t'.WellFormed ∧ t'.links = t.links ∧
      t'.chain? id = .ok (some record.chain) ∧
      ∀ other, other ≠ id → t'.chain? other = t.chain? other := by
  have hid : record.chain.application.id = id := by
    rw [Chain.id_of_decide hdecide, id_of_chain? hchain]
  have hkeys := fun row : StepRow => row.keys_take id record.decidedSequences (command.decision today)
  refine ⟨_, store_eq hwf hchain hdecide, wellFormed_mapRows hwf (fun row => row.id_take _) hkeys, rfl,
    ?_, fun other hother => ?_⟩
  · obtain ⟨header, hheader, happlication, hsteps⟩ := chain?_eq_some_iff.1 hchain
    refine chain?_eq_some_iff.2 ⟨header.take record.chain.application, ?_, ?_, ?_⟩
    · rw [header?_mapRows (fun row => row.id_take _), hheader, Option.map_some]
    · obtain ⟨hdate, hrow⟩ := HeaderRow.application_eq_ok_iff.1 happlication
      rw [HeaderRow.take, if_pos ((id_of_header? hheader).trans hid.symm)]
      refine HeaderRow.application_eq_ok_iff.2 ⟨?_, ?_⟩
      · rw [Chain.application_of_decide hdecide]
        exact hdate
      · rw [Chain.application_of_decide hdecide]
        conv_lhs => rw [hrow]
        rfl
    · rw [stepsOf_mapRows hkeys, Chain.steps_of_decide (nodup_sequences hwf hchain) hdecide,
        List.forall₂_map_left_iff, List.forall₂_map_right_iff]
      have hrows := (List.forall₂_and_left _ _).2 ⟨fun row hrow => (mem_stepsOf.1 hrow).2, hsteps⟩
      apply hrows.imp
      intro row s hread
      obtain ⟨hrowId, hstep⟩ := hread
      have hsequence := (StepRow.step_eq_ok_iff.1 hstep).2.1.1
      by_cases hdecided : s.sequence ∈ record.decidedSequences
      · rw [if_pos hdecided, StepRow.take, if_pos ⟨hrowId, s.sequence, hdecided, hsequence⟩]
        exact StepRow.step_decide hstep _
      · rw [if_neg hdecided, StepRow.take_of_forall_ne]
        · exact hstep
        · intro n hn heq
          rw [hsequence, Cell.whole.injEq, Int.natCast_inj] at heq
          exact hdecided (heq ▸ hn)
  · have hheaders : (t.header? other).map (fun row => row.take record.chain.application) =
        t.header? other := by
      cases hheader : t.header? other with
      | none => rfl
      | some header =>
        rw [Option.map_some, HeaderRow.take, if_neg]
        rw [id_of_header? hheader, hid]
        exact hother
    have hsteps : (t.stepsOf other).map
        (fun row => row.take id record.decidedSequences (command.decision today)) = t.stepsOf other := by
      conv_rhs => rw [← List.map_id (t.stepsOf other)]
      refine List.map_congr_left fun row hrow => if_neg fun htaken => ?_
      exact hother ((mem_stepsOf.1 hrow).2.symm.trans htaken.1)
    rw [chain?, chain?, header?_mapRows (fun row => row.id_take _), stepsOf_mapRows hkeys, hheaders, hsteps]

end Ledger.Tables

end SignOff
