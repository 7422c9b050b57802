import Mathlib.Data.List.Nodup
import Mathlib.Data.List.TakeWhile
import SignOff.Approval.Deciding

/-!
# What a decision changes

A cursor is found exactly where a chain splits into approved steps, an open step and the rest. A
decision succeeds exactly on such a cursor and for its approver. It gives one decision to the current
step and to those it runs on to, and leaves the number, order and every other column of the steps as
they are.
-/

namespace SignOff

namespace Step

/-- A step with a decision is not open. -/
@[simp] theorem isOpen_decide (s : Step) (d : Decision) : (s.decide d).isOpen = false := rfl

/-- A step with a decision is approved exactly when the decision is. -/
@[simp] theorem isApproved_decide (s : Step) (d : Decision) :
    (s.decide d).isApproved = true ↔ d.outcome = .approved := by
  simp [isApproved, Step.decide]

/-- A step with a decision is rejected exactly when the decision is. -/
@[simp] theorem isRejected_decide (s : Step) (d : Decision) :
    (s.decide d).isRejected = true ↔ d.outcome = .rejected := by
  simp [isRejected, Step.decide]

@[simp] theorem decision_decide (s : Step) (d : Decision) : (s.decide d).decision = some d := rfl

@[simp] theorem approver_decide (s : Step) (d : Decision) : (s.decide d).approver = s.approver := rfl

@[simp] theorem sequence_decide (s : Step) (d : Decision) : (s.decide d).sequence = s.sequence := rfl

/-- An open step is not approved. -/
theorem isApproved_of_isOpen {s : Step} (h : s.isOpen = true) : s.isApproved = false := by
  simp_all [isOpen, isApproved]

/-- An open step is not rejected. -/
theorem isRejected_of_isOpen {s : Step} (h : s.isOpen = true) : s.isRejected = false := by
  simp_all [isOpen, isRejected]

/-- An approved step is not rejected. -/
theorem isRejected_of_isApproved {s : Step} (h : s.isApproved = true) : s.isRejected = false := by
  cases hd : s.decision with
  | none => simp [isRejected, hd]
  | some d => simp_all [isApproved, isRejected]

end Step

namespace Cursor

/-- Approved steps in front only move the cursor on. -/
theorem find?_append_of_approved {before : List Step} (h : ∀ s ∈ before, s.isApproved = true)
    (rest : List Step) :
    find? (before ++ rest) = (find? rest).map fun c => { c with before := before ++ c.before } := by
  induction before with
  | nil => simp
  | cons s before ih =>
    have hs : s.isApproved = true := h s (by simp)
    have hopen : s.isOpen = false := by
      cases ho : s.isOpen with
      | false => rfl
      | true => simp [Step.isApproved_of_isOpen ho] at hs
    rw [List.cons_append, find?, hopen, hs, ih fun t ht => h t (by simp [ht])]
    simp [Function.comp_def]

/-- A cursor is found exactly at an open step that has only approved ones before it. -/
theorem find?_eq_some_iff {steps : List Step} {c : Cursor} :
    find? steps = some c ↔ steps = c.before ++ c.current :: c.after ∧ c.current.isOpen = true ∧
      ∀ s ∈ c.before, s.isApproved = true := by
  constructor
  · exact find?_eq_some
  · intro h
    obtain ⟨rfl, hopen, hbefore⟩ := h
    rw [find?_append_of_approved hbefore, find?, hopen]
    simp

/-- Nothing awaits a decision exactly when all steps are approved or the first other one is rejected. -/
theorem find?_eq_none_iff {steps : List Step} :
    find? steps = none ↔ (∀ s ∈ steps, s.isApproved = true) ∨
      ∃ before s after, steps = before ++ s :: after ∧ (∀ t ∈ before, t.isApproved = true) ∧
        s.isRejected = true := by
  constructor
  · intro h
    induction steps with
    | nil => exact Or.inl (by simp)
    | cons s rest ih =>
      rcases s.isOpen_or_isApproved_or_isRejected with ho | ha | hr
      · simp [find?, ho] at h
      · have hrest : find? rest = none := by
          have := find?_append_of_approved (List.forall_mem_singleton.2 ha) rest
          rw [List.singleton_append, h] at this
          simpa using this.symm
        rcases ih hrest with hall | ⟨before, t, after, rfl, hbefore, ht⟩
        · exact Or.inl (by simpa [ha] using hall)
        · exact Or.inr ⟨s :: before, t, after, rfl, by simpa [ha] using hbefore, ht⟩
      · exact Or.inr ⟨[], s, rest, rfl, by simp, hr⟩
  · intro h
    rcases h with hall | ⟨before, s, after, rfl, hbefore, hs⟩
    · simpa [find?] using find?_append_of_approved hall []
    · have ho : s.isOpen = false := by
        cases ho : s.isOpen with
        | false => rfl
        | true => simp [Step.isRejected_of_isOpen ho] at hs
      have ha : s.isApproved = false := by
        cases ha : s.isApproved with
        | false => rfl
        | true => simp [Step.isRejected_of_isApproved ha] at hs
      rw [find?_append_of_approved hbefore, find?, ho, ha]
      simp

end Cursor

/-- A request is a command exactly when its ids are not blank and its words mean an outcome. -/
theorem DecisionRequest.command_eq_ok_iff {request : DecisionRequest} {command : Command} :
    request.command = .ok command ↔
      command.applicationId = Text.trim request.applicationId ∧ command.applicationId ≠ "" ∧
        command.approver = Text.trim request.approver ∧ command.approver ≠ "" ∧
        command.opinion = request.opinion ∧
        request.outcome.bind Outcome.ofWords? = some command.outcome := by
  obtain ⟨id, approver, opinion, outcome⟩ := command
  unfold DecisionRequest.command
  by_cases hid : Text.trim request.applicationId = ""
  · simp_all
  by_cases happrover : Text.trim request.approver = ""
  · simp_all
  cases hwords : request.outcome with
  | none => simp [hid, happrover]
  | some words =>
    cases houtcome : Outcome.ofWords? words with
    | none => simp [hid, happrover, houtcome]
    | some meant =>
      simp only [hid, happrover, houtcome, if_false, Option.bind_some, Except.ok.injEq,
        Command.mk.injEq, Option.some.injEq]
      constructor
      · intro hsame
        obtain ⟨rfl, rfl, rfl, rfl⟩ := hsame
        exact ⟨rfl, hid, rfl, happrover, rfl, rfl⟩
      · intro hcolumns
        obtain ⟨rfl, -, rfl, -, rfl, rfl⟩ := hcolumns
        exact ⟨rfl, rfl, rfl, rfl⟩

namespace Command

/-- The steps that a command runs on to stand at the front of those after the current one. -/
theorem cascade_append_drop (command : Command) (after : List Step) :
    command.cascade after ++ after.drop (command.cascade after).length = after := by
  unfold cascade
  cases command.outcome with
  | rejected => simp
  | approved => exact List.prefix_iff_eq_append.1 (List.takeWhile_prefix _)

/-- A command only runs on to open steps of its approver. -/
theorem of_mem_cascade {command : Command} {after : List Step} {s : Step}
    (h : s ∈ command.cascade after) : s.approver = command.approver ∧ s.isOpen = true := by
  unfold cascade at h
  cases ho : command.outcome with
  | rejected => simp [ho] at h
  | approved =>
    rw [ho] at h
    simpa using List.mem_takeWhile_imp h

end Command

namespace Chain

variable {chain : Chain} {command : Command} {pattern : String} {today : Date} {record : Record}

/-- A decision succeeds exactly when it comes from the approver of the current step. -/
theorem decide_eq_ok_iff :
    chain.decide command pattern today = .ok record ↔
      ∃ cursor, chain.cursor? = some cursor ∧ cursor.current.approver = command.approver ∧
        record = chain.recordAt cursor command pattern today := by
  unfold Chain.decide
  cases hc : chain.cursor? with
  | none => simp
  | some cursor =>
    by_cases ha : cursor.current.approver = command.approver
    · simp [ha, eq_comm]
    · simp [ha]

section RecordAt

variable (chain : Chain) (cursor : Cursor) (command : Command) (pattern : String) (today : Date)

@[simp] theorem recordAt_id :
    (chain.recordAt cursor command pattern today).chain.application.id = chain.application.id := rfl

/-- The record raises the version as the counter does. -/
@[simp] theorem recordAt_version :
    (chain.recordAt cursor command pattern today).chain.application.version =
      chain.application.nextVersion := rfl

/-- The record is made on the version of the chain. -/
@[simp] theorem recordAt_expectedVersion :
    (chain.recordAt cursor command pattern today).expectedVersion = chain.application.version := rfl

/-- The record has the status that the last step decided brings about. -/
@[simp] theorem recordAt_status :
    (chain.recordAt cursor command pattern today).chain.application.status =
      command.statusAfter ((command.cascade cursor.after).getLastD cursor.current)
        chain.application.status := rfl

/-- The record decides the current step and the cascade after it, and leaves the steps around them. -/
@[simp] theorem recordAt_steps :
    (chain.recordAt cursor command pattern today).chain.steps =
      cursor.before ++
        (cursor.current :: command.cascade cursor.after).map
          (fun s => s.decide (command.decision today)) ++
        cursor.after.drop (command.cascade cursor.after).length := rfl

/-- The record lists the sequences of the current step and of the cascade. -/
@[simp] theorem recordAt_decidedSequences :
    (chain.recordAt cursor command pattern today).decidedSequences =
      (cursor.current :: command.cascade cursor.after).map Step.sequence := by
  simp [recordAt, Function.comp_def]

end RecordAt

/-- A decision leaves every column of the steps that a decided step shares with the open one. -/
theorem steps_map_of_decide {β : Type} (f : Step → β) (hf : ∀ s d, f (s.decide d) = f s)
    (h : chain.decide command pattern today = .ok record) :
    record.chain.steps.map f = chain.steps.map f := by
  obtain ⟨cursor, hcursor, -, rfl⟩ := decide_eq_ok_iff.1 h
  obtain ⟨hsteps, -, -⟩ := Cursor.find?_eq_some hcursor
  have hrun := congrArg (List.map f) (command.cascade_append_drop cursor.after)
  rw [List.map_append] at hrun
  rw [recordAt_steps, hsteps]
  simp only [List.map_append, List.map_map, Function.comp_def, hf, List.map_cons, List.append_assoc,
    List.cons_append, hrun]

/-- A decision changes the status, the document and the version of an application. -/
theorem application_of_decide (h : chain.decide command pattern today = .ok record) :
    record.chain.application =
      { chain.application with
        status := record.chain.application.status
        document := record.chain.application.document
        version := record.chain.application.version } := by
  obtain ⟨cursor, -, -, rfl⟩ := decide_eq_ok_iff.1 h
  rfl

/-- A decision keeps the id of the application. -/
theorem id_of_decide (h : chain.decide command pattern today = .ok record) :
    record.chain.application.id = chain.application.id := by
  obtain ⟨cursor, -, -, rfl⟩ := decide_eq_ok_iff.1 h
  rfl

/-- A decision is made on the version of the chain. -/
theorem expectedVersion_of_decide (h : chain.decide command pattern today = .ok record) :
    record.expectedVersion = chain.application.version := by
  obtain ⟨cursor, -, -, rfl⟩ := decide_eq_ok_iff.1 h
  rfl

/-- A decision takes the application to its next version. -/
theorem version_of_decide (h : chain.decide command pattern today = .ok record) :
    record.chain.application.version = chain.application.nextVersion := by
  obtain ⟨cursor, -, -, rfl⟩ := decide_eq_ok_iff.1 h
  rfl

/-- Where no sequence comes twice, the decided sequences are those of the covered steps alone. -/
theorem mem_covered_of_decided (hnodup : (chain.steps.map Step.sequence).Nodup) {cursor : Cursor}
    (hcursor : chain.cursor? = some cursor) {s : Step} (hs : s ∈ chain.steps)
    (hdecided : s.sequence ∈ (chain.recordAt cursor command pattern today).decidedSequences) :
    s ∈ cursor.current :: command.cascade cursor.after := by
  obtain ⟨hsteps, -, -⟩ := Cursor.find?_eq_some hcursor
  rw [recordAt_decidedSequences] at hdecided
  obtain ⟨t, ht, hsequence⟩ := List.mem_map.1 hdecided
  have hmem : t ∈ chain.steps := by
    rw [hsteps, ← command.cascade_append_drop cursor.after, ← List.cons_append]
    exact List.mem_append_right _ (List.mem_append_left _ ht)
  rwa [← List.inj_on_of_nodup_map hnodup hmem hs hsequence]

/-- Where no sequence comes twice, a decision falls on open steps, those of the decided sequences. -/
theorem isOpen_of_decided (hnodup : (chain.steps.map Step.sequence).Nodup)
    (h : chain.decide command pattern today = .ok record) {s : Step} (hs : s ∈ chain.steps)
    (hdecided : s.sequence ∈ record.decidedSequences) : s.isOpen = true := by
  obtain ⟨cursor, hcursor, -, rfl⟩ := decide_eq_ok_iff.1 h
  rcases List.mem_cons.1 (mem_covered_of_decided hnodup hcursor hs hdecided) with rfl | hrun
  · exact (Cursor.find?_eq_some hcursor).2.1
  · exact (Command.of_mem_cascade hrun).2

/-- Where no sequence comes twice, a decision changes exactly the steps of the decided sequences. -/
theorem steps_of_decide (hnodup : (chain.steps.map Step.sequence).Nodup)
    (h : chain.decide command pattern today = .ok record) :
    record.chain.steps = chain.steps.map fun s =>
      if s.sequence ∈ record.decidedSequences then s.decide (command.decision today) else s := by
  obtain ⟨cursor, hcursor, -, rfl⟩ := decide_eq_ok_iff.1 h
  obtain ⟨hsteps, -, -⟩ := Cursor.find?_eq_some hcursor
  let covered := cursor.current :: command.cascade cursor.after
  let rest := cursor.after.drop (command.cascade cursor.after).length
  have hsplit : chain.steps = cursor.before ++ covered ++ rest := by
    rw [hsteps, List.append_assoc, List.cons_append, command.cascade_append_drop]
  have hnodup' := hnodup.of_map
  rw [hsplit, List.nodup_append, List.nodup_append] at hnodup'
  obtain ⟨⟨-, -, hbefore⟩, -, hrest⟩ := hnodup'
  have hcovered {s : Step} (hs : s ∈ covered) :
      s.sequence ∈ (chain.recordAt cursor command pattern today).decidedSequences := by
    rw [recordAt_decidedSequences]
    exact List.mem_map_of_mem hs
  have hother {s : Step} (hs : s ∈ chain.steps) (hout : s ∉ covered) :
      s.sequence ∉ (chain.recordAt cursor command pattern today).decidedSequences :=
    fun hsequence => hout (mem_covered_of_decided hnodup hcursor hs hsequence)
  have hsame {others : List Step} (hothers : ∀ s ∈ others, s ∈ chain.steps ∧ s ∉ covered) :
      others = others.map fun s =>
        if s.sequence ∈ (chain.recordAt cursor command pattern today).decidedSequences then
          s.decide (command.decision today) else s := by
    conv_lhs => rw [← List.map_id others]
    apply List.map_congr_left
    intro s hs
    rw [if_neg (hother (hothers s hs).1 (hothers s hs).2), id]
  rw [recordAt_steps, hsplit, List.map_append, List.map_append]
  congr 1
  · congr 1
    · refine hsame fun s hs => ⟨by simp [hsplit, hs], fun hs' => hbefore s hs s hs' rfl⟩
    · apply List.map_congr_left
      intro s hs
      rw [if_pos (hcovered hs)]
  · refine hsame fun s hs => ⟨by simp [hsplit, rest, hs], fun hs' => ?_⟩
    exact hrest s (List.mem_append_right _ hs') s hs rfl

end Chain

end SignOff
