import SignOff.Proofs.Approval.Deciding

/-!
# Where a decision falls

A chain of any shape awaits a decision at one position at most: that of the first open step, if all steps
before it are approved. From there a rejection covers one step, and an approval the whole run of open steps of
the same approver. A decision changes the steps at exactly these positions, each by the same decision, and of
the application the status, the document and the version.
-/

namespace SignOff

namespace Chain

/-- The step `s` at position `i` awaits a decision: it is open, and all steps before it are approved. -/
def AwaitsAt (chain : Chain) (i : Nat) (s : Step) : Prop :=
  chain.steps[i]? = some s ∧ s.isOpen = true ∧
    ∀ j t, j < i → chain.steps[j]? = some t → t.isApproved = true

/-- The positions from `first` to `last` are those that an outcome covers when it starts at `first`: this one
alone for a rejection, and for an approval the maximal run of open steps of the approver. -/
structure Covers (chain : Chain) (outcome : Outcome) (approver : String) (first last : Nat) : Prop where
  first_le : first ≤ last
  last_lt : last < chain.steps.length
  eq_of_rejected : outcome = .rejected → last = first
  run_of_approved : outcome = .approved → ∀ i s, first ≤ i → i ≤ last → chain.steps[i]? = some s →
    s.isOpen = true ∧ s.approver = approver
  maximal_of_approved : outcome = .approved → ∀ s, chain.steps[last + 1]? = some s →
    ¬(s.isOpen = true ∧ s.approver = approver)

/-- The record is that of a decision which covers the positions from `first` to `last`. -/
structure DecidedAt (chain : Chain) (command : Command) (pattern : String) (today : Date) (first last : Nat)
    (record : Record) : Prop where
  /-- Each step stays where it is, and those covered have the decision. -/
  steps : ∀ i, record.chain.steps[i]? = chain.steps[i]?.map fun s =>
    if first ≤ i ∧ i ≤ last then s.decide (command.decision today) else s
  /-- The positions covered are those whose step is another one than before. -/
  changed : ∀ i, record.chain.steps[i]? ≠ chain.steps[i]? ↔ first ≤ i ∧ i ≤ last
  application : record.chain.application =
    { chain.application with
      status := record.chain.application.status
      document := record.chain.application.document
      version := chain.application.nextVersion }
  /-- Below the greatest version the version is raised by one. -/
  raised : chain.application.Fits → chain.application.version < Text.int64Greatest →
    record.chain.application.version = chain.application.version + 1
  rejected : command.outcome = .rejected → record.chain.application.status = .rejected
  approved : command.outcome = .approved → ∀ s, chain.steps[last]? = some s →
    record.chain.application.status = if s.isFinal then .approved else chain.application.status
  /-- The document follows the steps as they are now. -/
  followed : (record.chain.application.document, record.report) =
    followDocument pattern chain.application.document record.chain.steps record.decidedSequences today
  expectedVersion : record.expectedVersion = chain.application.version
  sequences : record.decidedSequences = ((chain.steps.drop first).take (last + 1 - first)).map Step.sequence
  /-- Where no sequence comes twice, the decided steps are those at the positions covered. -/
  decidedSteps : (chain.steps.map Step.sequence).Nodup →
    record.decidedSteps = (record.chain.steps.drop first).take (last + 1 - first)

end Chain

namespace Cursor

/-- A cursor is found exactly where a step awaits a decision, and stands on it. -/
theorem exists_find?_iff {chain : Chain} {i : Nat} {s : Step} :
    chain.AwaitsAt i s ↔ ∃ c, chain.cursor? = some c ∧ c.before.length = i ∧ c.current = s := by
  constructor
  · rintro ⟨hs, hopen, hbefore⟩
    obtain ⟨hi, hget⟩ := List.getElem?_eq_some_iff.1 hs
    refine ⟨⟨chain.steps.take i, s, chain.steps.drop (i + 1)⟩, find?_eq_some_iff.2 ⟨?_, hopen, ?_⟩, ?_, rfl⟩
    · rw [← hget, ← List.drop_eq_getElem_cons hi, List.take_append_drop]
    · intro t ht
      obtain ⟨j, hj⟩ := List.mem_iff_getElem?.1 ht
      rw [List.getElem?_take] at hj
      split at hj
      · next hlt => exact hbefore j t hlt hj
      · contradiction
    · exact List.length_take_of_le (Nat.le_of_lt hi)
  · rintro ⟨c, hc, rfl, rfl⟩
    obtain ⟨hsteps, hopen, hbefore⟩ := find?_eq_some hc
    refine ⟨?_, hopen, fun j t hj ht => hbefore t ?_⟩
    · rw [hsteps, List.getElem?_append_right (Nat.le_refl _), Nat.sub_self, List.getElem?_cons_zero]
    · rw [hsteps, List.getElem?_append_left hj] at ht
      exact List.mem_of_getElem? ht

/-- No cursor is found exactly where no step awaits a decision. -/
theorem cursor?_eq_none_iff {chain : Chain} : chain.cursor? = none ↔ ∀ i s, ¬chain.AwaitsAt i s := by
  constructor
  · intro hnone i s hawaits
    obtain ⟨c, hc, -⟩ := exists_find?_iff.1 hawaits
    rw [hnone] at hc
    contradiction
  · intro h
    cases hcursor : chain.cursor? with
    | none => rfl
    | some c => exact absurd (exists_find?_iff.2 ⟨c, hcursor, rfl, rfl⟩) (h _ _)

end Cursor

namespace Command

/-- What follows the steps that an approval runs on to does not go on with its run. -/
theorem not_run_of_head?_drop {command : Command} (h : command.outcome = .approved) {after : List Step} {s : Step}
    (hs : (after.drop (command.cascade after).length).head? = some s) :
    ¬(s.isOpen = true ∧ s.approver = command.approver) := by
  let runs (s : Step) : Bool := s.approver = command.approver && s.isOpen
  have hcascade : command.cascade after = after.takeWhile runs := by simp only [cascade, h, runs]
  have hdrop : after.drop (command.cascade after).length = after.dropWhile runs := by
    have hsplit := (command.cascade_append_drop after).trans (List.takeWhile_append_dropWhile (p := runs)).symm
    rw [hcascade] at hsplit ⊢
    exact List.append_cancel_left hsplit
  have hhead := List.head?_dropWhile_not runs after
  rw [← hdrop, hs] at hhead
  rintro ⟨hopen, happrover⟩
  simp [runs, hopen, happrover] at hhead

end Command

namespace Cursor

variable (cursor : Cursor) (command : Command)

/-- The steps that a command covers at a cursor: the current one and those it runs on to. -/
def covered : List Step := cursor.current :: command.cascade cursor.after

/-- The steps behind those that a command covers. -/
def rest : List Step := cursor.after.drop (command.cascade cursor.after).length

/-- The position of the last step that a command covers. -/
def last : Nat := cursor.before.length + (command.cascade cursor.after).length

/-- The steps before the current one and the covered ones reach up to the last covered step. -/
theorem length_before_add_covered : cursor.before.length + (cursor.covered command).length = cursor.last command + 1 :=
  rfl

end Cursor

namespace Chain

/-- A change of the middle part of a list changes the values at its positions. -/
theorem getElem?_map_middle {α : Type} (f : α → α) (before covered rest : List α) (i : Nat) :
    (before ++ covered.map f ++ rest)[i]? = (before ++ covered ++ rest)[i]?.map fun a =>
      if before.length ≤ i ∧ i < before.length + covered.length then f a else a := by
  simp only [List.getElem?_append, List.length_append, List.length_map, List.getElem?_map]
  by_cases hbefore : i < before.length
  · have hlt : i < before.length + covered.length := by omega
    simp [hbefore, hlt, Nat.not_le.2 hbefore]
  · by_cases hcovered : i < before.length + covered.length
    · simp [hbefore, hcovered, Nat.not_lt.1 hbefore]
    · simp [hcovered]

/-- The middle part of a list is what is taken from its place. -/
theorem take_drop_middle {α : Type} (before middle rest : List α) {n : Nat} (hn : n = before.length + middle.length) :
    ((before ++ middle ++ rest).drop before.length).take (n - before.length) = middle := by
  rw [List.append_assoc, List.drop_left, List.take_left']
  omega

variable {chain : Chain} {command : Command} {pattern : String} {today : Date} {cursor : Cursor}

section Covered

variable (hcursor : chain.cursor? = some cursor)
include hcursor

/-- The steps fall into those before the cursor, those covered and the rest. -/
theorem steps_eq_of_cursor? (command : Command) :
    chain.steps = cursor.before ++ cursor.covered command ++ cursor.rest command := by
  obtain ⟨hsteps, -, -⟩ := Cursor.find?_eq_some hcursor
  rw [hsteps, List.append_assoc, Cursor.covered, Cursor.rest, List.cons_append, command.cascade_append_drop]

/-- A step at a position that is covered is one of those covered. -/
theorem mem_covered_of_getElem? {i : Nat} {s : Step} (hfirst : cursor.before.length ≤ i)
    (hlast : i ≤ cursor.last command) (hs : chain.steps[i]? = some s) : s ∈ cursor.covered command := by
  have hlength := cursor.length_before_add_covered command
  rw [steps_eq_of_cursor? hcursor command, List.getElem?_append_left (by rw [List.length_append]; omega),
    List.getElem?_append_right hfirst] at hs
  exact List.mem_of_getElem? hs

/-- All steps that a decision covers are open. -/
theorem isOpen_of_mem_covered {s : Step} (hs : s ∈ cursor.covered command) : s.isOpen = true := by
  rcases List.mem_cons.1 hs with rfl | hrun
  · exact (Cursor.find?_eq_some hcursor).2.1
  · exact (Command.of_mem_cascade hrun).2

/-- A decision of the approver covers the current step and those it runs on to. -/
theorem covers_of_cursor? (happrover : cursor.current.approver = command.approver) :
    chain.Covers command.outcome command.approver cursor.before.length (cursor.last command) := by
  have hsteps := steps_eq_of_cursor? hcursor command
  have hcovered : (cursor.before ++ cursor.covered command).length = cursor.last command + 1 := by
    rw [List.length_append, Cursor.length_before_add_covered]
  refine ⟨Nat.le_add_right _ _, ?last_lt, ?rejected, ?run, ?maximal⟩
  case last_lt =>
    have hlength := congrArg List.length hsteps
    rw [List.length_append, hcovered] at hlength
    omega
  case rejected =>
    intro hrejected
    simp [Cursor.last, Command.cascade, hrejected]
  case run =>
    intro _ i s hfirst hlast hs
    have hmem := mem_covered_of_getElem? hcursor hfirst hlast hs
    refine ⟨isOpen_of_mem_covered hcursor hmem, ?_⟩
    rcases List.mem_cons.1 hmem with rfl | hrun
    · exact happrover
    · exact (Command.of_mem_cascade hrun).1
  case maximal =>
    intro happroved s hs
    rw [hsteps, List.getElem?_append_right hcovered.le, hcovered, Nat.sub_self, ← List.head?_eq_getElem?] at hs
    exact Command.not_run_of_head?_drop happroved hs

/-- The last step covered is the one whose final flag tells the status. -/
theorem getElem?_last (command : Command) : chain.steps[cursor.last command]? =
    some ((command.cascade cursor.after).getLastD cursor.current) := by
  have hlength := cursor.length_before_add_covered command
  have hindex : cursor.last command - cursor.before.length = (cursor.covered command).length - 1 := by omega
  have hfirst : cursor.before.length ≤ cursor.last command := Nat.le_add_right _ _
  rw [steps_eq_of_cursor? hcursor command, List.append_assoc, List.getElem?_append_right hfirst,
    List.getElem?_append_left (by omega), hindex, ← List.getLast?_eq_getElem?, Cursor.covered, List.getLast?_cons,
    List.getLastD_eq_getLast?]

/-- A decision leaves every step where it is, and changes those covered. -/
theorem getElem?_recordAt (command : Command) (pattern : String) (today : Date) (i : Nat) :
    (chain.recordAt cursor command pattern today).chain.steps[i]? = chain.steps[i]?.map fun s =>
      if cursor.before.length ≤ i ∧ i ≤ cursor.last command then s.decide (command.decision today) else s := by
  have hsteps : (chain.recordAt cursor command pattern today).chain.steps = cursor.before ++
      (cursor.covered command).map (fun s => s.decide (command.decision today)) ++ cursor.rest command := rfl
  simp only [hsteps, getElem?_map_middle, ← steps_eq_of_cursor? hcursor command, Cursor.length_before_add_covered,
    Nat.lt_succ_iff]

/-- The positions covered are those whose step is another one after the decision. -/
theorem getElem?_recordAt_ne_iff (happrover : cursor.current.approver = command.approver) (pattern : String)
    (today : Date) (i : Nat) :
    (chain.recordAt cursor command pattern today).chain.steps[i]? ≠ chain.steps[i]? ↔
      cursor.before.length ≤ i ∧ i ≤ cursor.last command := by
  rw [getElem?_recordAt hcursor]
  cases hs : chain.steps[i]? with
  | none =>
    have hi := List.getElem?_eq_none_iff.1 hs
    have hlast := (covers_of_cursor? hcursor happrover).last_lt
    simp only [Option.map_none, ne_eq, not_true_eq_false, false_iff, not_and]
    omega
  | some s =>
    by_cases hi : cursor.before.length ≤ i ∧ i ≤ cursor.last command
    · have hopen := isOpen_of_mem_covered hcursor (mem_covered_of_getElem? hcursor hi.1 hi.2 hs)
      have hne : s.decide (command.decision today) ≠ s := by
        intro heq
        rw [← heq] at hopen
        contradiction
      simpa [hi] using hne
    · simp [hi]

/-- Where no sequence comes twice, the decided steps are those covered, with their decision. -/
theorem decidedSteps_recordAt (hnodup : (chain.steps.map Step.sequence).Nodup) (pattern : String) (today : Date) :
    (chain.recordAt cursor command pattern today).decidedSteps =
      (cursor.covered command).map fun s => s.decide (command.decision today) := by
  have hsteps := steps_eq_of_cursor? hcursor command
  have hapart := hnodup.of_map
  rw [hsteps, List.nodup_append, List.nodup_append] at hapart
  obtain ⟨⟨-, -, hbefore⟩, -, hrest⟩ := hapart
  have hin : ∀ s ∈ (cursor.covered command).map fun s => s.decide (command.decision today),
      (chain.recordAt cursor command pattern today).decidedSequences.contains s.sequence := by
    intro s hs
    obtain ⟨t, ht, rfl⟩ := List.mem_map.1 hs
    rw [recordAt_decidedSequences, List.contains_iff_mem, Step.sequence_decide]
    exact List.mem_map_of_mem ht
  have hout {others : List Step} (hothers : ∀ s ∈ others, s ∈ chain.steps ∧ s ∉ cursor.covered command) :
      others.filter (fun s => (chain.recordAt cursor command pattern today).decidedSequences.contains s.sequence) =
        [] := by
    rw [List.filter_eq_nil_iff]
    intro s hs hdecided
    obtain ⟨hmem, hnot⟩ := hothers s hs
    exact hnot (mem_covered_of_decided hnodup hcursor hmem (List.contains_iff_mem.1 hdecided))
  have hnone : cursor.before.filter _ = [] :=
    hout fun s hs => ⟨by simp [hsteps, hs], fun hs' => hbefore s hs s hs' rfl⟩
  have hlast : (cursor.rest command).filter _ = [] :=
    hout fun s hs => ⟨by simp [hsteps, hs], fun hs' => hrest s (List.mem_append_right _ hs') s hs rfl⟩
  change (cursor.before ++ (cursor.covered command).map (fun s => s.decide (command.decision today)) ++
    cursor.rest command).filter _ = _
  rw [List.filter_append, List.filter_append, hnone, hlast, List.filter_eq_self.2 hin, List.nil_append,
    List.append_nil]

/-- The record of a decision on the cursor is that of the positions covered. -/
theorem decidedAt_of_cursor? (pattern : String) (today : Date)
    (happrover : cursor.current.approver = command.approver) :
    chain.DecidedAt command pattern today cursor.before.length (cursor.last command)
      (chain.recordAt cursor command pattern today) where
  steps := getElem?_recordAt hcursor command pattern today
  changed := getElem?_recordAt_ne_iff hcursor happrover pattern today
  application := rfl
  raised hfits hless := Application.nextVersion_of_lt hfits hless
  rejected houtcome := by simp [Command.statusAfter, houtcome]
  approved houtcome s hs := by
    rw [getElem?_last hcursor, Option.some.injEq] at hs
    rw [recordAt_status, Command.statusAfter, houtcome, hs]
  followed := rfl
  expectedVersion := rfl
  sequences := by
    rw [steps_eq_of_cursor? hcursor command,
      take_drop_middle _ _ _ (cursor.length_before_add_covered command).symm, recordAt_decidedSequences]
    rfl
  decidedSteps hnodup := by
    have hlength := cursor.length_before_add_covered command
    rw [decidedSteps_recordAt hcursor hnodup]
    exact (take_drop_middle _ _ _ (by rw [List.length_map]; exact hlength.symm)).symm

end Covered

/-- Every decision on a chain, whatever its steps: none where no step awaits one, none from anybody but the
approver of the step that does, and otherwise one that covers the steps it should and changes nothing else. -/
theorem decide_at_positions (chain : Chain) (command : Command) (pattern : String) (today : Date) :
    (chain.decide command pattern today = .error (.noActionableStep chain.application.id) ↔
      ∀ i s, ¬chain.AwaitsAt i s) ∧
    ∀ first s, chain.AwaitsAt first s →
      (chain.decide command pattern today =
          .error (.wrongApprover chain.application.id s.approver command.approver) ↔
        s.approver ≠ command.approver) ∧
      (s.approver = command.approver → ∃ record last, chain.decide command pattern today = .ok record ∧
        chain.Covers command.outcome command.approver first last ∧
        chain.DecidedAt command pattern today first last record) := by
  refine ⟨?none, fun first s hawaits => ?some⟩
  case none =>
    rw [← Cursor.cursor?_eq_none_iff, Chain.decide]
    cases hcursor : chain.cursor? with
    | none => simp
    | some cursor => by_cases happrover : cursor.current.approver = command.approver <;> simp [happrover]
  case some =>
    obtain ⟨cursor, hcursor, rfl, rfl⟩ := Cursor.exists_find?_iff.1 hawaits
    refine ⟨?_, fun happrover => ⟨_, _, decide_eq_ok_iff.2 ⟨cursor, hcursor, happrover, rfl⟩,
      covers_of_cursor? hcursor happrover, decidedAt_of_cursor? hcursor pattern today happrover⟩⟩
    rw [Chain.decide, hcursor]
    by_cases happrover : cursor.current.approver = command.approver <;> simp [happrover]

/-- A chain that no submission gives: sequences that are not in order and come twice, an open step before a
rejected one, and no final step. -/
theorem decide_at_positions_of_odd_chain :
    let rejected : Decision := ⟨.rejected, Date.epoch, none⟩
    let waiting : Step := ⟨"7", 2, "kim", none, false⟩
    let steps : List Step := [⟨"7", 5, "lee", some ⟨.approved, Date.epoch, none⟩, true⟩, waiting, waiting,
      waiting.decide rejected, ⟨"7", 9, "kim", none, false⟩]
    let chain : Chain := ⟨⟨"7", none, none, .approved, "park", Date.epoch, none, 3⟩, steps⟩
    let command : Command := ⟨"7", "kim", some "ok", .approved⟩
    chain.AwaitsAt 1 waiting ∧ ∃ record, chain.decide command "%Y" Date.epoch = .ok record ∧
      chain.Covers .approved "kim" 1 2 ∧ chain.DecidedAt command "%Y" Date.epoch 1 2 record := by
  intro rejected waiting steps chain command
  have hawaits : chain.AwaitsAt 1 waiting := by
    refine ⟨rfl, rfl, fun j t hj ht => ?_⟩
    obtain rfl : j = 0 := by omega
    cases ht
    rfl
  obtain ⟨record, last, hdecide, hcovers, hdecided⟩ :=
    ((decide_at_positions chain command "%Y" Date.epoch).2 1 waiting hawaits).2 rfl
  -- The third step goes on with the run, the fourth one does not.
  have hlast : last = 2 := by
    have hlt : last < 5 := hcovers.last_lt
    have hle : last < 3 := by
      by_contra hge
      have := (hcovers.run_of_approved rfl 3 (waiting.decide rejected) (by omega) (by omega) rfl).1
      contradiction
    have hge : last ≠ 1 := by
      rintro rfl
      exact hcovers.maximal_of_approved rfl waiting rfl ⟨rfl, rfl⟩
    have hfirst := hcovers.first_le
    omega
  subst hlast
  exact ⟨hawaits, record, hdecide, hcovers, hdecided⟩

end Chain

end SignOff
