import SignOff.Ledger.Register
import SignOff.Proofs.Ledger.Recording
import SignOff.Proofs.Store.Preview

/-!
# Decisions on tables are decisions on chains

The tables may hold whatever their columns and keys admit, also rows that cannot be read. A decision on
an open ledger has the answer that reading the application and deciding on its chain gives, and no
decision ever meets a row that has changed in between. Of all rows a successful decision writes those of the
decided steps and three columns of one header, and what is read afterwards is the chain of its record.
-/

namespace SignOff

/-- A request that is no command is not refused on account of another change. -/
theorem DecisionRequest.command_ne_concurrentModification (request : DecisionRequest) (id : String) :
    request.command ≠ .error (.concurrentModification id) := by
  unfold DecisionRequest.command
  by_cases hid : Text.trim request.applicationId = ""
  · simp [hid]
  · by_cases happrover : Text.trim request.approver = ""
    · simp [hid, happrover]
    · cases request.outcome with
      | none => simp [hid, happrover]
      | some words => cases houtcome : Outcome.ofWords? words <;> simp [hid, happrover, houtcome]

/-- A chain does not refuse a command on account of another change. -/
theorem Chain.decide_ne_concurrentModification (chain : Chain) (command : Command) (pattern : String)
    (today : Date) (id : String) :
    chain.decide command pattern today ≠ .error (.concurrentModification id) := by
  unfold Chain.decide
  split
  · simp
  · split <;> simp

namespace Ledger

/-- The answer to a request as reading the application and deciding on its chain give it. -/
def answerOf (ledger : Ledger) (policy : Policy) (today : Date) (request : DecisionRequest) :
    Except Refusal Record := do
  let command ← request.command
  let id := Text.trim request.applicationId
  match ← ledger.view id with
  | none => .error (.applicationNotFound id)
  | some chain => chain.decide command policy.dateFormat today

/-- Of all rows only the header of the record's application and the rows of its decided steps have been
written, the header in its status, document and version, and the others with the decision. -/
structure Written (before : Tables) (record : Record) (d : Decision) (after : Tables) : Prop where
  headers : after.headers = before.headers.map fun row => row.take record.chain.application
  steps : after.steps = before.steps.map fun row =>
    row.take record.chain.application.id record.decidedSequences d
  links : after.links = before.links

variable {t : Tables} {policy : Policy} {today : Date} {request : DecisionRequest} {command : Command}

/-- What a decision does to an open ledger with well-formed tables, in all cases. -/
theorem decide_of_wellFormed (hwf : t.WellFormed) (hcommand : request.command = .ok command) :
    Service.decide policy today (⟨t, true⟩ : Ledger) request =
      match t.chain? command.applicationId with
      | .error fault => (.error fault.refusal, ⟨t, true⟩)
      | .ok none => (.error (.applicationNotFound command.applicationId), ⟨t, true⟩)
      | .ok (some chain) =>
        match chain.decide command policy.dateFormat today with
        | .error refusal => (.error refusal, ⟨t, true⟩)
        | .ok record =>
          (.ok record, ⟨t.mapRows (fun row => row.take record.chain.application) fun row =>
            row.take command.applicationId record.decidedSequences (command.decision today), true⟩) := by
  have hopen : UnitStore.openUnit (⟨t, true⟩ : Ledger) = .ok t := rfl
  have hload : UnitStore.load (⟨t, true⟩ : Ledger) t command.applicationId =
      (answer (t.chain? command.applicationId), t) := rfl
  simp only [Service.decide, hcommand, UnitStore.inUnit, hopen]
  cases hchain : t.chain? command.applicationId with
  | error fault =>
    rw [hchain] at hload
    simp only [UnitStore.recordDecision, UnitStore.compute, hload, answer]
  | ok found =>
    rw [hchain] at hload
    cases found with
    | none => simp only [UnitStore.recordDecision_of_load_none hload]
    | some chain =>
      cases hdecide : chain.decide command policy.dateFormat today with
      | error refusal => simp only [UnitStore.recordDecision_of_decide_error hload hdecide, hdecide]
      | ok record =>
        have hstore : UnitStore.store (⟨t, true⟩ : Ledger) t record = _ :=
          Tables.store_eq hwf hchain hdecide
        simp only [UnitStore.recordDecision_of_decide_ok hload hdecide, hdecide, hstore, Except.map]
        rfl

/-- An open ledger shows the chains that are read from its tables. -/
theorem view_of_open (t : Tables) (id : String) :
    view (⟨t, true⟩ : Ledger) id = answer (t.chain? id) := rfl

/-- What an open ledger cannot answer about an application is on account of an unreadable row. -/
theorem fault_of_view {id : String} {refusal : Refusal}
    (h : view (⟨t, true⟩ : Ledger) id = .error refusal) :
    ∃ fault, t.chain? id = .error fault ∧ refusal = fault.refusal := by
  rw [view_of_open] at h
  cases hchain : t.chain? id with
  | error fault =>
    rw [hchain, answer, Except.error.injEq] at h
    exact ⟨fault, rfl, h.symm⟩
  | ok found => simp [hchain, answer] at h

/-- The answer to a decision on well-formed tables is that of the chain that is read from them. -/
theorem decide_eq_answerOf (hwf : t.WellFormed) :
    (Service.decide policy today (⟨t, true⟩ : Ledger) request).1 =
      answerOf ⟨t, true⟩ policy today request := by
  cases hcommand : request.command with
  | error refusal => simp [Service.decide, answerOf, hcommand, bind, Except.bind]
  | ok command =>
    obtain ⟨hid, -⟩ := DecisionRequest.command_eq_ok_iff.1 hcommand
    rw [decide_of_wellFormed hwf hcommand, answerOf, hcommand, ← hid]
    simp only [bind, Except.bind, view_of_open]
    cases t.chain? command.applicationId with
    | error fault => rfl
    | ok found =>
      cases found with
      | none => rfl
      | some chain =>
        simp only [answer]
        cases chain.decide command policy.dateFormat today <;> rfl

/-- No answer that reading and deciding give is on account of another change. -/
theorem answerOf_ne_concurrentModification (id : String) :
    answerOf ⟨t, true⟩ policy today request ≠ .error (.concurrentModification id) := by
  intro h
  cases hcommand : request.command with
  | error refusal =>
    rw [answerOf, hcommand] at h
    simp only [bind, Except.bind, Except.error.injEq] at h
    exact request.command_ne_concurrentModification id (h ▸ hcommand)
  | ok command =>
    rw [answerOf, hcommand] at h
    simp only [bind, Except.bind] at h
    cases hview : view (⟨t, true⟩ : Ledger) (Text.trim request.applicationId) with
    | error refusal =>
      obtain ⟨fault, -, rfl⟩ := fault_of_view hview
      simp [hview, Fault.refusal] at h
    | ok found =>
      cases found with
      | none => simp [hview] at h
      | some chain =>
        simp only [hview] at h
        exact chain.decide_ne_concurrentModification command policy.dateFormat today id h

/-- What a successful decision leaves on an open ledger. -/
theorem decided_of_wellFormed (hwf : t.WellFormed) {record : Record} {after : Ledger}
    (h : Service.decide policy today (⟨t, true⟩ : Ledger) request = (.ok record, after)) :
    ∃ command, request.command = .ok command ∧ record.chain.application.id = command.applicationId ∧
      after.view command.applicationId = .ok (some record.chain) ∧
      (∀ other, other ≠ command.applicationId → after.view other = view ⟨t, true⟩ other) ∧
      after.isOpen = true ∧ after.tables.WellFormed ∧
      Written t record (command.decision today) after.tables := by
  cases hcommand : request.command with
  | error refusal => simp [Service.decide, hcommand] at h
  | ok command =>
    rw [decide_of_wellFormed hwf hcommand] at h
    cases hchain : t.chain? command.applicationId with
    | error fault => simp [hchain] at h
    | ok found =>
      cases found with
      | none => simp [hchain] at h
      | some chain =>
        cases hdecide : chain.decide command policy.dateFormat today with
        | error refusal => simp [hchain, hdecide] at h
        | ok decided =>
          obtain ⟨after', hafter', hwf', -, hread, hothers⟩ := Tables.chain?_store hwf hchain hdecide
          rw [Tables.store_eq hwf hchain hdecide, Prod.mk.injEq] at hafter'
          obtain ⟨-, rfl⟩ := hafter'
          simp only [hchain, hdecide, Prod.mk.injEq, Except.ok.injEq] at h
          obtain ⟨rfl, rfl⟩ := h
          have hid : decided.chain.application.id = command.applicationId := by
            rw [Chain.id_of_decide hdecide, Tables.id_of_chain? hchain]
          refine ⟨command, rfl, hid, ?_, ?_, rfl, hwf', rfl, ?_, rfl⟩
          · rw [view_of_open, hread, answer]
          · intro other hother
            rw [view_of_open, view_of_open, hothers other hother]
          · rw [hid]
            rfl

variable (policy today request)

/-- Whatever the rows of an open ledger say, a decision has the answer that reading its application and
deciding on the chain gives, where what cannot be read is refused as such and another change never is the
reason. After a success the chain of the record is read, other applications are read as before, and of all
rows only the header and the decided steps have been written. -/
theorem decide_refines_chain (hwf : t.WellFormed) :
    let ledger : Ledger := ⟨t, true⟩
    let result := Service.decide policy today ledger request
    result.1 = answerOf ledger policy today request ∧
      (∀ id refusal, ledger.view id = .error refusal → ∃ fault : Fault, refusal = fault.refusal) ∧
      (∀ id, result.1 ≠ .error (.concurrentModification id)) ∧
      ∀ record, result.1 = .ok record →
        ∃ command, request.command = .ok command ∧
          record.chain.application.id = command.applicationId ∧
          result.2.view command.applicationId = .ok (some record.chain) ∧
          (∀ other, other ≠ command.applicationId → result.2.view other = ledger.view other) ∧
          result.2.isOpen = true ∧ result.2.tables.WellFormed ∧
          Written t record (command.decision today) result.2.tables := by
  intro ledger result
  have hanswer : result.1 = answerOf ledger policy today request := decide_eq_answerOf hwf
  refine ⟨hanswer, ?_, ?_, ?_⟩
  · intro id refusal hview
    obtain ⟨fault, -, hrefusal⟩ := fault_of_view hview
    exact ⟨fault, hrefusal⟩
  · intro id
    rw [hanswer]
    exact answerOf_ne_concurrentModification id
  · intro record hok
    exact decided_of_wellFormed hwf (Prod.ext hok rfl)

/-- A decision on a step that is open but has stale entries in the columns of a decision, and on a header
whose status and document do not fit the steps. -/
theorem decide_refines_chain_of_stale_columns :
    let t : Tables := {
      headers := [⟨"7", none, some "none", .rejected, "kim", "1970-1-1", none, .whole 5⟩]
      steps := [⟨"7", .whole 4, "lee", false, some "soon", some "old", some .rejected, true⟩]
      links := [] }
    let result := Service.decide ⟨100, "%Y"⟩ Date.epoch (⟨t, true⟩ : Ledger)
      ⟨" 7 ", "lee", none, some "approve"⟩
    t.WellFormed ∧ result.2.view "7" =
      .ok (some ⟨⟨"7", none, some "none", .approved, "kim", Date.epoch, none, 6⟩,
        [⟨"7", 4, "lee", some ⟨.approved, Date.epoch, none⟩, true⟩]⟩) := by
  intro t result
  have hwf : t.WellFormed := by decide +kernel
  refine ⟨hwf, ?_⟩
  let chain : Chain := ⟨⟨"7", none, some "none", .rejected, "kim", Date.epoch, none, 5⟩,
    [⟨"7", 4, "lee", none, true⟩]⟩
  let command : Command := ⟨"7", "lee", none, .approved⟩
  have hcommand : (⟨" 7 ", "lee", none, some "approve"⟩ : DecisionRequest).command = .ok command := by
    decide +kernel
  have hchain : t.chain? "7" = .ok (some chain) := by
    have hsteps : t.stepsOf "7" = t.steps := List.mergeSort_singleton _
    refine Tables.chain?_eq_some_iff.2 ⟨_, rfl, by decide +kernel, ?_⟩
    rw [hsteps]
    exact .cons (by decide +kernel) .nil
  obtain ⟨hanswer, -, -, hok⟩ := decide_refines_chain ⟨100, "%Y"⟩ Date.epoch
    ⟨" 7 ", "lee", none, some "approve"⟩ hwf
  have htrim : Text.trim " 7 " = "7" := by decide +kernel
  have hview : view ⟨t, true⟩ "7" = .ok (some chain) := congrArg answer hchain
  have hrecord : result.1 = chain.decide command "%Y" Date.epoch := by
    rw [hanswer, answerOf, hcommand, htrim]
    simp only [bind, Except.bind, hview]
  have hchains : (chain.decide command "%Y" Date.epoch).map Record.chain =
      .ok ⟨⟨"7", none, some "none", .approved, "kim", Date.epoch, none, 6⟩,
        [⟨"7", 4, "lee", some ⟨.approved, Date.epoch, none⟩, true⟩]⟩ := by
    decide +kernel
  cases hdecide : chain.decide command "%Y" Date.epoch with
  | error refusal => simp [hdecide, Except.map] at hchains
  | ok record =>
    rw [hdecide, Except.map, Except.ok.injEq] at hchains
    obtain ⟨made, hmade, -, hread, -⟩ := hok record (hrecord.trans hdecide)
    obtain rfl : command = made := Except.ok.inj (hcommand.symm.trans hmade)
    rw [← hchains]
    exact hread

end Ledger
end SignOff
