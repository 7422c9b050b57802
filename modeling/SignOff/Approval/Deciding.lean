import SignOff.Approval.Refusal
import SignOff.Document

/-!
# Deciding

A decision falls on the current step of a chain and has to come from its approver. An approval also
covers the steps that follow directly, as long as they are open and have the same approver; a
rejection covers one step. The application is approved when the last step covered is final. The
detail document follows, and a document that cannot be followed never stops a decision.
-/

namespace SignOff

/-- A decision as a caller sends it. -/
structure DecisionRequest where
  applicationId : String
  approver : String
  opinion : Option String
  outcome : Option String
deriving DecidableEq, Repr

/-- A decision with its outcome understood. -/
structure Command where
  applicationId : String
  approver : String
  opinion : Option String
  outcome : Outcome
deriving DecidableEq, Repr

/-- The command that a request means. The first thing missing decides the refusal. -/
def DecisionRequest.command (request : DecisionRequest) : Except Refusal Command :=
  let id := Text.trim request.applicationId
  let approver := Text.trim request.approver
  if id = "" then .error (.invalidRequest "application id is required")
  else if approver = "" then .error (.invalidRequest "approver id is required")
  else match request.outcome with
    | none => .error (.invalidOutcome "")
    | some words =>
      match Outcome.ofWords? words with
      | none => .error (.invalidOutcome (Text.trim words))
      | some outcome => .ok ⟨id, approver, request.opinion, outcome⟩

/-- What became of the detail document along with a decision. -/
inductive DocumentReport where
  | skipped
  | unchanged
  | updated (entries : Nat)
  | failed (fault : Document.Fault)
deriving DecidableEq, Repr

/-- A chain after a decision, ready to be stored. -/
structure Record where
  chain : Chain
  /-- The version of the header that the decision was made on. -/
  expectedVersion : Int
  /-- The sequences of the steps that the decision covers. -/
  decidedSequences : List Nat
  report : DocumentReport
deriving DecidableEq

/-- The steps of the chain whose sequence is among the decided ones. -/
def Record.decidedSteps (record : Record) : List Step :=
  record.chain.steps.filter fun s => record.decidedSequences.contains s.sequence

/-- The status of the application after the decision. -/
def Record.status (record : Record) : Status := record.chain.application.status

namespace Command

/-- The decision that a command leaves on a step. -/
def decision (command : Command) (today : Date) : Decision :=
  ⟨command.outcome, today, command.opinion⟩

/-- The steps after the current one that the command covers too. -/
def cascade (command : Command) (after : List Step) : List Step :=
  match command.outcome with
  | .rejected => []
  | .approved => after.takeWhile fun s => s.approver = command.approver && s.isOpen

/-- The status after a decision whose last covered step is `last`. -/
def statusAfter (command : Command) (last : Step) (status : Status) : Status :=
  match command.outcome with
  | .rejected => .rejected
  | .approved => if last.isFinal then .approved else status

end Command

/-- The document and the report after following the chain. -/
def followDocument (pattern : String) (document : Option String) (steps : List Step)
    (decided : List Nat) (today : Date) : Option String × DocumentReport :=
  match Document.synchronize pattern document steps decided today with
  | .ok .skipped => (document, .skipped)
  | .ok .unchanged => (document, .unchanged)
  | .ok (.updated text entries) => (some text, .updated entries)
  | .error fault => (document, .failed fault)

/-- The record of a command whose decision falls on the cursor. -/
def Chain.recordAt (chain : Chain) (cursor : Cursor) (command : Command) (pattern : String)
    (today : Date) : Record :=
  let run := command.cascade cursor.after
  let covered := (cursor.current :: run).map fun s => s.decide (command.decision today)
  let last := run.getLastD cursor.current
  let steps := cursor.before ++ covered ++ cursor.after.drop run.length
  let decided := covered.map Step.sequence
  let (document, report) := followDocument pattern chain.application.document steps decided today
  let application : Application :=
    { chain.application with
      status := command.statusAfter last chain.application.status
      document := document
      version := chain.application.nextVersion }
  ⟨⟨application, steps⟩, chain.application.version, decided, report⟩

/-- Applies a command to a chain. -/
def Chain.decide (chain : Chain) (command : Command) (pattern : String) (today : Date) :
    Except Refusal Record :=
  match chain.cursor? with
  | none => .error (.noActionableStep chain.application.id)
  | some cursor =>
    if cursor.current.approver = command.approver then
      .ok (chain.recordAt cursor command pattern today)
    else
      .error (.wrongApprover chain.application.id cursor.current.approver command.approver)

end SignOff
