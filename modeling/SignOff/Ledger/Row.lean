import SignOff.Approval.Chain
import SignOff.Approval.OriginLink
import SignOff.Calendar.DateText
import SignOff.Ledger.Cell

/-!
# Rows of the ledger

The tables hold dates as texts and whole numbers as cells, so a row that somebody has edited by hand
need not be readable. What the columns are restricted to is in the types: a status, an outcome and a
flag are always one of their values. Reading a row takes its columns in a fixed order, and the first
that cannot be read is the fault.

Left out are the columns with the moments at which a row was made and last changed, which nothing reads, and
values of raw bytes, which somebody could put into any column of texts or numbers.
-/

namespace SignOff.Ledger

/-- Why a row cannot be read. -/
inductive Fault where
  | badDate (text : String) (reason : Date.Fault)
  /-- A column for whole numbers holds something else. -/
  | notWhole (column : String) (cell : Cell)
  | badSequence (n : Int)
  | noOutcome (sequence : Nat)
  | noDecisionDate (sequence : Nat)
deriving DecidableEq

/-- The wording of a fault. -/
def Fault.message : Fault → String
  | .badDate text reason => "invalid date `" ++ text ++ "`: " ++ reason.message
  | .notWhole column cell =>
    "error occurred while decoding column \"" ++ column ++
      "\": mismatched types; Rust type `i64` (as SQL type `INTEGER`) is not compatible with SQL type `" ++
      cell.typeName ++ "`"
  | .badSequence n => "invalid step sequence " ++ Text.integerDecimal n
  | .noOutcome sequence => "decided step " ++ Text.decimal sequence ++ " has outcome None"
  | .noDecisionDate sequence => "decided step " ++ Text.decimal sequence ++ " has no decision date"

/-- The number in a column for whole numbers. -/
def wholeNumber (column : String) : Cell → Except Fault Int
  | .whole n => .ok n
  | cell => .error (.notWhole column cell)

/-- The date in a text column. -/
def storedDate (text : String) : Except Fault Date :=
  match Date.readStored text with
  | .ok date => .ok date
  | .error reason => .error (.badDate text reason)

/-- The row of an application. -/
structure HeaderRow where
  id : String
  title : Option String
  document : Option String
  status : Status
  requester : String
  requestedOn : String
  requesterOpinion : Option String
  version : Cell
deriving DecidableEq

namespace HeaderRow

/-- The row that an application is written as. -/
def ofApplication (a : Application) : HeaderRow :=
  { id := a.id
    title := a.title
    document := a.document
    status := a.status
    requester := a.requester
    requestedOn := a.requestedOn.toText
    requesterOpinion := a.requesterOpinion
    version := .whole a.version }

/-- The application in a row: first its date, then its version. -/
def application (row : HeaderRow) : Except Fault Application := do
  let requestedOn ← storedDate row.requestedOn
  let version ← wholeNumber "version" row.version
  return {
    id := row.id
    title := row.title
    document := row.document
    status := row.status
    requester := row.requester
    requestedOn := requestedOn
    requesterOpinion := row.requesterOpinion
    version := version }

end HeaderRow

/-- The row of a step. A decision is what the other three columns say only if the step is marked as
decided. -/
structure StepRow where
  applicationId : String
  sequence : Cell
  approver : String
  isDecided : Bool
  decidedOn : Option String
  opinion : Option String
  outcome : Option Outcome
  isFinal : Bool
deriving DecidableEq

namespace StepRow

/-- The row that a step is written as. -/
def ofStep (s : Step) : StepRow :=
  { applicationId := s.applicationId
    sequence := .whole s.sequence
    approver := s.approver
    isDecided := !s.isOpen
    decidedOn := s.decision.map fun d => d.decidedOn.toText
    opinion := s.decision.bind Decision.opinion
    outcome := s.decision.map Decision.outcome
    isFinal := s.isFinal }

/-- The sequence of a row, within 32 bits. -/
def sequenceNumber (row : StepRow) : Except Fault Nat := do
  let n ← wholeNumber "sequence" row.sequence
  if 0 ≤ n ∧ n ≤ Text.nat32Greatest then return n.toNat else throw (.badSequence n)

/-- The decision in the row of the step `sequence`: first its outcome, then its date. -/
def decision (row : StepRow) (sequence : Nat) : Except Fault (Option Decision) :=
  if row.isDecided then
    match row.outcome, row.decidedOn with
    | none, _ => .error (.noOutcome sequence)
    | some _, none => .error (.noDecisionDate sequence)
    | some outcome, some text =>
      match storedDate text with
      | .error fault => .error fault
      | .ok decidedOn => .ok (some ⟨outcome, decidedOn, row.opinion⟩)
  else .ok none

/-- The step in a row. -/
def step (row : StepRow) : Except Fault Step := do
  let sequence ← row.sequenceNumber
  let decision ← row.decision sequence
  return {
    applicationId := row.applicationId
    sequence := sequence
    approver := row.approver
    decision := decision
    isFinal := row.isFinal }

/-- The row with a decision. -/
def decide (row : StepRow) (d : Decision) : StepRow :=
  { row with
    isDecided := true
    decidedOn := some d.decidedOn.toText
    opinion := d.opinion
    outcome := some d.outcome }

end StepRow

/-- The row of a link from a record to an application. -/
structure LinkRow where
  number : Nat
  applicationId : String
  origin : Origin
deriving DecidableEq

/-- The link in a row. -/
def LinkRow.link (row : LinkRow) : OriginLink :=
  { id := OriginLink.idOf row.number
    applicationId := row.applicationId
    tableCode := row.origin.tableCode
    key := row.origin.key
    subSequence := row.origin.subSequence }

end SignOff.Ledger
