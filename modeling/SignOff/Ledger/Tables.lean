import SignOff.Approval.Deciding
import SignOff.Ledger.Row

/-!
# Tables of the ledger

Three tables: headers, steps and links. An application is read by finding its header and sorting
its steps by their sequence. The record of a decision is written onto rows that are as the decision
found them: the header by its version, each decided step by being open. A write that finds a row
changed stops there and leaves what it has written before, so it belongs into a unit of work that is
then abandoned.
-/

namespace SignOff.Ledger

/-- The contents of the ledger, rows in the order of their insertion. -/
structure Tables where
  headers : List HeaderRow
  steps : List StepRow
  links : List LinkRow
deriving DecidableEq

namespace Tables

/-- Tables without rows. -/
def empty : Tables := ⟨[], [], []⟩

/-- The header row of an application. -/
def header? (t : Tables) (id : String) : Option HeaderRow := t.headers.find? fun row => row.id = id

/-- The step rows of an application by sequence. -/
def stepsOf (t : Tables) (id : String) : List StepRow :=
  (t.steps.filter fun row => row.applicationId = id).mergeSort fun a b =>
    a.sequence.precedes b.sequence

/-- The chain of an application, if there is one. -/
def chain? (t : Tables) (id : String) : Except Fault (Option Chain) :=
  match t.header? id with
  | none => .ok none
  | some header => do
    let application ← header.application
    let steps ← (t.stepsOf id).mapM StepRow.step
    return some ⟨application, steps⟩

/-- Writes the header of a record where its version is the expected one. -/
def writeHeader (t : Tables) (record : Record) : Option Tables :=
  let a := record.chain.application
  let fits (row : HeaderRow) : Bool := row.id = a.id && row.version = .whole record.expectedVersion
  if t.headers.any fits then
    let write (row : HeaderRow) : HeaderRow :=
      if fits row then
        { row with status := a.status, document := a.document, version := .whole a.version }
      else row
    some { t with headers := t.headers.map write }
  else none

/-- Writes a decision where the step is open. -/
def writeDecision (t : Tables) (s : Step) (d : Decision) : Option Tables :=
  let fits (row : StepRow) : Bool :=
    row.applicationId = s.applicationId && row.sequence = .whole s.sequence && !row.isDecided
  if t.steps.countP fits = 1 then
    some { t with steps := t.steps.map fun row => if fits row then row.decide d else row }
  else none

/-- Writes the decisions of steps one after another; tells whether all could be written. -/
def writeDecisions (t : Tables) : List Step → Bool × Tables
  | [] => (true, t)
  | s :: rest =>
    match s.decision with
    | none => writeDecisions t rest
    | some d =>
      match t.writeDecision s d with
      | none => (false, t)
      | some t => writeDecisions t rest

/-- Writes the record of a decision. -/
def store (t : Tables) (record : Record) : Except Refusal Unit × Tables :=
  let conflict : Refusal := .concurrentModification record.chain.application.id
  match t.writeHeader record with
  | none => (.error conflict, t)
  | some t =>
    match t.writeDecisions record.decidedSteps with
    | (true, t) => (.ok (), t)
    | (false, t) => (.error conflict, t)

/-- The tables with a submission as the application `id`, linked to what it is about. -/
def submit (t : Tables) (id : String) (s : Submission) (today : Date) : Tables :=
  let link (o : Origin) : LinkRow :=
    ⟨t.links.length + 1, id, { o with tableCode := Text.trim o.tableCode }⟩
  { headers := t.headers ++ [HeaderRow.ofApplication (s.header id today)]
    steps := t.steps ++ (s.steps id).map StepRow.ofStep
    links := t.links ++ (s.origin.map link).toList }

/-- The links of a record with the headers of their applications, oldest first. -/
def linked (t : Tables) (origin : Origin) : List (LinkRow × HeaderRow) :=
  (t.links.filter fun row => row.origin = origin).filterMap fun row =>
    (t.header? row.applicationId).map fun header => (row, header)

end Tables

end SignOff.Ledger
