import SignOff.Ledger.Tables

/-!
# Amendments by hand

Single columns of the tables can be set by hand. A value is first fitted to its column: text columns
take whole numbers as numerals, columns for whole numbers take texts that are numerals. An amendment
is refused when the column must not be empty and gets nothing, when the value is none of those the
column is restricted to, or when the tables would then break a rule: ids are unique, the steps of an
application have different sequences of at least one, and every step and link belongs to an
application. An amendment of a row that is not there changes nothing and is never refused.
-/

namespace SignOff.Ledger

/-- A value for a column. -/
inductive Datum where
  | text (s : String)
  | whole (n : Int)
deriving DecidableEq, Repr

namespace Datum

/-- The value in a text column. -/
def toText : Datum → String
  | .text s => s
  | .whole n => Text.integerDecimal n

/-- The value in a column for whole numbers. -/
def toCell : Datum → Cell
  | .text s => Cell.ofText s
  | .whole n => .whole n

/-- The value in a column for flags. -/
def toFlag? (d : Datum) : Option Bool :=
  if d.toCell = .whole 0 then some false else if d.toCell = .whole 1 then some true else none

end Datum

/-- The stored status with a name, letter case and blanks counting. -/
def storedStatus? (s : String) : Option Status :=
  [Status.pending, .approved, .rejected].find? fun status => status.name = s

/-- The columns of the headers. -/
inductive HeaderColumn where
  | id
  | title
  | document
  | status
  | requester
  | requestedOn
  | requesterOpinion
  | version
  /-- A moment that the ledger notes and never reads. -/
  | noted
deriving DecidableEq, Repr

/-- The columns of the steps. -/
inductive StepColumn where
  | applicationId
  | sequence
  | approver
  | decisionKind
  | decidedOn
  | opinion
  | outcome
  | isFinal
deriving DecidableEq, Repr

/-- The column of the headers with a name. -/
def HeaderColumn.ofName? : String → Option HeaderColumn
  | "id" => some .id
  | "title" => some .title
  | "detail_document" => some .document
  | "status" => some .status
  | "requester_id" => some .requester
  | "request_date" => some .requestedOn
  | "requester_opinion" => some .requesterOpinion
  | "version" => some .version
  | "created_at" => some .noted
  | "updated_at" => some .noted
  | _ => none

/-- The column of the steps with a name. -/
def StepColumn.ofName? : String → Option StepColumn
  | "application_id" => some .applicationId
  | "sequence" => some .sequence
  | "approver_id" => some .approver
  | "decision_kind" => some .decisionKind
  | "decision_date" => some .decidedOn
  | "opinion" => some .opinion
  | "outcome" => some .outcome
  | "is_final" => some .isFinal
  | _ => none

/-- The row with a value in a column, if the column takes it. -/
def HeaderRow.set? (row : HeaderRow) (column : HeaderColumn) (value : Option Datum) : Option HeaderRow :=
  let text := value.map Datum.toText
  match column with
  | .id => text.map fun s => { row with id := s }
  | .title => some { row with title := text }
  | .document => some { row with document := text }
  | .status => (text.bind storedStatus?).map fun s => { row with status := s }
  | .requester => text.map fun s => { row with requester := s }
  | .requestedOn => text.map fun s => { row with requestedOn := s }
  | .requesterOpinion => some { row with requesterOpinion := text }
  | .version => value.map fun d => { row with version := d.toCell }
  | .noted => value.map fun _ => row

/-- The row with a value in a column, if the column takes it. -/
def StepRow.set? (row : StepRow) (column : StepColumn) (value : Option Datum) : Option StepRow :=
  let text := value.map Datum.toText
  match column with
  | .applicationId => text.map fun s => { row with applicationId := s }
  | .sequence => value.map fun d => { row with sequence := d.toCell }
  | .approver => text.map fun s => { row with approver := s }
  | .decisionKind =>
    if text = some "none" then some { row with isDecided := false }
    else if text = some "decided" then some { row with isDecided := true }
    else none
  | .decidedOn => some { row with decidedOn := text }
  | .opinion => some { row with opinion := text }
  | .outcome =>
    match text with
    | none => some { row with outcome := none }
    | some s => (Outcome.ofName? s).map fun o => { row with outcome := some o }
  | .isFinal => (value.bind Datum.toFlag?).map fun b => { row with isFinal := b }

/-- The tables keep the rules that go beyond single columns. -/
def Tables.WellFormed (t : Tables) : Prop :=
  (t.headers.map HeaderRow.id).Nodup ∧
    (t.steps.map fun row => (row.applicationId, row.sequence)).Nodup ∧
    (∀ row ∈ t.steps, row.sequence.isPositive = true) ∧
    (∀ row ∈ t.steps, row.applicationId ∈ t.headers.map HeaderRow.id) ∧
    ∀ row ∈ t.links, row.applicationId ∈ t.headers.map HeaderRow.id

instance (t : Tables) : Decidable t.WellFormed := by
  unfold Tables.WellFormed
  infer_instance

/-- The rows with those that fit changed, if all of them can be. -/
def amendRows {α : Type} (fits : α → Bool) (change : α → Option α) (rows : List α) : Option (List α) :=
  rows.mapM fun row => if fits row then change row else some row

/-- Sets a column of the header of an application; answers the number of rows. -/
def Tables.amendHeader? (t : Tables) (id : String) (column : HeaderColumn) (value : Option Datum) :
    Option (Nat × Tables) := do
  let fits (row : HeaderRow) : Bool := row.id = id
  let headers ← amendRows fits (fun row => row.set? column value) t.headers
  let amended := { t with headers := headers }
  if amended.WellFormed then some (t.headers.countP fits, amended) else none

/-- Sets a column of a step of an application; answers the number of rows. -/
def Tables.amendStep? (t : Tables) (id : String) (sequence : Nat) (column : StepColumn)
    (value : Option Datum) : Option (Nat × Tables) := do
  let fits (row : StepRow) : Bool := row.applicationId = id && row.sequence = .whole sequence
  let steps ← amendRows fits (fun row => row.set? column value) t.steps
  let amended := { t with steps := steps }
  if amended.WellFormed then some (t.steps.countP fits, amended) else none

end SignOff.Ledger
