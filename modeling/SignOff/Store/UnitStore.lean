import SignOff.Approval.Batch

/-!
# Units of work

A store is read and written through units of work. A unit sees its own writes; the store sees them
when the unit is committed, all at once or not at all. A unit that is not committed leaves nothing
behind, so abandoning one needs no operation.

An operation that fails still leaves the unit in some state, because a caller may go on with it.
-/

namespace SignOff

/-- A store of type `σ` that is worked on through units of type `υ`. -/
class UnitStore (σ : Type) (υ : outParam Type) where
  /-- A fresh unit. -/
  openUnit : σ → Except Refusal υ
  /-- The chain of an application as the unit sees it. -/
  load : σ → υ → String → Except Refusal (Option Chain) × υ
  /-- Takes the record of a decision into the unit. -/
  store : σ → υ → Record → Except Refusal Unit × υ
  /-- Makes the writes of the unit part of the store. -/
  commit : σ → υ → Except Refusal Unit × σ

namespace UnitStore

variable {σ υ : Type} [UnitStore σ υ]

/-- The record of a command on the chain that the unit sees, without storing it. -/
def compute (pattern : String) (today : Date) (s : σ) (u : υ) (command : Command) :
    Except Refusal Record × υ :=
  match load s u command.applicationId with
  | (.error refusal, u) => (.error refusal, u)
  | (.ok none, u) => (.error (.applicationNotFound command.applicationId), u)
  | (.ok (some chain), u) => (chain.decide command pattern today, u)

/-- Decides on the chain that the unit sees and takes the record into the unit. -/
def recordDecision (pattern : String) (today : Date) (s : σ) (u : υ) (command : Command) :
    Except Refusal Record × υ :=
  match compute pattern today s u command with
  | (.error refusal, u) => (.error refusal, u)
  | (.ok record, u) =>
    match store s u record with
    | (.error refusal, u) => (.error refusal, u)
    | (.ok (), u) => (.ok record, u)

/-- One item of a batch: its command, decided on in the unit. A refusal names the item as it came. -/
def applyItem (pattern : String) (today : Date) (s : σ) (u : υ) (item : DecisionRequest) :
    Except Refusal BatchResult × υ :=
  match item.command with
  | .error refusal => (.error (.batchItem item.applicationId refusal), u)
  | .ok command =>
    match recordDecision pattern today s u command with
    | (.error refusal, u) => (.error (.batchItem item.applicationId refusal), u)
    | (.ok record, u) => (.ok (BatchSummary.recorded command.applicationId record.status), u)

/-- The items of a batch one after another, up to the first refusal. -/
def applyItems (pattern : String) (today : Date) (s : σ) :
    υ → List DecisionRequest → Except Refusal (List BatchResult) × υ
  | u, [] => (.ok [], u)
  | u, item :: rest =>
    match applyItem pattern today s u item with
    | (.error refusal, u) => (.error refusal, u)
    | (.ok result, u) =>
      match applyItems pattern today s u rest with
      | (.error refusal, u) => (.error refusal, u)
      | (.ok results, u) => (.ok (result :: results), u)

/-- A batch in one unit; the decisions before a refused item stay in the unit. -/
def applyBatch (pattern : String) (today : Date) (s : σ) (u : υ) (items : List DecisionRequest) :
    Except Refusal BatchSummary × υ :=
  match applyItems pattern today s u items with
  | (.error refusal, u) => (.error refusal, u)
  | (.ok results, u) => (.ok (BatchSummary.ofResults results), u)

/-- Carries out `work` in a fresh unit and commits it; the store stays as it is when that fails. -/
def inUnit {α : Type} (s : σ) (work : υ → Except Refusal α × υ) : Except Refusal α × σ :=
  match openUnit s with
  | .error refusal => (.error refusal, s)
  | .ok u =>
    match work u with
    | (.error refusal, _) => (.error refusal, s)
    | (.ok answer, u) =>
      match commit s u with
      | (.error refusal, s) => (.error refusal, s)
      | (.ok (), s) => (.ok answer, s)

end UnitStore

end SignOff
