import SignOff.Store.UnitStore
import SignOff.Text.Numeral

/-!
# The approval service

Single decisions and batches, each in a unit of work of its own. A batch longer than the limit is
refused before anything is opened, and an empty one needs no unit at all.
-/

namespace SignOff

/-- What the service is configured with. -/
structure Policy where
  bulkMaxItems : Nat
  dateFormat : String
deriving DecidableEq, Repr

namespace Service

variable {σ υ : Type} [UnitStore σ υ]

/-- Makes one decision. -/
def decide (policy : Policy) (today : Date) (s : σ) (request : DecisionRequest) :
    Except Refusal Record × σ :=
  match request.command with
  | .error refusal => (.error refusal, s)
  | .ok command =>
    UnitStore.inUnit s fun u => UnitStore.recordDecision policy.dateFormat today s u command

/-- The refusal of a batch that is too long. -/
def tooLong (policy : Policy) (count : Nat) : Refusal :=
  .invalidRequest ("bulk request holds " ++ Text.decimal count ++ " items; at most " ++
    Text.decimal policy.bulkMaxItems ++ " are accepted")

/-- Makes the decisions of a batch, all or none. -/
def bulkDecide (policy : Policy) (today : Date) (s : σ) (items : List DecisionRequest) :
    Except Refusal BatchSummary × σ :=
  if policy.bulkMaxItems < items.length then (.error (tooLong policy items.length), s)
  else if items.isEmpty then (.ok (BatchSummary.ofResults []), s)
  else UnitStore.inUnit s fun u => UnitStore.applyBatch policy.dateFormat today s u items

end Service

end SignOff
