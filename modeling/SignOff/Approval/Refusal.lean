/-!
# Refusals

Why a request is not carried out. A refused item of a batch wraps the refusal of the single
decision, and batches nest in principle to any depth, so the cause of a refusal is the innermost one.
-/

namespace SignOff

/-- Why a request is refused. -/
inductive Refusal where
  /-- No application has the id. -/
  | applicationNotFound (id : String)
  /-- No step of the application awaits a decision. -/
  | noActionableStep (id : String)
  /-- The decision comes from someone else than the current approver. -/
  | wrongApprover (id expected actual : String)
  /-- The words for the outcome mean nothing. -/
  | invalidOutcome (words : String)
  /-- Somebody else has changed the application in the meantime. -/
  | concurrentModification (id : String)
  /-- An item of a batch is refused. -/
  | batchItem (id : String) (source : Refusal)
  /-- The request misses something it needs. -/
  | invalidRequest (reason : String)
  /-- The storage failed. -/
  | persistence (reason : String)
deriving DecidableEq, Repr

namespace Refusal

/-- The name of the kind of a refusal. -/
def kind : Refusal → String
  | .applicationNotFound _ => "application_not_found"
  | .noActionableStep _ => "no_actionable_step"
  | .wrongApprover .. => "wrong_approver"
  | .invalidOutcome _ => "invalid_outcome"
  | .concurrentModification _ => "concurrent_modification"
  | .batchItem .. => "batch_item_failure"
  | .invalidRequest _ => "invalid_request"
  | .persistence _ => "persistence"

/-- The wording of a refusal. -/
def message : Refusal → String
  | .applicationNotFound id => "application not found: " ++ id
  | .noActionableStep id => "application `" ++ id ++ "` has no step awaiting a decision"
  | .wrongApprover id expected actual =>
    "approver `" ++ actual ++ "` is not the current approver of `" ++ id ++ "` (expected `" ++
      expected ++ "`)"
  | .invalidOutcome words => "unrecognized decision outcome `" ++ words ++ "`"
  | .concurrentModification id => "application `" ++ id ++ "` was modified concurrently"
  | .batchItem id source => "batch item `" ++ id ++ "` failed: " ++ source.message
  | .invalidRequest reason => "invalid request: " ++ reason
  | .persistence reason => "persistence failure: " ++ reason

/-- The innermost refusal, which no batch wraps. -/
def cause : Refusal → Refusal
  | .batchItem _ source => source.cause
  | refusal => refusal

/-- The innermost refusal is no batch item. -/
theorem cause_ne_batchItem (r : Refusal) (id : String) (s : Refusal) : r.cause ≠ .batchItem id s := by
  induction r with
  | batchItem _ source ih => simpa [cause] using ih
  | _ => simp [cause]

end Refusal

end SignOff
