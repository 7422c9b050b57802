import SignOff.Approval.Refusal

/-!
# Problems reported over the network

A refusal becomes a problem with one of six classes. The problem of a batch item is built from that
of the refusal in it, whose wording makes way for the wording of the whole; the request's id is put
in last. So the class is that of the refusal's cause, below all batches, while the message is the
wording of the whole refusal. Each class has a status and a text that tells no details.
-/

namespace SignOff

namespace Problem

/-- What kind of problem a caller has. -/
inductive Class where
  | badRequest
  | notFound
  | forbidden
  | conflict
  | serviceUnavailable
  | internal
deriving DecidableEq, Repr

/-- The name of a class. -/
def Class.name : Class → String
  | .badRequest => "bad_request"
  | .notFound => "not_found"
  | .forbidden => "forbidden"
  | .conflict => "conflict"
  | .serviceUnavailable => "service_unavailable"
  | .internal => "internal"

/-- The words that open the display of a problem. -/
def Class.title : Class → String
  | .badRequest => "bad request"
  | .notFound => "not found"
  | .forbidden => "forbidden"
  | .conflict => "conflict"
  | .serviceUnavailable => "service unavailable"
  | .internal => "internal error"

/-- The status of an answer with a problem of the class. -/
def Class.status : Class → Nat
  | .badRequest => 400
  | .notFound => 404
  | .forbidden => 403
  | .conflict => 409
  | .serviceUnavailable => 503
  | .internal => 500

/-- A problem is an error, of the caller or of the service. -/
theorem Class.le_status (c : Class) : 400 ≤ c.status := by cases c <;> decide

/-- What a caller is told without details. -/
def Class.advice : Class → String
  | .badRequest => "The request could not be processed. Check inputs and try again."
  | .notFound => "The requested application does not exist."
  | .forbidden => "You are not the approver for the current step."
  | .conflict =>
    "The application is not awaiting this decision. Refresh and check its state."
  | .serviceUnavailable => "The service is temporarily unavailable. Please retry shortly."
  | .internal => "An unexpected internal error occurred."

/-- The correlation id of a problem that belongs to no request yet. -/
def unassigned : String := "unassigned"

end Problem

/-- A problem as a caller sees it. -/
structure Problem where
  kind : Problem.Class
  message : String
  correlationId : String
deriving DecidableEq, Repr

/-- The problem that a refusal is as long as no request is named. A batch has failed as a whole: its
problem is that of the refusal which broke it, with the wording of the whole. -/
def Refusal.problem : Refusal → Problem
  | .applicationNotFound id => ⟨.notFound, (applicationNotFound id).message, Problem.unassigned⟩
  | .wrongApprover id expected actual =>
    ⟨.forbidden, (wrongApprover id expected actual).message, Problem.unassigned⟩
  | .noActionableStep id => ⟨.conflict, (noActionableStep id).message, Problem.unassigned⟩
  | .concurrentModification id => ⟨.conflict, (concurrentModification id).message, Problem.unassigned⟩
  | .invalidOutcome words => ⟨.badRequest, (invalidOutcome words).message, Problem.unassigned⟩
  | .invalidRequest reason => ⟨.badRequest, (invalidRequest reason).message, Problem.unassigned⟩
  | .persistence reason => ⟨.serviceUnavailable, (persistence reason).message, Problem.unassigned⟩
  | .batchItem id source => { source.problem with message := (batchItem id source).message }

namespace Problem

/-- The problem that a refusal is to the caller whose request has the id. -/
def ofRefusal (refusal : Refusal) (correlationId : String) : Problem :=
  { refusal.problem with correlationId }

/-- The problem in one line. -/
def display (p : Problem) : String := p.kind.title ++ ": " ++ p.message

/-- What the answer says: details of storage and of internal faults stay inside. -/
def publicMessage (p : Problem) : String :=
  match p.kind with
  | .serviceUnavailable => p.kind.advice
  | .internal => p.kind.advice
  | _ => p.message

@[simp] theorem kind_ofRefusal (r : Refusal) (correlationId : String) :
    (ofRefusal r correlationId).kind = r.problem.kind := rfl

@[simp] theorem correlationId_ofRefusal (r : Refusal) (correlationId : String) :
    (ofRefusal r correlationId).correlationId = correlationId := rfl

/-- However a refusal is wrapped, its problem has the wording of the whole. -/
@[simp] theorem message_ofRefusal (r : Refusal) (correlationId : String) :
    (ofRefusal r correlationId).message = r.message := by
  cases r <;> rfl

/-- The class of a refusal's problem is that of its cause. -/
theorem kind_problem_cause (r : Refusal) : r.cause.problem.kind = r.problem.kind := by
  induction r with
  | batchItem id source ih => exact ih
  | _ => rfl

end Problem

end SignOff
