import SignOff.Http.Rejection
import SignOff.Http.Request

/-!
# Bodies of requests

What callers send is JSON with names of their own. Ids and lists that a caller leaves out are empty,
so that the workflow can say what is missing; only the requester of a submission has to be there.
-/

namespace SignOff.Http

open Json (Reader readString readOptional readList readRecord required optional defaulted Fields)

namespace Body

/-- The greatest size of a body in bytes. -/
def limit : Nat := 2097152

/-- The value of a body; its type is looked at first, then its size, then its text. -/
def read {α : Type} (reader : Reader α) (request : Request) : Except Rejection α :=
  if !request.claimsJson then .error .notJson
  else if limit < request.body.utf8ByteSize then .error .tooLarge
  else
    match Json.readWith reader request.body.toList with
    | .ok value => .ok value
    | .error .malformed => .error .malformed
    | .error .mismatched => .error .mismatched

/-- The fields of the record that a submission is about. -/
def originFields : Fields [String, Option String, Option Int] :=
  .cons (required "tableCode" readString) <| .cons (optional "key" readString) <|
    .cons (optional "subSequence" readInt64) .nil

/-- Reads the record that a submission is about. -/
def readOrigin : Reader Origin :=
  readRecord originFields fun (tableCode, key, subSequence, _) => ⟨tableCode, key, subSequence⟩

/-- The fields of a submission. -/
def submissionFields :
    Fields [Option String, Option String, String, Option String, List String, Option Origin] :=
  .cons (optional "title" readString) <| .cons (optional "detailDocument" readString) <|
    .cons (required "requesterId" readString) <| .cons (optional "requesterOpinion" readString) <|
    .cons (defaulted "approverIds" [] (readList readString)) <|
    .cons (optional "origin" readOrigin) .nil

/-- Reads a submission. -/
def readSubmission : Reader Submission :=
  readRecord submissionFields fun (title, document, requester, opinion, approvers, origin, _) =>
    ⟨title, document, requester, opinion, approvers, origin⟩

/-- The fields of a decision on an application that is known. -/
def decisionFields : Fields [String, Option String, Option String] :=
  .cons (defaulted "approverId" "" readString) <| .cons (optional "opinion" readString) <|
    .cons (optional "outcome" readString) .nil

/-- Reads a decision on the application `id`. -/
def readDecision (id : String) : Reader DecisionRequest :=
  readRecord decisionFields fun (approver, opinion, outcome, _) => ⟨id, approver, opinion, outcome⟩

/-- Reads an item of a batch of decisions. -/
def readItem : Reader DecisionRequest :=
  readRecord (.cons (defaulted "applicationId" "" readString) decisionFields)
    fun (id, approver, opinion, outcome, _) => ⟨id, approver, opinion, outcome⟩

/-- Reads a batch of decisions. -/
def readBatch : Reader (List DecisionRequest) :=
  readRecord (.cons (defaulted "approvals" [] (readList readItem)) .nil) fun (items, _) => items

/-- Reads the ids of applications. -/
def readIds : Reader (List String) :=
  readRecord (.cons (defaulted "applicationIds" [] (readList readString)) .nil) fun (ids, _) => ids

end Body

end SignOff.Http
