import SignOff.Approval.Batch
import SignOff.Approval.OriginLink
import SignOff.Json.Form
import SignOff.Json.Writer
import SignOff.Settings.Basic

/-!
# JSON forms

How the values of the approval workflow are written as JSON and read back. Every field of a record is
written, with null for what is missing. Records of the chain have the field names of the tables,
answers to batches have names for programs that call over the network.
-/

namespace SignOff

open Json (Reader readString readInteger readNatural readBool readOptional readList readName readDate
  readRecord required optional Fields ofText? ofInt ofInt? ofNat)

/-- Reads an integer of 64 bits. -/
def readInt64 : Reader Int := readInteger Text.int64Least Text.int64Greatest

/-- Reads a natural number of 32 bits. -/
def readNat32 : Reader Nat := readNatural Text.nat32Greatest

/-- Reads a natural number of 64 bits. -/
def readNat64 : Reader Nat := readNatural Text.nat64Greatest

namespace DecisionRequest

/-- The JSON form of a request. -/
def toJson (r : DecisionRequest) : Json :=
  .object [("application_id", .string r.applicationId), ("approver_id", .string r.approver),
    ("opinion", ofText? r.opinion), ("outcome", ofText? r.outcome)]

/-- The fields of a request. -/
def fields : Fields [String, String, Option String, Option String] :=
  .cons (required "application_id" readString) <| .cons (required "approver_id" readString) <|
    .cons (optional "opinion" readString) <| .cons (optional "outcome" readString) .nil

/-- Reads a request. -/
def read : Reader DecisionRequest :=
  readRecord fields fun (id, approver, opinion, outcome, _) => ⟨id, approver, opinion, outcome⟩

end DecisionRequest

/-- Reads a status. -/
def Status.read : Reader Status := readName Status.ofCapitals?

/-- Reads an outcome. -/
def Outcome.read : Reader Outcome := readName Outcome.ofCapitals?

namespace Application

/-- The JSON form of an application. -/
def toJson (a : Application) : Json :=
  .object [("id", .string a.id), ("title", ofText? a.title), ("detail_document", ofText? a.document),
    ("status", .string a.status.capitals), ("requester_id", .string a.requester),
    ("request_date", .string a.requestedOn.toText),
    ("requester_opinion", ofText? a.requesterOpinion), ("version", ofInt a.version)]

/-- The fields of an application. -/
def fields : Fields [String, Option String, Option String, Status, String, Date, Option String, Int] :=
  .cons (required "id" readString) <| .cons (optional "title" readString) <|
    .cons (optional "detail_document" readString) <| .cons (required "status" Status.read) <|
    .cons (required "requester_id" readString) <| .cons (required "request_date" readDate) <|
    .cons (optional "requester_opinion" readString) <| .cons (required "version" readInt64) .nil

/-- Reads an application. -/
def read : Reader Application :=
  readRecord fields fun (id, title, document, status, requester, requestedOn, opinion, version, _) =>
    ⟨id, title, document, status, requester, requestedOn, opinion, version⟩

end Application

namespace Decision

/-- The JSON form of a decision. -/
def toJson (d : Decision) : Json :=
  .object [("outcome", .string d.outcome.capitals), ("decided_on", .string d.decidedOn.toText),
    ("opinion", ofText? d.opinion)]

/-- The fields of a decision. -/
def fields : Fields [Outcome, Date, Option String] :=
  .cons (required "outcome" Outcome.read) <| .cons (required "decided_on" readDate) <|
    .cons (optional "opinion" readString) .nil

/-- Reads a decision. -/
def read : Reader Decision :=
  readRecord fields fun (outcome, decidedOn, opinion, _) => ⟨outcome, decidedOn, opinion⟩

end Decision

namespace Step

/-- The JSON form of a step. -/
def toJson (s : Step) : Json :=
  .object [("application_id", .string s.applicationId), ("sequence", ofNat s.sequence),
    ("approver_id", .string s.approver),
    ("decision", (s.decision.map Decision.toJson).getD .null), ("is_final", .bool s.isFinal)]

/-- The fields of a step. -/
def fields : Fields [String, Nat, String, Option Decision, Bool] :=
  .cons (required "application_id" readString) <| .cons (required "sequence" readNat32) <|
    .cons (required "approver_id" readString) <| .cons (optional "decision" Decision.read) <|
    .cons (required "is_final" readBool) .nil

/-- Reads a step. -/
def read : Reader Step :=
  readRecord fields fun (id, sequence, approver, decision, isFinal, _) =>
    ⟨id, sequence, approver, decision, isFinal⟩

end Step

namespace Chain

/-- The JSON form of a chain. -/
def toJson (c : Chain) : Json :=
  .object [("application", c.application.toJson), ("steps", .array (c.steps.map Step.toJson))]

/-- The fields of a chain. -/
def fields : Fields [Application, List Step] :=
  .cons (required "application" Application.read) <| .cons (required "steps" (readList Step.read)) .nil

/-- Reads a chain; its steps stay in the order of the text. -/
def read : Reader Chain := readRecord fields fun (application, steps, _) => ⟨application, steps⟩

end Chain

namespace Origin

/-- The JSON form of an origin. -/
def toJson (o : Origin) : Json :=
  .object [("table_code", .string o.tableCode), ("key", ofText? o.key),
    ("sub_sequence", ofInt? o.subSequence)]

/-- The fields of an origin. -/
def fields : Fields [String, Option String, Option Int] :=
  .cons (required "table_code" readString) <| .cons (optional "key" readString) <|
    .cons (optional "sub_sequence" readInt64) .nil

/-- Reads an origin. -/
def read : Reader Origin :=
  readRecord fields fun (tableCode, key, subSequence, _) => ⟨tableCode, key, subSequence⟩

end Origin

namespace Submission

/-- The JSON form of a submission. -/
def toJson (s : Submission) : Json :=
  .object [("title", ofText? s.title), ("detail_document", ofText? s.document),
    ("requester_id", .string s.requester), ("requester_opinion", ofText? s.requesterOpinion),
    ("approver_ids", .array (s.approvers.map Json.string)),
    ("origin", (s.origin.map Origin.toJson).getD .null)]

/-- The fields of a submission. -/
def fields :
    Fields [Option String, Option String, String, Option String, List String, Option Origin] :=
  .cons (optional "title" readString) <| .cons (optional "detail_document" readString) <|
    .cons (required "requester_id" readString) <| .cons (optional "requester_opinion" readString) <|
    .cons (required "approver_ids" (readList readString)) <|
    .cons (optional "origin" Origin.read) .nil

/-- Reads a submission. -/
def read : Reader Submission :=
  readRecord fields fun (title, document, requester, opinion, approvers, origin, _) =>
    ⟨title, document, requester, opinion, approvers, origin⟩

end Submission

namespace OriginLink

/-- The JSON form of a link. -/
def toJson (l : OriginLink) : Json :=
  .object [("id", .string l.id), ("application_id", .string l.applicationId),
    ("origin_table_code", .string l.tableCode), ("origin_key", ofText? l.key),
    ("origin_sub_sequence", ofInt? l.subSequence)]

/-- The fields of a link. -/
def fields : Fields [String, String, String, Option String, Option Int] :=
  .cons (required "id" readString) <| .cons (required "application_id" readString) <|
    .cons (required "origin_table_code" readString) <| .cons (optional "origin_key" readString) <|
    .cons (optional "origin_sub_sequence" readInt64) .nil

/-- Reads a link. -/
def read : Reader OriginLink :=
  readRecord fields fun (id, applicationId, tableCode, key, subSequence, _) =>
    ⟨id, applicationId, tableCode, key, subSequence⟩

end OriginLink

namespace BatchResult

/-- The JSON form of a result. -/
def toJson (r : BatchResult) : Json :=
  .object [("applicationId", .string r.applicationId), ("success", .bool r.success),
    ("message", .string r.message)]

/-- The fields of a result. -/
def fields : Fields [String, Bool, String] :=
  .cons (required "applicationId" readString) <| .cons (required "success" readBool) <|
    .cons (required "message" readString) .nil

/-- Reads a result. -/
def read : Reader BatchResult :=
  readRecord fields fun (id, success, message, _) => ⟨id, success, message⟩

end BatchResult

namespace BatchSummary

/-- The JSON form of a summary. -/
def toJson (s : BatchSummary) : Json :=
  .object [("totalCount", ofNat s.total), ("successCount", ofNat s.succeeded),
    ("failureCount", ofNat s.failed), ("results", .array (s.results.map BatchResult.toJson))]

/-- The fields of a summary. -/
def fields : Fields [Nat, Nat, Nat, List BatchResult] :=
  .cons (required "totalCount" readNat64) <| .cons (required "successCount" readNat64) <|
    .cons (required "failureCount" readNat64) <|
    .cons (required "results" (readList BatchResult.read)) .nil

/-- Reads a summary. -/
def read : Reader BatchSummary :=
  readRecord fields fun (total, succeeded, failed, results, _) => ⟨total, succeeded, failed, results⟩

end BatchSummary

/-- The JSON form of a log format. -/
def LogFormat.toJson (f : LogFormat) : Json := .string f.name

/-- Reads a log format. -/
def LogFormat.read : Reader LogFormat := readName LogFormat.ofName?

end SignOff
