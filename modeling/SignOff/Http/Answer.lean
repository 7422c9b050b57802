import SignOff.Http.Body
import SignOff.Http.Response
import SignOff.Http.Route
import SignOff.Ledger.Register
import SignOff.Service

/-!
# Answering requests

A request finds its route, then its method is looked at, then the parameters of the path, the query
and the body. What is left of it is a submission, a decision or a question to the ledger. Every problem
carries the id that the caller has given to the request, or else a new one.
-/

namespace SignOff.Http

/-- What a request meets when it comes in: the day and the time, and ids that nothing has yet. -/
structure Moment where
  today : Date
  time : String
  newId : String
  newCorrelationId : String
deriving DecidableEq

/-- The id that problems of a request carry. -/
def correlationId (moment : Moment) (request : Request) : String :=
  request.correlationId?.getD moment.newCorrelationId

/-- The response to what the workflow says to a request. -/
def respond {α : Type} (moment : Moment) (request : Request) (accept : α → Response) :
    Except Refusal α → Response
  | .ok value => accept value
  | .error refusal => (Problem.ofRefusal refusal (correlationId moment request)).response

/-! ## Health -/

/-- How a part of the service is. -/
def condition (status detail : String) : Json :=
  .object [("status", .string status), ("detail", .string detail)]

/-- The health of the service; without its database it is degraded. -/
def health (ledger : Ledger) (time : String) : Response :=
  let service := condition "ready" "itgov-server accepting approval requests"
  let report (status : String) (database : Json) : Json :=
    .object [("status", .string status), ("service", service), ("database", database),
      ("checkedAt", .string time)]
  if ledger.isOpen then
    .json 200 (report "ready" (condition "ready" "database query succeeded"))
  else
    .json 503 (report "degraded"
      (condition "degraded" ("database query failed: " ++ Ledger.closedReason)))

/-! ## Parameters -/

/-- The text of a parameter of the path. -/
def parameter (raw : List Char) : Except Rejection String :=
  match Route.decode? raw with
  | some text => .ok text
  | none => .error .pathNotText

/-- The name of the only field that a query may have. -/
def subSequenceKey : List UInt8 := "sub_sequence".toUTF8.toList

/-- The sub-sequence that a query asks for; other fields mean nothing. -/
def subSequence (query : List Char) : Except Rejection (Option Int) :=
  match (Text.formPairs query).filter fun pair => pair.1 == subSequenceKey with
  | [] => .ok none
  | [(_, value)] =>
    match (Text.ofBytes? value).bind fun text =>
        Text.readInt? Text.int64Least Text.int64Greatest text.toList with
    | some n => .ok (some n)
    | none => .error .invalidQuery
  | _ => .error .invalidQuery

/-! ## Questions -/

/-- The refusal of a question about something that is not there. -/
def orMissing {α : Type} (id : String) (found : Except Refusal (Option α)) : Except Refusal α := do
  match ← found with
  | some value => return value
  | none => .error (.applicationNotFound id)

/-- The latest application for a record, as callers see it. -/
def recordState (ledger : Ledger) (origin : Origin) : Except Refusal Json := do
  let name := origin.tableCode ++ "/" ++ origin.key.getD ""
  let (link, application) ← orMissing name (ledger.latest origin)
  return link.view application (← ledger.isActive origin)

/-! ## Requests -/

/-- The response to a request at a route whose method is right, and the ledger after it. -/
def handle (policy : Policy) (moment : Moment) (ledger : Ledger) (request : Request) :
    Route → Except Rejection (Response × Ledger)
  | .health => return (health ledger moment.time, ledger)
  | .submission => do
    let submission ← Body.read Body.readSubmission request
    let (done, ledger) := ledger.submit moment.newId submission moment.today
    let accepted := Response.json 201 (.object [("applicationId", .string moment.newId)])
    return (respond moment request (fun _ => accepted) done, ledger)
  | .bulkDecision => do
    let items ← Body.read Body.readBatch request
    let (done, ledger) := Service.bulkDecide policy moment.today ledger items
    let shown (summary : BatchSummary) : Response := .json 200 summary.toJson
    return (respond moment request shown done, ledger)
  | .bulkView => do
    let ids ← Body.read Body.readIds request
    let shown (chains : List Chain) : Response := .json 200 (.array (chains.map Chain.view))
    return (respond moment request shown (ledger.views ids), ledger)
  | .origin tableCode key => do
    let tableCode ← parameter tableCode
    let key ← parameter key
    let origin : Origin := ⟨tableCode, some key, ← subSequence request.query⟩
    return (respond moment request (Response.json 200) (recordState ledger origin), ledger)
  | .view id => do
    let id ← parameter id
    let shown (c : Chain) : Response := .json 200 c.view
    return (respond moment request shown (orMissing id (ledger.view id)), ledger)
  | .decision id => do
    let decision ← Body.read (Body.readDecision (← parameter id)) request
    let (done, ledger) := Service.decide policy moment.today ledger decision
    return (respond moment request (fun _ => .bare 200) done, ledger)

/-- The response at a route, and the ledger after it. -/
def settle (policy : Policy) (moment : Moment) (ledger : Ledger) (request : Request) (route : Route) :
    Response × Ledger :=
  match handle policy moment ledger request route with
  | .ok settled => settled
  | .error rejection => (rejection.response, ledger)

/-- The response to a request, and the ledger after it. A request for the head of what a question would
show gets the same response without content. -/
def answer (policy : Policy) (moment : Moment) (ledger : Ledger) (request : Request) :
    Response × Ledger :=
  match Route.ofPath? request.path with
  | none => (.bare 404, ledger)
  | some route =>
    if request.method == route.method then settle policy moment ledger request route
    else if request.method == "HEAD" && route.method == "GET" then
      let (response, ledger) := settle policy moment ledger request route
      (response.withoutContent, ledger)
    else (.bare 405, ledger)

end SignOff.Http
