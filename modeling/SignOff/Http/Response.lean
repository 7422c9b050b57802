import SignOff.Forms
import SignOff.Http.Problem

/-!
# Responses

A response has a status and mostly a JSON value. Applications, the state of a record and problems are
shown with names of their own, and every field is written.
-/

namespace SignOff

open Json (ofText? ofNat)

namespace Http

/-- What a response holds. -/
inductive Content where
  | empty
  | json (value : Json)
  | text (line : String)

/-- A response to a request. -/
structure Response where
  status : Nat
  content : Content

namespace Response

/-- A response without content. -/
def bare (status : Nat) : Response := ⟨status, .empty⟩

/-- A response with a JSON value. -/
def json (status : Nat) (value : Json) : Response := ⟨status, .json value⟩

/-- The response without its content. -/
def withoutContent (r : Response) : Response := .bare r.status

@[simp] theorem status_withoutContent (r : Response) : r.withoutContent.status = r.status := rfl

end Response

end Http

/-- The step as callers see it. -/
def Step.view (s : Step) : Json :=
  .object [("sequence", ofNat s.sequence), ("approverId", .string s.approver),
    ("decisionKind", .string (if s.isOpen then "none" else "decided")),
    ("decisionDate", ofText? (s.decision.map fun d => d.decidedOn.toText)),
    ("opinion", ofText? (s.decision.bind Decision.opinion)),
    ("outcome", ofText? (s.decision.map fun d => d.outcome.name)), ("isFinal", .bool s.isFinal)]

/-- The application with its steps as callers see it. -/
def Chain.view (c : Chain) : Json :=
  let a := c.application
  .object [("applicationId", .string a.id), ("title", ofText? a.title),
    ("detailDocument", ofText? a.document), ("status", .string a.status.name),
    ("requesterId", .string a.requester), ("requestDate", .string a.requestedOn.toText),
    ("requesterOpinion", ofText? a.requesterOpinion), ("approvers", .array (c.steps.map Step.view))]

/-- The latest application for a record as callers see it; a record is active while some application
for it is pending or approved. -/
def OriginLink.view (l : OriginLink) (a : Application) (active : Bool) : Json :=
  .object [("linkId", .string l.id), ("applicationId", .string a.id), ("status", .string a.status.name),
    ("title", ofText? a.title), ("requestDate", .string a.requestedOn.toText), ("active", .bool active)]

/-- The response to a request that leads to a problem. -/
def Problem.response (p : Problem) : Http.Response :=
  .json p.kind.status (.object [("error", .string p.kind.name), ("message", .string p.publicMessage),
    ("correlationId", .string p.correlationId)])

end SignOff
