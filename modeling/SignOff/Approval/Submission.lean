import SignOff.Approval.Chain
import SignOff.Approval.Refusal
import SignOff.Number.Power

/-!
# Submissions

A submission names its approvers in order and may refer to the record it is about. Ids are kept
without the white space around them. The steps of a submission are numbered from one in 32 bits, and
the last one is final.
-/

namespace SignOff

/-- The record that a submission is about. -/
structure Origin where
  tableCode : String
  key : Option String
  subSequence : Option Int
deriving DecidableEq, Repr

/-- An application as a requester hands it in. -/
structure Submission where
  title : Option String
  document : Option String
  requester : String
  requesterOpinion : Option String
  approvers : List String
  origin : Option Origin
deriving DecidableEq, Repr

namespace Submission

/-- What a submission must not miss. -/
inductive Flaw where
  | noRequester
  | noApprovers
  | blankApprover
  | blankTable
deriving DecidableEq, Repr

/-- The wording of a flaw. -/
def Flaw.message : Flaw → String
  | .noRequester => "requester id is required"
  | .noApprovers => "at least one approver is required"
  | .blankApprover => "approver ids must not be blank"
  | .blankTable => "origin table code must not be blank"

/-- The first flaw of a submission. -/
def flaw? (s : Submission) : Option Flaw :=
  if Text.blank s.requester then some .noRequester
  else if s.approvers.isEmpty then some .noApprovers
  else if s.approvers.any Text.blank then some .blankApprover
  else if s.origin.any fun o => Text.blank o.tableCode then some .blankTable
  else none

/-- A submission with a flaw is refused. -/
def validate (s : Submission) : Except Refusal Unit :=
  match s.flaw? with
  | some flaw => .error (.invalidRequest flaw.message)
  | none => .ok ()

/-- The step at place `index`, counted from zero, out of `count`. -/
def step (id : String) (count index : Nat) (approver : String) : Step :=
  { applicationId := id
    sequence := (index + 1) % Power.ofTwo 32
    approver := Text.trim approver
    decision := none
    isFinal := index + 1 = count }

/-- The open steps of a submission that becomes the application `id`. -/
def steps (s : Submission) (id : String) : List Step :=
  s.approvers.mapIdx (step id s.approvers.length)

/-- The header that a submission becomes. -/
def header (s : Submission) (id : String) (today : Date) : Application :=
  { id := id
    title := s.title
    document := s.document
    status := .pending
    requester := Text.trim s.requester
    requestedOn := today
    requesterOpinion := s.requesterOpinion
    version := 0 }

/-- There is a step for each approver. -/
theorem length_steps (s : Submission) (id : String) : (s.steps id).length = s.approvers.length := by
  simp [steps]

end Submission

end SignOff
