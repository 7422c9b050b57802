import SignOff.Approval.Chain
import SignOff.Calendar.Pattern
import SignOff.Entries
import SignOff.Json.Reader
import SignOff.Json.Writer

/-!
# Decision dates in the detail document

The detail document is JSON in free form. Its `approvalLine` member holds an object for each approval
slot, under keys of any kind, with the approver's `id` and, once decided, a `date`. The steps stay
authoritative; the document only follows them.

The same approver may hold several slots. A slot belongs to a step when both are the same occurrence
of their approver: the second slot of an id belongs to the second step of that id, whatever stands
between them.
-/

namespace SignOff.Document

/-- The member that holds the approval slots. -/
def lineKey : String := "approvalLine"

/-- The member of a slot that names its approver. -/
def approverKey : String := "id"

/-- The member of a slot that takes the decision date. -/
def dateKey : String := "date"

/-- The date pattern that is used unless another one is configured. -/
def defaultPattern : String := "%Y.%m.%d"

/-- Why a document cannot be brought in step with the chain. -/
inductive Fault where
  | unreadable (reason : String)
  | unwritable (reason : String)
  | format (pattern : String)
deriving DecidableEq, Repr

/-- The wording of a fault. -/
def Fault.message : Fault → String
  | .unreadable reason => "detail document is not valid JSON: " ++ reason
  | .unwritable reason => "detail document could not be serialized: " ++ reason
  | .format pattern => "date format `" ++ pattern ++ "` cannot render a calendar date"

/-- What became of a document. -/
inductive Change where
  /-- There is no document, or none with an approval line. -/
  | skipped
  /-- No slot belongs to a decided step. -/
  | unchanged
  /-- The document with `entries` dates set. -/
  | updated (document : String) (entries : Nat)
deriving DecidableEq, Repr

/-- The reason given for a text that is no JSON. One constant stands for whatever a parser would say about
the place and the kind of the mistake. -/
def notJson : String := "malformed text"

/-- Each name with its place among its equals, counted from one; `seen` holds the names before. -/
def occurrences (seen : List String) : List String → List (String × Nat)
  | [] => []
  | name :: rest => (name, seen.count name + 1) :: occurrences (name :: seen) rest

/-- The occurrences of approvers whose steps have been decided. -/
def targets (steps : List Step) (decided : List Nat) : List (String × Nat) :=
  ((occurrences [] (steps.map Step.approver)).zip steps).filterMap fun (occurrence, step) =>
    if decided.contains step.sequence then some occurrence else none

/-- The approver of a slot: an object with a text as its id. -/
def slotApprover? : Json → Option String
  | .object members => (Json.member? approverKey members).bind Json.text?
  | _ => none

/-- The slot with its date set. -/
def dated (date : String) : Json → Json
  | .object members => .object (Entries.put dateKey (.string date) members)
  | other => other

/-- The slots with a date in those that `hits` names, and how many these are.

`seen` holds the approvers of the slots before. -/
def dateSlots (hits : List (String × Nat)) (date : String) (seen : List String) :
    List (String × Json) → List (String × Json) × Nat
  | [] => ([], 0)
  | (key, slot) :: rest =>
    match slotApprover? slot with
    | none =>
      let (rest, entries) := dateSlots hits date seen rest
      ((key, slot) :: rest, entries)
    | some approver =>
      let (rest, entries) := dateSlots hits date (approver :: seen) rest
      if hits.contains (approver, seen.count approver + 1) then
        ((key, dated date slot) :: rest, entries + 1)
      else ((key, slot) :: rest, entries)

/-- The slots of a document that has an approval line, and the members of the whole document. -/
def line? : Json → Option (List (String × Json) × List (String × Json))
  | .object members =>
    match Json.member? lineKey members with
    | some (.object slots) => some (slots, members)
    | _ => none
  | _ => none

/-- The document of a text that is there and not blank. -/
def present? (document : Option String) : Option String := document.filter fun s => !Text.blank s

/-- Sets the date of every slot that belongs to a step whose sequence is in `decided`. -/
def synchronize (pattern : String) (document : Option String) (steps : List Step)
    (decided : List Nat) (today : Date) : Except Fault Change :=
  match present? document with
  | none => .ok .skipped
  | some text =>
    match Json.read text with
    | .error _ => .error (.unreadable notJson)
    | .ok value =>
      match line? value with
      | none => .ok .skipped
      | some (slots, members) =>
        let hits := targets steps decided
        if hits.isEmpty then .ok .unchanged
        else match today.format? pattern with
          | none => .error (.format pattern)
          | some date =>
            let (slots, entries) := dateSlots hits date [] slots
            if entries = 0 then .ok .unchanged
            else
              let value := Json.object (Entries.put lineKey (.object slots) members)
              .ok (.updated value.write entries)

end SignOff.Document
