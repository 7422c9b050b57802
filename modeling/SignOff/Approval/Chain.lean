import SignOff.Approval.Application

/-!
# Approval chains

The approvers of an application act one after another. A chain holds the application with its
steps; the current step is the first undecided one, provided that all before it are approved. A
rejection halts the chain.
-/

namespace SignOff

/-- What an approver decides. -/
inductive Outcome where
  | approved
  | rejected
deriving DecidableEq, Repr

namespace Outcome

/-- The stored name of an outcome. -/
def name : Outcome → String
  | .approved => "approved"
  | .rejected => "rejected"

/-- The name of an outcome in JSON texts. -/
def capitals : Outcome → String
  | .approved => "APPROVED"
  | .rejected => "REJECTED"

/-- The outcome with a name of JSON texts. -/
def ofCapitals? (s : String) : Option Outcome :=
  if s = "APPROVED" then some .approved
  else if s = "REJECTED" then some .rejected
  else none

/-- The outcome with a stored name. -/
def ofName? (s : String) : Option Outcome :=
  if s = "approved" then some .approved
  else if s = "rejected" then some .rejected
  else none

/-- The outcome that a caller's words mean.

The two Korean words are taken as they are, the English ones in any letter case. -/
def ofWords? (words : String) : Option Outcome :=
  let words := Text.trim words
  if words = "승인" then some .approved
  else if words = "반려" then some .rejected
  else
    let key := Text.lower words
    if key = "approved" ∨ key = "approve" then some .approved
    else if key = "rejected" ∨ key = "reject" then some .rejected
    else none

theorem ofName?_name (o : Outcome) : ofName? o.name = some o := by cases o <;> rfl

theorem ofCapitals?_capitals (o : Outcome) : ofCapitals? o.capitals = some o := by
  cases o <;> rfl

end Outcome

/-- A decision on one step. -/
structure Decision where
  outcome : Outcome
  decidedOn : Date
  opinion : Option String
deriving DecidableEq

/-- The place of one approver in a chain. -/
structure Step where
  applicationId : String
  sequence : Nat
  approver : String
  decision : Option Decision
  isFinal : Bool
deriving DecidableEq

namespace Step

/-- The step has no decision yet. -/
def isOpen (s : Step) : Bool := s.decision.isNone

/-- The step has been approved. -/
def isApproved (s : Step) : Bool := s.decision.any fun d => d.outcome = .approved

/-- The step has been rejected. -/
def isRejected (s : Step) : Bool := s.decision.any fun d => d.outcome = .rejected

/-- The step with a decision. -/
def decide (s : Step) (d : Decision) : Step := { s with decision := some d }

/-- The sequence has 32 bits. -/
def Fits (s : Step) : Prop := s.sequence ≤ Text.nat32Greatest

instance (s : Step) : Decidable s.Fits := inferInstanceAs (Decidable (_ ≤ _))

/-- Every step is open, approved or rejected. -/
theorem isOpen_or_isApproved_or_isRejected (s : Step) : s.isOpen ∨ s.isApproved ∨ s.isRejected := by
  cases h : s.decision with
  | none => simp [isOpen, h]
  | some d => cases ho : d.outcome <;> simp [isApproved, isRejected, h, ho]

end Step

/-- An application with its steps. -/
structure Chain where
  application : Application
  steps : List Step
deriving DecidableEq

/-- The steps before the current one, the current one, and those after it. -/
structure Cursor where
  before : List Step
  current : Step
  after : List Step
deriving DecidableEq

namespace Cursor

/-- The cursor on the first open step, if all steps before it are approved. -/
def find? : List Step → Option Cursor
  | [] => none
  | s :: rest =>
    if s.isOpen then some ⟨[], s, rest⟩
    else if s.isApproved then (find? rest).map fun c => { c with before := s :: c.before }
    else none

/-- The cursor splits the list of steps, its step is open, and all before it are approved. -/
theorem find?_eq_some {steps : List Step} {c : Cursor} (h : find? steps = some c) :
    steps = c.before ++ c.current :: c.after ∧ c.current.isOpen = true ∧
      ∀ s ∈ c.before, s.isApproved = true := by
  induction steps generalizing c with
  | nil => simp [find?] at h
  | cons s rest ih =>
    rw [find?] at h
    split at h
    · next ho => cases h; simp [ho]
    · split at h
      · next ha =>
        obtain ⟨c', hc', rfl⟩ := Option.map_eq_some_iff.1 h
        obtain ⟨hs, hop, hb⟩ := ih hc'
        refine ⟨by simp [← hs], hop, ?_⟩
        intro t ht
        rcases List.mem_cons.1 ht with rfl | ht
        · exact ha
        · exact hb t ht
      · simp at h

end Cursor

namespace Chain

/-- A chain from steps in any order; steps of equal sequence keep their order. -/
def ofSteps (application : Application) (steps : List Step) : Chain :=
  ⟨application, steps.mergeSort fun a b => a.sequence ≤ b.sequence⟩

/-- The place where the next decision falls. -/
def cursor? (chain : Chain) : Option Cursor := Cursor.find? chain.steps

/-- The index of the step that awaits a decision. -/
def currentIndex? (chain : Chain) : Option Nat := chain.cursor?.map fun c => c.before.length

/-- The step that awaits a decision. -/
def current? (chain : Chain) : Option Step := chain.cursor?.map Cursor.current

/-- Some step has been rejected. -/
def isHalted (chain : Chain) : Bool := chain.steps.any Step.isRejected

/-- The version and the sequences are of their sizes. -/
def Fits (c : Chain) : Prop := c.application.Fits ∧ ∀ s ∈ c.steps, s.Fits

instance (c : Chain) : Decidable c.Fits := inferInstanceAs (Decidable (_ ∧ _))

end Chain

end SignOff
