import SignOff.Proofs.Store.Desk

/-!
# Stores in agreement

Two stores agree when both can be read and show the same contents, however each of them holds its chains
and carries out a unit. The service then gives the same answer on both, be it a record, a summary or a
refusal, and leaves stores that agree again. What a batch has tried before it was refused is seen on neither.
-/

namespace SignOff

/-- What can be asked of the service, and on which day. -/
inductive Service.Request where
  | decide (today : Date) (request : DecisionRequest)
  | bulkDecide (today : Date) (items : List DecisionRequest)
deriving DecidableEq

/-- What the service answers. -/
inductive Service.Answer where
  | decided (answer : Except Refusal Record)
  | batch (answer : Except Refusal BatchSummary)
deriving DecidableEq

namespace Service

variable {σ υ : Type} [UnitStore σ υ]

/-- The answer to a request, with the store after it. -/
def serve (policy : Policy) (s : σ) : Request → Answer × σ
  | .decide today request =>
    let (answer, s) := decide policy today s request
    (.decided answer, s)
  | .bulkDecide today items =>
    let (answer, s) := bulkDecide policy today s items
    (.batch answer, s)

/-- The answers to one request after another, each with the store after it. -/
def serveAll (policy : Policy) : σ → List Request → List (Answer × σ)
  | _, [] => []
  | s, request :: rest =>
    let served := serve policy s request
    served :: serveAll policy served.2 rest

end Service

open SerialStore

variable {σ υ τ ν : Type} [UnitStore σ υ] [SideBySide σ] [SerialStore σ υ] [UnitStore τ ν]
  [SideBySide τ] [SerialStore τ ν]

/-- Both stores can be read, and they show the same chains. -/
structure Agree (s : σ) (t : τ) : Prop where
  readable_left : Readable s
  readable_right : Readable t
  contents_eq : contents s = contents t

/-- The answers are the same, and the stores after them agree. -/
def SameOutcome {α : Type} (left : α × σ) (right : α × τ) : Prop :=
  left.1 = right.1 ∧ Agree left.2 right.2

namespace Agree

variable [PreviewStore σ υ] [PreviewStore τ ν] {s : σ} {t : τ} (policy : Policy) (today : Date)

/-- A single decision has one outcome on stores that agree. -/
theorem decide (h : Agree s t) (request : DecisionRequest) :
    SameOutcome (Service.decide policy today s request) (Service.decide policy today t request) := by
  cases hcommand : request.command with
  | error refusal =>
    simp only [Service.decide, hcommand]
    exact ⟨rfl, h⟩
  | ok command =>
    have hleft := Service.decide_of_readable policy today h.readable_left hcommand
    have hright := Service.decide_of_readable policy today h.readable_right hcommand
    rw [← h.contents_eq] at hright
    cases hanswer : (contents s).decide policy.dateFormat today command with
    | error refusal =>
      simp only [hanswer] at hleft hright
      rw [hleft, hright]
      exact ⟨rfl, h⟩
    | ok record =>
      simp only [hanswer] at hleft hright
      obtain ⟨s', hs', hreadable, hcontents⟩ := hleft
      obtain ⟨t', ht', hreadable', hcontents'⟩ := hright
      rw [hs', ht']
      exact ⟨rfl, hreadable, hreadable', hcontents.trans hcontents'.symm⟩

/-- Single decisions up to the first refusal have one outcome on stores that agree. -/
theorem decideInTurn (h : Agree s t) (items : List DecisionRequest) :
    SameOutcome (Service.decideInTurn policy today s items) (Service.decideInTurn policy today t items) := by
  induction items generalizing s t with
  | nil => exact ⟨rfl, h⟩
  | cons item rest ih =>
    obtain ⟨hanswer, hafter⟩ := h.decide policy today item
    unfold Service.decideInTurn
    rcases hs : Service.decide policy today s item with ⟨answer, s'⟩
    rcases ht : Service.decide policy today t item with ⟨answer', t'⟩
    rw [hs, ht] at hanswer hafter
    obtain rfl : answer = answer' := hanswer
    cases answer with
    | error refusal => exact ⟨rfl, hafter⟩
    | ok record =>
      obtain ⟨hrest, hlast⟩ := ih hafter
      rcases hs' : Service.decideInTurn policy today s' rest with ⟨turn, s''⟩
      rcases ht' : Service.decideInTurn policy today t' rest with ⟨turn', t''⟩
      rw [hs', ht'] at hrest hlast
      obtain rfl : turn = turn' := hrest
      simp only [hs', ht']
      rcases turn with ⟨i, refusal⟩ | records
      · exact ⟨rfl, hlast⟩
      · exact ⟨rfl, hlast⟩

/-- A batch has one outcome on stores that agree. -/
theorem bulkDecide (h : Agree s t) (items : List DecisionRequest) :
    SameOutcome (Service.bulkDecide policy today s items) (Service.bulkDecide policy today t items) := by
  obtain ⟨u, hopen, -⟩ := SerialStore.openUnit_eq h.readable_left
  obtain ⟨v, hopen', -⟩ := SerialStore.openUnit_eq h.readable_right
  have hleft := Service.batchInTurn_of_openUnit policy today hopen items
  have hright := Service.batchInTurn_of_openUnit policy today hopen' items
  unfold Service.BatchInTurn at hleft hright
  by_cases hlong : policy.bulkMaxItems < items.length
  · simp only [Service.bulkDecide, if_pos hlong]
    exact ⟨rfl, h⟩
  · rw [if_neg hlong] at hleft hright
    -- Both batches are their single decisions in turn, so the units they run in need not be compared.
    obtain ⟨hturn, hlast⟩ := h.decideInTurn policy today items
    rcases hs : Service.decideInTurn policy today s items with ⟨turn, s'⟩
    rcases ht : Service.decideInTurn policy today t items with ⟨turn', t'⟩
    rw [hs, ht] at hturn hlast
    obtain rfl : turn = turn' := hturn
    rw [hs] at hleft
    rw [ht] at hright
    rcases turn with ⟨i, refusal⟩ | records
    · obtain ⟨item, hitem, hbatch⟩ := hleft
      obtain ⟨item', hitem', hbatch'⟩ := hright
      obtain rfl : item = item' := Option.some.inj (hitem.symm.trans hitem')
      rw [hbatch, hbatch']
      exact ⟨rfl, h⟩
    · rw [hleft.2, hright.2]
      exact ⟨rfl, hlast⟩

/-- A request has one outcome on stores that agree. -/
theorem serve (h : Agree s t) (request : Service.Request) :
    SameOutcome (Service.serve policy s request) (Service.serve policy t request) := by
  cases request with
  | decide today request =>
    obtain ⟨hanswer, hafter⟩ := h.decide policy today request
    simp only [Service.serve]
    exact ⟨congrArg Service.Answer.decided hanswer, hafter⟩
  | bulkDecide today items =>
    obtain ⟨hanswer, hafter⟩ := h.bulkDecide policy today items
    simp only [Service.serve]
    exact ⟨congrArg Service.Answer.batch hanswer, hafter⟩

/-- Requests have the same outcomes, one after another, on stores that agree. -/
theorem serveAll (h : Agree s t) (requests : List Service.Request) :
    List.Forall₂ SameOutcome (Service.serveAll policy s requests) (Service.serveAll policy t requests) := by
  induction requests generalizing s t with
  | nil => exact .nil
  | cons request rest ih =>
    have hserved := h.serve policy request
    exact .cons hserved (ih hserved.2)

end Agree

end SignOff
