import SignOff.Http.Answer
import SignOff.Proofs.Json.Scalar
import SignOff.Proofs.Ledger.Inserting
import SignOff.Proofs.Store.ShelfUnits

/-!
# Refused requests

A request that is answered with a problem, or turned away before the workflow sees it, leaves the ledger
as it was, and so does every question. The main statement puts this beside the calls of the workflow
itself: a refused submission, decision or batch leaves every row of the tables and every chain on the
shelf as it was, for any contents of either.
-/

namespace SignOff

namespace Http

/-- Requests at the route may change the ledger; at all others they only ask. -/
def Route.changes : Route → Bool
  | submission => true
  | bulkDecision => true
  | decision _ => true
  | health => false
  | bulkView => false
  | origin _ _ => false
  | view _ => false

section Handle

variable {policy : Policy} {moment : Moment} {ledger after : Ledger} {request : Request} {route : Route}
  {response : Response}

/-- What the workflow refuses leaves the ledger alone, and what it accepts is shown as such. -/
theorem unchanged_or_accepted {α : Type} {result : Except Refusal α × Ledger} {accept : α → Response}
    (h : Atomic ledger result) (haccept : ∀ value, (accept value).status < 400)
    (hshown : (respond moment request accept result.1, result.2) = (response, after)) :
    after = ledger ∨ response.status < 400 := by
  obtain ⟨rfl, rfl⟩ := Prod.mk.inj hshown
  rcases result with ⟨refusal | value, after⟩
  · exact Or.inl (h refusal rfl)
  · exact Or.inr (haccept value)

/-- Another ledger is left only by accepted requests, at a route where requests may change it. -/
theorem handle_changes (h : handle policy moment ledger request route = .ok (response, after)) :
    after = ledger ∨ route.changes = true ∧ response.status < 400 := by
  cases route with
  | health => exact Or.inl (Prod.mk.inj (Except.ok.inj h)).2.symm
  | submission =>
    obtain ⟨submission, -, hshown⟩ := bind_eq_ok_iff.1 h
    refine (unchanged_or_accepted (Ledger.submit_atomic ledger _ submission _) (fun _ => ?_)
      (Except.ok.inj hshown)).imp_right (And.intro rfl)
    exact (by decide : 201 < 400)
  | bulkDecision =>
    obtain ⟨items, -, hshown⟩ := bind_eq_ok_iff.1 h
    refine (unchanged_or_accepted (Service.bulkDecide_atomic policy _ ledger items) (fun _ => ?_)
      (Except.ok.inj hshown)).imp_right (And.intro rfl)
    exact (by decide : 200 < 400)
  | bulkView =>
    obtain ⟨ids, -, hshown⟩ := bind_eq_ok_iff.1 h
    exact Or.inl (Prod.mk.inj (Except.ok.inj hshown)).2.symm
  | origin tableCode key =>
    obtain ⟨tableCode, -, h⟩ := bind_eq_ok_iff.1 h
    obtain ⟨key, -, h⟩ := bind_eq_ok_iff.1 h
    obtain ⟨subSequence, -, hshown⟩ := bind_eq_ok_iff.1 h
    exact Or.inl (Prod.mk.inj (Except.ok.inj hshown)).2.symm
  | view id =>
    obtain ⟨id, -, hshown⟩ := bind_eq_ok_iff.1 h
    exact Or.inl (Prod.mk.inj (Except.ok.inj hshown)).2.symm
  | decision id =>
    obtain ⟨id, -, h⟩ := bind_eq_ok_iff.1 h
    obtain ⟨decision, -, hshown⟩ := bind_eq_ok_iff.1 h
    refine (unchanged_or_accepted (Service.decide_atomic policy _ ledger decision) (fun _ => ?_)
      (Except.ok.inj hshown)).imp_right (And.intro rfl)
    exact (by decide : 200 < 400)

end Handle

/-- Another ledger is left only by accepted requests, on a path where requests may change it. -/
theorem answer_changes (policy : Policy) (moment : Moment) (ledger : Ledger) (request : Request) :
    (answer policy moment ledger request).2 = ledger ∨
      (Route.ofPath? request.path).any Route.changes = true ∧
        (answer policy moment ledger request).1.status < 400 := by
  unfold answer
  cases Route.ofPath? request.path with
  | none => exact Or.inl rfl
  | some route =>
    have hsettle : (settle policy moment ledger request route).2 = ledger ∨
        route.changes = true ∧ (settle policy moment ledger request route).1.status < 400 := by
      unfold settle
      cases hhandle : handle policy moment ledger request route with
      | error rejection => exact Or.inl rfl
      | ok settled => exact handle_changes hhandle
    simp only [Option.any_some]
    split
    · exact hsettle
    · split
      · exact hsettle
      · exact Or.inl rfl

end Http

/-- Whatever is refused leaves everything as it was, and so does every question whatever its answer.

The tables and the shelf may hold anything, and refusals may come at any point: before a unit is opened,
after some rows of a submission or of a record or some items of a batch have been written, or at the commit.
Questions to the ledger itself answer without another ledger, so what they leave is seen on the network. -/
theorem refused_leaves_all (policy : Policy) :
    (∀ (ledger : Ledger) (id : String) (s : Submission) (today : Date),
      Atomic ledger (ledger.submit id s today)) ∧
    (∀ (ledger : Ledger) (today : Date) (request : DecisionRequest),
      Atomic ledger (Service.decide policy today ledger request)) ∧
    (∀ (ledger : Ledger) (today : Date) (items : List DecisionRequest),
      Atomic ledger (Service.bulkDecide policy today ledger items)) ∧
    (∀ (shelf : Shelf) (today : Date) (request : DecisionRequest),
      Atomic shelf (Service.decide policy today shelf request)) ∧
    (∀ (shelf : Shelf) (today : Date) (items : List DecisionRequest),
      Atomic shelf (Service.bulkDecide policy today shelf items)) ∧
    (∀ (shelf : Shelf) (unit : Shelf.Session), Atomic shelf (Shelf.commit shelf unit)) ∧
    ∀ (moment : Http.Moment) (ledger : Ledger) (request : Http.Request),
      (400 ≤ (Http.answer policy moment ledger request).1.status →
        (Http.answer policy moment ledger request).2 = ledger) ∧
      ∀ route, Http.Route.ofPath? request.path = some route → route.changes = false →
        (Http.answer policy moment ledger request).2 = ledger := by
  refine ⟨Ledger.submit_atomic, fun ledger today => Service.decide_atomic policy today ledger,
    fun ledger today => Service.bulkDecide_atomic policy today ledger,
    fun shelf today => Service.decide_atomic policy today shelf,
    fun shelf today => Service.bulkDecide_atomic policy today shelf, fun shelf unit refusal hrefused => ?_,
    fun moment ledger request => ?_⟩
  · exact SerialStore.commit_error (Prod.ext hrefused rfl)
  · have hchanges := Http.answer_changes policy moment ledger request
    constructor
    · intro hstatus
      rcases hchanges with hsame | ⟨-, hless⟩
      · exact hsame
      · exact absurd hstatus (Nat.not_le.2 hless)
    · intro route hroute hasks
      rcases hchanges with hsame | ⟨hchange, -⟩
      · exact hsame
      · simp [hroute, hasks] at hchange

/-- A batch whose first decision has been written in the unit when the date of the second application turns out
to be unreadable, at the service and on the network. -/
theorem refused_leaves_all_of_failing_second_item :
    let row (id requestedOn : String) : Ledger.HeaderRow :=
      ⟨id, none, none, .pending, "kim", requestedOn, none, .whole 0⟩
    let ledger : Ledger := ⟨⟨[row "7" "1970-01-01", row "8" "soon"],
      [⟨"7", .whole 1, "lee", false, none, none, none, true⟩], []⟩, true⟩
    let items : List DecisionRequest := [⟨"7", "lee", none, some "approve"⟩, ⟨"8", "lee", none, some "approve"⟩]
    let moment : Http.Moment := ⟨Date.epoch, "", "9", "corr"⟩
    let request : Http.Request :=
      ⟨"POST", "/api/applications/bulk-approve".toList, [], [("content-type", "application/json")],
        "[[[\"7\",\"lee\",null,\"approve\"],[\"8\",\"lee\",null,\"approve\"]]]"⟩
    (UnitStore.applyBatch "%Y" Date.epoch ledger ledger.tables items).2.steps.map Ledger.StepRow.isDecided = [true] ∧
      (∃ refusal, (Service.bulkDecide ⟨100, "%Y"⟩ Date.epoch ledger items).1 = .error (.batchItem "8" refusal)) ∧
      (Service.bulkDecide ⟨100, "%Y"⟩ Date.epoch ledger items).2 = ledger ∧
      (Http.answer ⟨100, "%Y"⟩ moment ledger request).1.status = 503 ∧
      (Http.answer ⟨100, "%Y"⟩ moment ledger request).2 = ledger := by
  intro row ledger items moment request
  have hwritten : (UnitStore.applyBatch "%Y" Date.epoch ledger ledger.tables items).2.steps.map
      Ledger.StepRow.isDecided = [true] := by decide +kernel
  have hrefused : (Service.bulkDecide ⟨100, "%Y"⟩ Date.epoch ledger items).1 =
      .error (.batchItem "8" (.persistence
        "decode error: invalid date `soon`: input contains invalid characters")) := by decide +kernel
  have hstatus : (Http.answer ⟨100, "%Y"⟩ moment ledger request).1.status = 503 := by decide +kernel
  obtain ⟨-, -, hbatches, -, -, -, hanswers⟩ := refused_leaves_all ⟨100, "%Y"⟩
  exact ⟨hwritten, ⟨_, hrefused⟩, hbatches ledger Date.epoch items _ hrefused, hstatus,
    (hanswers moment ledger request).1 (by rw [hstatus]; decide)⟩

end SignOff
