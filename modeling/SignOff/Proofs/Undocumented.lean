import SignOff.Ledger.Register
import SignOff.Proofs.Approval.Deciding
import SignOff.Proofs.Store.Agreement

/-!
# Decisions do not look at documents

Two ledgers that are the same but for the documents of their applications stay so, whatever is submitted and
decided, even under different date formats, and they give the same answers but for the documents in them and
the reports on these. A document that cannot be read, or a date that cannot be rendered, is therefore no
reason for a decision to fail.
-/

namespace SignOff

/-- Two results that are the same after a map are the same error, or values that the map makes the same. -/
theorem error_or_ok_of_map_eq {ε α β : Type} {f : α → β} {x y : Except ε α} (h : x.map f = y.map f) :
    (∃ e, x = .error e ∧ y = .error e) ∨ ∃ a b, x = .ok a ∧ y = .ok b ∧ f a = f b := by
  cases x <;> cases y <;> simp_all [Except.map]

/-- The application without its document. -/
def Application.undocumented (a : Application) : Application := { a with document := none }

/-- The chain without the document of its application. -/
def Chain.undocumented (chain : Chain) : Chain := { chain with application := chain.application.undocumented }

/-- The record without the document and what became of it. -/
def Record.undocumented (record : Record) : Record :=
  { record with chain := record.chain.undocumented, report := .skipped }

/-- The answer without documents. -/
def Service.Answer.undocumented : Answer → Answer
  | .decided answer => .decided (answer.map Record.undocumented)
  | .batch answer => .batch answer

/-- The submission without its document. -/
def Submission.undocumented (s : Submission) : Submission := { s with document := none }

namespace Ledger

/-- The row without its document. -/
def HeaderRow.undocumented (row : HeaderRow) : HeaderRow := { row with document := none }

/-- The tables without documents. -/
def Tables.undocumented (t : Tables) : Tables := { t with headers := t.headers.map HeaderRow.undocumented }

end Ledger

/-- The ledger without documents. -/
def Ledger.undocumented (ledger : Ledger) : Ledger := { ledger with tables := ledger.tables.undocumented }

/-! ## Chains -/

/-- The record of a decision is the same but for the document, and for what became of that. -/
theorem Chain.recordAt_undocumented {chain other : Chain} (h : chain.undocumented = other.undocumented)
    (cursor : Cursor) (command : Command) (pattern pattern' : String) (today : Date) :
    (chain.recordAt cursor command pattern today).undocumented =
      (other.recordAt cursor command pattern' today).undocumented := by
  obtain ⟨⟨id, title, document, status, requester, requestedOn, requesterOpinion, version⟩, steps⟩ := chain
  obtain ⟨⟨id', title', document', status', requester', requestedOn', requesterOpinion', version'⟩, steps'⟩ :=
    other
  simp only [Chain.undocumented, Application.undocumented, Chain.mk.injEq, Application.mk.injEq] at h
  obtain ⟨⟨rfl, rfl, -, rfl, rfl, rfl, rfl, rfl⟩, rfl⟩ := h
  rfl

/-- A decision does not depend on the document of the chain, nor on the date format. -/
theorem Chain.decide_undocumented {chain other : Chain} (h : chain.undocumented = other.undocumented)
    (command : Command) (pattern pattern' : String) (today : Date) :
    (chain.decide command pattern today).map Record.undocumented =
      (other.decide command pattern' today).map Record.undocumented := by
  have hsteps : chain.steps = other.steps := congrArg (fun c => c.steps) h
  have hid : chain.application.id = other.application.id := congrArg (fun c => c.application.id) h
  unfold Chain.decide Chain.cursor?
  rw [hsteps, hid]
  cases Cursor.find? other.steps with
  | none => rfl
  | some cursor =>
    by_cases happrover : cursor.current.approver = command.approver
    · simp only [if_pos happrover, Except.map, Chain.recordAt_undocumented h cursor command pattern pattern' today]
    · simp only [if_neg happrover, Except.map]

namespace Ledger

/-! ## Tables -/

/-- A row is read alike without its document. -/
theorem HeaderRow.application_undocumented (row : HeaderRow) :
    row.undocumented.application = row.application.map Application.undocumented := by
  unfold HeaderRow.application
  simp only [HeaderRow.undocumented]
  cases storedDate row.requestedOn with
  | error fault => rfl
  | ok date => cases wholeNumber "version" row.version <;> rfl

namespace Tables

variable {t t' : Tables}

/-- Without documents, the header found is the one found before without its document. -/
theorem header?_undocumented (t : Tables) (id : String) :
    t.undocumented.header? id = (t.header? id).map HeaderRow.undocumented := by
  simp only [header?, undocumented, List.find?_map]
  rfl

/-- Without documents the tables show the same chains without them. -/
theorem chain?_undocumented (t : Tables) (id : String) :
    t.undocumented.chain? id = (t.chain? id).map (Option.map Chain.undocumented) := by
  unfold chain?
  rw [header?_undocumented]
  cases t.header? id with
  | none => rfl
  | some header =>
    have hsteps : t.undocumented.stepsOf id = t.stepsOf id := rfl
    simp only [Option.map_some, HeaderRow.application_undocumented, hsteps]
    cases header.application with
    | error fault => rfl
    | ok application => cases (t.stepsOf id).mapM StepRow.step <;> rfl

/-- A record is written onto the same headers without documents. -/
theorem writeHeader_undocumented (t : Tables) (record : Record) :
    t.undocumented.writeHeader record.undocumented = (t.writeHeader record).map undocumented := by
  let a := record.chain.application
  let fits (row : HeaderRow) : Bool := row.id = a.id && row.version = .whole record.expectedVersion
  let write (document : Option String) (row : HeaderRow) : HeaderRow :=
    if fits row then { row with status := a.status, document := document, version := .whole a.version } else row
  have hany : (t.headers.map HeaderRow.undocumented).any fits = t.headers.any fits := List.any_map
  have hwrite : (t.headers.map HeaderRow.undocumented).map (write none) =
      (t.headers.map (write a.document)).map HeaderRow.undocumented := by
    rw [List.map_map, List.map_map]
    apply List.map_congr_left
    intro row _
    have hfits : fits row.undocumented = fits row := rfl
    simp only [Function.comp_apply, write, hfits]
    split <;> rfl
  have hleft : t.undocumented.writeHeader record.undocumented =
      if t.headers.any fits then
        some { t with headers := (t.headers.map HeaderRow.undocumented).map (write none) }
      else none := by
    rw [← hany]
    rfl
  have hright : t.writeHeader record =
      if t.headers.any fits then some { t with headers := t.headers.map (write a.document) } else none := rfl
  rw [hleft, hright, hwrite]
  split <;> rfl

/-- Writing a decision does not look at documents. -/
theorem writeDecision_undocumented (t : Tables) (s : Step) (d : Decision) :
    t.undocumented.writeDecision s d = (t.writeDecision s d).map undocumented := by
  rw [writeDecision, writeDecision, apply_ite (Option.map undocumented)]
  rfl

/-- Writing decisions does not look at documents. -/
theorem writeDecisions_undocumented (t : Tables) (steps : List Step) :
    t.undocumented.writeDecisions steps =
      ((t.writeDecisions steps).1, (t.writeDecisions steps).2.undocumented) := by
  induction steps generalizing t with
  | nil => rfl
  | cons s rest ih =>
    unfold writeDecisions
    cases s.decision with
    | none => exact ih t
    | some d =>
      simp only [writeDecision_undocumented]
      cases t.writeDecision s d with
      | none => rfl
      | some next => exact ih next

/-- Records that are the same but for documents are taken in, or turned down, alike. -/
theorem store_undocumented (t : Tables) (record : Record) :
    t.undocumented.store record.undocumented = ((t.store record).1, (t.store record).2.undocumented) := by
  unfold store
  rw [writeHeader_undocumented]
  cases t.writeHeader record with
  | none => rfl
  | some next =>
    have hsteps : record.undocumented.decidedSteps = record.decidedSteps := rfl
    simp only [Option.map_some, hsteps, writeDecisions_undocumented]
    rcases next.writeDecisions record.decidedSteps with ⟨_ | _, last⟩ <;> rfl

/-- A submission is written as the same rows without documents. -/
theorem submit_undocumented (t : Tables) (id : String) (s : Submission) (today : Date) :
    (t.submit id s today).undocumented = t.undocumented.submit id s.undocumented today := by
  have hheaders : (t.submit id s today).undocumented.headers =
      (t.undocumented.submit id s.undocumented today).headers := by
    rw [undocumented, submit, List.map_append]
    rfl
  exact congrArg (Tables.mk · _ _) hheaders

/-- Tables that are the same but for documents show chains that are. -/
theorem chain?_alike {t t' : Tables} (h : t.undocumented = t'.undocumented) (id : String) :
    (t.chain? id).map (Option.map Chain.undocumented) = (t'.chain? id).map (Option.map Chain.undocumented) := by
  rw [← chain?_undocumented, ← chain?_undocumented, h]

/-- Tables and records that are the same but for documents give the same answer and tables that are. -/
theorem store_alike {t t' : Tables} (h : t.undocumented = t'.undocumented) {record record' : Record}
    (hrecord : record.undocumented = record'.undocumented) :
    (t.store record).1 = (t'.store record').1 ∧
      (t.store record).2.undocumented = (t'.store record').2.undocumented := by
  have hstore := t.store_undocumented record
  rw [h, hrecord, store_undocumented] at hstore
  exact ⟨(Prod.mk.inj hstore).1.symm, (Prod.mk.inj hstore).2.symm⟩

end Tables

/-! ## Units -/

section Unit

variable (ledger ledger' : Ledger) {t t' : Tables} (pattern pattern' : String) (today : Date)

open UnitStore

/-- A decision in units that are the same but for documents has the same outcome but for them. -/
theorem recordDecision_alike (h : t.undocumented = t'.undocumented) (command : Command) :
    let outcome := recordDecision pattern today ledger t command
    let outcome' := recordDecision pattern' today ledger' t' command
    outcome.1.map Record.undocumented = outcome'.1.map Record.undocumented ∧
      outcome.2.undocumented = outcome'.2.undocumented := by
  have hload (ledger : Ledger) (t : Tables) : load ledger t command.applicationId =
      (answer (t.chain? command.applicationId), t) := rfl
  rcases error_or_ok_of_map_eq (Tables.chain?_alike h command.applicationId) with
    ⟨fault, hleft, hright⟩ | ⟨found, found', hleft, hright, hchain⟩
  · simp only [recordDecision, compute, hload, hleft, hright, answer]
    exact ⟨trivial, h⟩
  cases found with
  | none =>
    obtain rfl : found' = none := by simpa using hchain.symm
    simp only [recordDecision, compute, hload, hleft, hright, answer]
    exact ⟨trivial, h⟩
  | some chain =>
    obtain ⟨chain', rfl, hchain'⟩ := Option.map_eq_some_iff.1 hchain.symm
    simp only [recordDecision, compute, hload, hleft, hright, answer]
    rcases error_or_ok_of_map_eq (Chain.decide_undocumented hchain'.symm command pattern pattern' today) with
      ⟨refusal, hdecide, hdecide'⟩ | ⟨record, record', hdecide, hdecide', hrecord⟩
    · rw [hdecide, hdecide']
      exact ⟨rfl, h⟩
    · rw [hdecide, hdecide']
      have hstore (ledger : Ledger) (t : Tables) (record : Record) :
        store ledger t record = t.store record := rfl
      simp only [hstore]
      obtain ⟨hanswer, hafter⟩ := Tables.store_alike h hrecord
      rcases hleft : t.store record with ⟨answer, after⟩
      rcases hright : t'.store record' with ⟨answer', after'⟩
      rw [hleft, hright] at hanswer hafter
      obtain rfl : answer = answer' := hanswer
      cases answer with
      | error refusal => exact ⟨rfl, hafter⟩
      | ok _ => exact ⟨congrArg Except.ok hrecord, hafter⟩

/-- An item of a batch has the same outcome in units that are the same but for documents. -/
theorem applyItem_alike (h : t.undocumented = t'.undocumented) (item : DecisionRequest) :
    let outcome := applyItem pattern today ledger t item
    let outcome' := applyItem pattern' today ledger' t' item
    outcome.1 = outcome'.1 ∧ outcome.2.undocumented = outcome'.2.undocumented := by
  unfold applyItem
  cases hcommand : item.command with
  | error refusal => exact ⟨rfl, h⟩
  | ok command =>
    obtain ⟨hanswer, hafter⟩ := recordDecision_alike ledger ledger' pattern pattern' today h command
    rcases hleft : recordDecision pattern today ledger t command with ⟨answer, after⟩
    rcases hright : recordDecision pattern' today ledger' t' command with ⟨answer', after'⟩
    rw [hleft, hright] at hanswer hafter
    rcases error_or_ok_of_map_eq hanswer with ⟨refusal, rfl, rfl⟩ | ⟨record, record', rfl, rfl, hrecord⟩
    · simp only [hleft, hright]
      exact ⟨trivial, hafter⟩
    · have hstatus : record.status = record'.status := congrArg (fun r => r.status) hrecord
      simp only [hleft, hright, hstatus]
      exact ⟨trivial, hafter⟩

/-- The items of a batch have the same outcome in units that are the same but for documents. -/
theorem applyItems_alike (h : t.undocumented = t'.undocumented) (items : List DecisionRequest) :
    let outcome := applyItems pattern today ledger t items
    let outcome' := applyItems pattern' today ledger' t' items
    outcome.1 = outcome'.1 ∧ outcome.2.undocumented = outcome'.2.undocumented := by
  induction items generalizing t t' with
  | nil => exact ⟨rfl, h⟩
  | cons item rest ih =>
    obtain ⟨hanswer, hafter⟩ := applyItem_alike ledger ledger' pattern pattern' today h item
    unfold applyItems
    rcases hleft : applyItem pattern today ledger t item with ⟨answer, after⟩
    rcases hright : applyItem pattern' today ledger' t' item with ⟨answer', after'⟩
    rw [hleft, hright] at hanswer hafter
    obtain rfl : answer = answer' := hanswer
    cases answer with
    | error refusal => exact ⟨rfl, hafter⟩
    | ok result =>
      obtain ⟨hrest, hlast⟩ := ih hafter
      rcases hleft' : applyItems pattern today ledger after rest with ⟨results, last⟩
      rcases hright' : applyItems pattern' today ledger' after' rest with ⟨results', last'⟩
      rw [hleft', hright'] at hrest hlast
      obtain rfl : results = results' := hrest
      simp only [hleft', hright']
      cases results <;> exact ⟨rfl, hlast⟩

/-- A batch has the same outcome in units that are the same but for documents. -/
theorem applyBatch_alike (h : t.undocumented = t'.undocumented) (items : List DecisionRequest) :
    let outcome := applyBatch pattern today ledger t items
    let outcome' := applyBatch pattern' today ledger' t' items
    outcome.1 = outcome'.1 ∧ outcome.2.undocumented = outcome'.2.undocumented := by
  obtain ⟨hanswer, hafter⟩ := applyItems_alike ledger ledger' pattern pattern' today h items
  unfold applyBatch
  rcases hleft : applyItems pattern today ledger t items with ⟨results, last⟩
  rcases hright : applyItems pattern' today ledger' t' items with ⟨results', last'⟩
  rw [hleft, hright] at hanswer hafter
  obtain rfl : results = results' := hanswer
  cases results <;> exact ⟨rfl, hafter⟩

end Unit

/-! ## Requests -/

section Request

variable {ledger ledger' : Ledger}

/-- A submission has the same outcome as one that is the same but for its document. -/
theorem submit_alike (h : ledger.undocumented = ledger'.undocumented) (id : String) {s s' : Submission}
    (hs : s.undocumented = s'.undocumented) (today : Date) :
    (ledger.submit id s today).1 = (ledger'.submit id s' today).1 ∧
      (ledger.submit id s today).2.undocumented = (ledger'.submit id s' today).2.undocumented := by
  obtain ⟨t, isOpen⟩ := ledger
  obtain ⟨t', isOpen'⟩ := ledger'
  obtain ⟨ht, rfl⟩ := Ledger.mk.inj h
  have hvalid : s.validate = s'.validate := by
    change s.undocumented.validate = s'.undocumented.validate
    rw [hs]
  have hsteps : s.steps id = s'.steps id := by
    change s.undocumented.steps id = s'.undocumented.steps id
    rw [hs]
  have hheader : (t.header? id).isSome = (t'.header? id).isSome := by
    have hrow := t.header?_undocumented id
    rw [ht, Tables.header?_undocumented] at hrow
    simpa using (congrArg Option.isSome hrow).symm
  have hafter : (t.submit id s today).undocumented = (t'.submit id s' today).undocumented := by
    rw [Tables.submit_undocumented, Tables.submit_undocumented, ht, hs]
  have hopen (t : Tables) : openTables ⟨t, isOpen⟩ = if isOpen then .ok t else .error closedRefusal := rfl
  unfold submit
  rw [hvalid, hsteps, hopen, hopen]
  cases s'.validate with
  | error refusal => exact ⟨rfl, h⟩
  | ok _ =>
    cases isOpen with
    | false => exact ⟨rfl, h⟩
    | true =>
      simp only [if_true, hheader]
      split
      · exact ⟨rfl, h⟩
      · split
        · exact ⟨rfl, h⟩
        · exact ⟨rfl, congrArg (Ledger.mk · true) hafter⟩

open UnitStore

/-- Work in a unit that does not look at documents has the same outcome on ledgers that are the same but for
them. -/
theorem inUnit_alike {α β : Type} {f : α → β} (h : ledger.undocumented = ledger'.undocumented)
    {work work' : Tables → Except Refusal α × Tables}
    (hwork : ∀ t t', t.undocumented = t'.undocumented → (work t).1.map f = (work' t').1.map f ∧
      (work t).2.undocumented = (work' t').2.undocumented) :
    (inUnit ledger work).1.map f = (inUnit ledger' work').1.map f ∧
      (inUnit ledger work).2.undocumented = (inUnit ledger' work').2.undocumented := by
  obtain ⟨t, isOpen⟩ := ledger
  obtain ⟨t', isOpen'⟩ := ledger'
  obtain ⟨ht, rfl⟩ := Ledger.mk.inj h
  have hopen (t : Tables) :
      openUnit (⟨t, isOpen⟩ : Ledger) = if isOpen then .ok t else .error closedRefusal := rfl
  unfold inUnit
  rw [hopen, hopen]
  cases isOpen with
  | false => exact ⟨rfl, h⟩
  | true =>
    obtain ⟨hanswer, hafter⟩ := hwork t t' ht
    rcases hleft : work t with ⟨answer, after⟩
    rcases hright : work' t' with ⟨answer', after'⟩
    rw [hleft, hright] at hanswer hafter
    rcases error_or_ok_of_map_eq hanswer with ⟨refusal, rfl, rfl⟩ | ⟨value, value', rfl, rfl, hvalue⟩
    · simp only [if_true, hleft, hright]
      exact ⟨trivial, h⟩
    · simp only [if_true, hleft, hright]
      exact ⟨congrArg Except.ok hvalue, congrArg (Ledger.mk · true) hafter⟩

/-- A request has the same outcome on ledgers that are the same but for documents, under any date formats. -/
theorem serve_alike (h : ledger.undocumented = ledger'.undocumented) (bulkMaxItems : Nat)
    (format format' : String) (request : Service.Request) :
    let served := Service.serve ⟨bulkMaxItems, format⟩ ledger request
    let served' := Service.serve ⟨bulkMaxItems, format'⟩ ledger' request
    served.1.undocumented = served'.1.undocumented ∧ served.2.undocumented = served'.2.undocumented := by
  cases request with
  | decide today request =>
    simp only [Service.serve, Service.decide]
    cases request.command with
    | error refusal => exact ⟨rfl, h⟩
    | ok command =>
      obtain ⟨hanswer, hafter⟩ := inUnit_alike h fun _ _ ht =>
        recordDecision_alike ledger ledger' format format' today ht command
      exact ⟨congrArg Service.Answer.decided hanswer, hafter⟩
  | bulkDecide today items =>
    simp only [Service.serve, Service.bulkDecide]
    by_cases hlong : bulkMaxItems < items.length
    · rw [if_pos hlong, if_pos hlong]
      exact ⟨rfl, h⟩
    · rw [if_neg hlong, if_neg hlong]
      cases items with
      | nil => exact ⟨rfl, h⟩
      | cons item rest =>
        obtain ⟨hanswer, hafter⟩ := inUnit_alike (f := id) h fun _ _ ht => by
          have hitems := applyBatch_alike ledger ledger' format format' today ht (item :: rest)
          exact ⟨congrArg (Except.map id) hitems.1, hitems.2⟩
        rw [Except.map_id] at hanswer
        exact ⟨congrArg Service.Answer.batch hanswer, hafter⟩

end Request

/-! ## Runs -/

/-- What can be asked of a ledger: to take a submission, or to serve a request. -/
inductive Call where
  | submit (id : String) (s : Submission) (today : Date)
  | serve (request : Service.Request)

/-- What a ledger replies. -/
inductive Reply where
  | submitted (answer : Except Refusal Unit)
  | served (answer : Service.Answer)

/-- The call without documents. -/
def Call.undocumented : Call → Call
  | .submit id s today => .submit id s.undocumented today
  | .serve request => .serve request

/-- The reply without documents. -/
def Reply.undocumented : Reply → Reply
  | .submitted answer => .submitted answer
  | .served answer => .served answer.undocumented

/-- The reply is a refusal. -/
def Reply.isRefusal : Reply → Bool
  | .submitted answer => !answer.toBool
  | .served (.decided answer) => !answer.toBool
  | .served (.batch answer) => !answer.toBool

/-- Without documents a reply is a refusal if it was one. -/
theorem Reply.isRefusal_undocumented (reply : Reply) : reply.undocumented.isRefusal = reply.isRefusal := by
  rcases reply with answer | (answer | answer) <;> cases answer <;> rfl

/-- The reply to a call, with the ledger after it. -/
def call (policy : Policy) (ledger : Ledger) : Call → Reply × Ledger
  | .submit id s today => (ledger.submit id s today).map Reply.submitted fun after => after
  | .serve request => (Service.serve policy ledger request).map Reply.served fun after => after

/-- The replies to one call after another, each with the ledger after it. -/
def callAll (policy : Policy) : Ledger → List Call → List (Reply × Ledger)
  | _, [] => []
  | ledger, c :: rest =>
    let called := call policy ledger c
    called :: callAll policy called.2 rest

/-- Calls that are the same but for documents have the same outcome but for them, one after another. -/
theorem callAll_alike {ledger ledger' : Ledger} (h : ledger.undocumented = ledger'.undocumented)
    (bulkMaxItems : Nat) (format format' : String) {calls calls' : List Call}
    (hcalls : calls.map Call.undocumented = calls'.map Call.undocumented) :
    List.Forall₂ (fun called called' => called.1.undocumented = called'.1.undocumented ∧
        called.2.undocumented = called'.2.undocumented)
      (callAll ⟨bulkMaxItems, format⟩ ledger calls) (callAll ⟨bulkMaxItems, format'⟩ ledger' calls') := by
  induction calls generalizing ledger ledger' calls' with
  | nil =>
    obtain rfl : calls' = [] := by simpa using hcalls.symm
    exact .nil
  | cons c rest ih =>
    obtain ⟨c', rest', rfl, hc, hrest⟩ := List.map_eq_cons_iff.1 hcalls.symm
    have hcall : (call ⟨bulkMaxItems, format⟩ ledger c).1.undocumented =
          (call ⟨bulkMaxItems, format'⟩ ledger' c').1.undocumented ∧
        (call ⟨bulkMaxItems, format⟩ ledger c).2.undocumented =
          (call ⟨bulkMaxItems, format'⟩ ledger' c').2.undocumented := by
      cases c with
      | submit id s today =>
        cases c' with
        | serve request => cases hc
        | submit id' s' today' =>
          obtain ⟨rfl, hs, rfl⟩ := Call.submit.inj hc
          obtain ⟨hanswer, hafter⟩ := submit_alike h id' hs.symm today'
          exact ⟨congrArg Reply.submitted hanswer, hafter⟩
      | serve request =>
        cases c' with
        | submit id' s' today' => cases hc
        | serve request' =>
          obtain rfl : request' = request := Call.serve.inj hc
          obtain ⟨hanswer, hafter⟩ := serve_alike h bulkMaxItems format format' request'
          exact ⟨congrArg Reply.served hanswer, hafter⟩
    exact .cons hcall (ih hcall.2 hrest.symm)

end Ledger

/-- Two ledgers that take submissions that differ in their documents only, and serve the same requests under any
two date formats, reply the same but for documents and the reports on them. After every call their tables
are the same but for documents, and a call is refused by both or by neither. -/
theorem decisions_ignore_documents (bulkMaxItems : Nat) (format format' : String) {calls calls' : List Ledger.Call}
    (hcalls : calls.map Ledger.Call.undocumented = calls'.map Ledger.Call.undocumented) :
    List.Forall₂
      (fun called called' => called.1.undocumented = called'.1.undocumented ∧
        called.2.undocumented = called'.2.undocumented ∧ called.1.isRefusal = called'.1.isRefusal)
      (Ledger.callAll ⟨bulkMaxItems, format⟩ Ledger.empty calls)
      (Ledger.callAll ⟨bulkMaxItems, format'⟩ Ledger.empty calls') := by
  refine (Ledger.callAll_alike rfl bulkMaxItems format format' hcalls).imp fun called called' h => ⟨h.1, h.2, ?_⟩
  rw [← Ledger.Reply.isRefusal_undocumented, h.1, Ledger.Reply.isRefusal_undocumented]

/-- A document that is no JSON under a format that no date has, against no document at all. -/
theorem decisions_ignore_documents_of_malformed :
    let calls (document : Option String) : List Ledger.Call :=
      [.submit "7" ⟨none, document, "park", none, ["kim", "lee"], none⟩ Date.epoch,
        .serve (.decide Date.epoch ⟨"7", "kim", none, some "approve"⟩),
        .serve (.bulkDecide Date.epoch [⟨"7", "lee", none, some "reject"⟩])]
    List.Forall₂
      (fun called called' => called.1.undocumented = called'.1.undocumented ∧
        called.2.undocumented = called'.2.undocumented ∧ called.1.isRefusal = called'.1.isRefusal)
      (Ledger.callAll ⟨100, "%H"⟩ Ledger.empty (calls (some "\x7b\"approvalLine\":")))
      (Ledger.callAll ⟨100, "%Y"⟩ Ledger.empty (calls none)) := by
  intro calls
  exact decisions_ignore_documents 100 "%H" "%Y" rfl

end SignOff
