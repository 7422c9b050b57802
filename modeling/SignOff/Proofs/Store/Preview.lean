import SignOff.Proofs.Approval.Deciding
import SignOff.Service

/-!
# Units that preview their store

A unit previews a store when it sees what a fresh unit on that store would see, and when its commit
leaves that store. A decision in such a unit has the answer of a single decision on the previewed store,
and previews the store that this one leaves. A batch in one unit is therefore the sequence of its single
decisions, or nothing at all.
-/

namespace SignOff

namespace UnitStore

variable {σ υ : Type} [UnitStore σ υ] {s : σ} {u u' : υ} {pattern : String} {today : Date}
  {command : Command}

/-- A decision needs a chain that is there. -/
theorem recordDecision_of_load_none (hload : load s u command.applicationId = (.ok none, u')) :
    recordDecision pattern today s u command =
      (.error (.applicationNotFound command.applicationId), u') := by
  simp only [recordDecision, compute, hload]

/-- A decision that the chain refuses stores nothing. -/
theorem recordDecision_of_decide_error {chain : Chain} {refusal : Refusal}
    (hload : load s u command.applicationId = (.ok (some chain), u'))
    (hdecide : chain.decide command pattern today = .error refusal) :
    recordDecision pattern today s u command = (.error refusal, u') := by
  simp only [recordDecision, compute, hload, hdecide]

/-- The record of a decision is stored right away. -/
theorem recordDecision_of_decide_ok {chain : Chain} {record : Record}
    (hload : load s u command.applicationId = (.ok (some chain), u'))
    (hdecide : chain.decide command pattern today = .ok record) :
    recordDecision pattern today s u command =
      ((store s u' record).1.map fun _ => record, (store s u' record).2) := by
  simp only [recordDecision, compute, hload, hdecide]
  rcases store s u' record with ⟨_ | _, u''⟩ <;> rfl

end UnitStore

open UnitStore

/-- A store whose units preview what their commit leaves, decision by decision. -/
class PreviewStore (σ : Type) (υ : outParam Type) [UnitStore σ υ] where
  /-- The unit on the store `s` sees what a fresh unit on the store `s'` would see. -/
  Previews (s : σ) (u : υ) (s' : σ) : Prop
  previews_self {s : σ} {u : υ} : openUnit s = .ok u → Previews s u s
  commit_eq {s s' : σ} {u : υ} : Previews s u s' → commit s u = (.ok (), s')
  decision_error {s s' : σ} {u u' : υ} {pattern : String} {today : Date} {command : Command}
    {refusal : Refusal} : Previews s u s' →
      recordDecision pattern today s u command = (.error refusal, u') →
      inUnit s' (fun v => recordDecision pattern today s' v command) = (.error refusal, s')
  decision_ok {s s' : σ} {u u' : υ} {pattern : String} {today : Date} {command : Command}
    {record : Record} : Previews s u s' →
      recordDecision pattern today s u command = (.ok record, u') →
      ∃ s'', inUnit s' (fun v => recordDecision pattern today s' v command) = (.ok record, s'') ∧
        Previews s u' s''

namespace Service

variable {σ υ : Type} [UnitStore σ υ]

/-- Single decisions one after another, up to the first refusal, which comes with its place. -/
def decideInTurn (policy : Policy) (today : Date) :
    σ → List DecisionRequest → Except (Nat × Refusal) (List Record) × σ
  | s, [] => (.ok [], s)
  | s, item :: rest =>
    match decide policy today s item with
    | (.error refusal, s) => (.error (0, refusal), s)
    | (.ok record, s) =>
      match decideInTurn policy today s rest with
      | (.error (i, refusal), s) => (.error (i + 1, refusal), s)
      | (.ok records, s) => (.ok (record :: records), s)

/-- What a batch answers for items that have been decided with these records. -/
def batchResults (items : List DecisionRequest) (records : List Record) : List BatchResult :=
  List.zipWith
    (fun item record =>
      ⟨Text.trim item.applicationId, true,
        "decision recorded; application is " ++ record.status.name⟩)
    items records

/-- A batch on the store does what its items do one after another, or nothing.

A batch that is too long is refused. If all single decisions succeed, the batch ends in the same store
and answers with one result for each of them. If one is refused, the batch is refused on account of the
first such item and leaves the store as it was. -/
def BatchInTurn (policy : Policy) (today : Date) (s : σ) (items : List DecisionRequest) : Prop :=
  if policy.bulkMaxItems < items.length then
    ∃ reason, bulkDecide policy today s items = (.error (.invalidRequest reason), s)
  else
    match decideInTurn policy today s items with
    | (.ok records, s') =>
      records.length = items.length ∧
        bulkDecide policy today s items =
          (.ok { total := items.length, succeeded := items.length, failed := 0,
                 results := batchResults items records }, s')
    | (.error (i, refusal), _) =>
      ∃ item, items[i]? = some item ∧
        bulkDecide policy today s items = (.error (.batchItem item.applicationId refusal), s)

variable [PreviewStore σ υ] {s s' : σ} {u : υ} (policy : Policy) (today : Date)

/-- An item of a batch has the answer of the single decision on the previewed store. -/
theorem applyItem_of_previews (h : PreviewStore.Previews s u s') (item : DecisionRequest) :
    match decide policy today s' item with
    | (.ok record, s'') => ∃ u', PreviewStore.Previews s u' s'' ∧
        applyItem policy.dateFormat today s u item =
          (.ok (BatchSummary.recorded (Text.trim item.applicationId) record.status), u')
    | (.error refusal, _) => ∃ u', applyItem policy.dateFormat today s u item =
        (.error (.batchItem item.applicationId refusal), u') := by
  unfold decide applyItem
  cases hcommand : item.command with
  | error refusal => exact ⟨u, rfl⟩
  | ok command =>
    rw [← (DecisionRequest.command_eq_ok_iff.1 hcommand).1]
    rcases hdecision : recordDecision policy.dateFormat today s u command with ⟨answer, u'⟩
    cases answer with
    | error refusal =>
      simp only [PreviewStore.decision_error h hdecision, hdecision]
      exact ⟨u', rfl⟩
    | ok record =>
      obtain ⟨s'', hsingle, hpreviews⟩ := PreviewStore.decision_ok h hdecision
      simp only [hsingle, hdecision]
      exact ⟨u', hpreviews, rfl⟩

/-- The items of a batch have the answers of single decisions one after another. -/
theorem applyItems_of_previews (items : List DecisionRequest) (h : PreviewStore.Previews s u s') :
    match decideInTurn policy today s' items with
    | (.ok records, s'') => records.length = items.length ∧ ∃ u', PreviewStore.Previews s u' s'' ∧
        applyItems policy.dateFormat today s u items = (.ok (batchResults items records), u')
    | (.error (i, refusal), _) => ∃ item u', items[i]? = some item ∧
        applyItems policy.dateFormat today s u items =
          (.error (.batchItem item.applicationId refusal), u') := by
  induction items generalizing u s' with
  | nil => exact ⟨rfl, u, h, rfl⟩
  | cons item rest ih =>
    have hitem := applyItem_of_previews policy today h item
    unfold decideInTurn applyItems
    rcases hdecide : decide policy today s' item with ⟨_ | record, s''⟩
    · rename_i refusal
      simp only [hdecide] at hitem
      obtain ⟨u', hu'⟩ := hitem
      simp only [hu']
      exact ⟨item, u', List.getElem?_cons_zero, rfl⟩
    · simp only [hdecide] at hitem
      obtain ⟨u', hpreviews, hu'⟩ := hitem
      simp only [hu']
      have hrest := ih hpreviews
      rcases hturn : decideInTurn policy today s'' rest with ⟨⟨i, refusal⟩ | records, last⟩
      · simp only [hturn] at hrest ⊢
        obtain ⟨failing, u'', hi, hu''⟩ := hrest
        exact ⟨failing, u'', by simpa using hi, by simp only [hu'']⟩
      · simp only [hturn] at hrest ⊢
        obtain ⟨hlength, u'', hpreviews', hu''⟩ := hrest
        exact ⟨by simp [hlength], u'', hpreviews', by simp only [hu'']; rfl⟩

/-- A batch on a store that opens is the sequence of its single decisions, or nothing. -/
theorem batchInTurn_of_openUnit (hopen : openUnit s = .ok u) (items : List DecisionRequest) :
    BatchInTurn policy today s items := by
  unfold BatchInTurn bulkDecide
  by_cases hlong : policy.bulkMaxItems < items.length
  · simp only [hlong, if_true]
    exact ⟨_, rfl⟩
  · have hitems := applyItems_of_previews policy today items (PreviewStore.previews_self hopen)
    simp only [hlong, if_false, inUnit, hopen, applyBatch]
    rcases hturn : decideInTurn policy today s items with ⟨⟨i, refusal⟩ | records, s'⟩
    · simp only [hturn] at hitems ⊢
      obtain ⟨item, u', hi, hu'⟩ := hitems
      have hne : items.isEmpty = false := by
        cases items with
        | nil => simp at hi
        | cons first rest => rfl
      simp only [hne, hu']
      exact ⟨item, hi, rfl⟩
    · simp only [hturn] at hitems ⊢
      obtain ⟨hlength, u', hpreviews, hu'⟩ := hitems
      refine ⟨hlength, ?_⟩
      cases items with
      | nil =>
        simp only [decideInTurn, Prod.mk.injEq, Except.ok.injEq] at hturn
        obtain ⟨rfl, rfl⟩ := hturn
        rfl
      | cons item rest =>
        have hcount : (batchResults (item :: rest) records).length = (item :: rest).length := by
          simp [batchResults, hlength]
        simp [hu', PreviewStore.commit_eq hpreviews, BatchSummary.ofResults, hcount]

end Service

end SignOff
