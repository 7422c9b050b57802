import SignOff.Proofs.Reachable
import SignOff.Proofs.Store.Kept

/-!
# Submissions are read back

In an office that starts without rows everything can be read at any time, by whoever looks at the ledger and in
every unit, overtaken or not. A valid submission under an id that nothing has yet is taken, is read back as it
was handed in, with its ids trimmed, and leaves all else to be read as before.
-/

namespace SignOff.Ledger

namespace Office

variable {office : Office}

/-- An id that no submission has been given is that of no application. -/
theorem Accountable.header?_of_fresh (h : office.Accountable) {id : String}
    (hfresh : ∀ taken ∈ office.taken, taken.id ≠ id) : office.desk.store.tables.header? id = none := by
  rcases h.view_sound id with ⟨-, hnone⟩ | ⟨taken, htaken, hid, -⟩
  · rw [view_of_readable h.consistent.readable, Except.ok.injEq] at hnone
    exact h.consistent.readable.2.contents_eq_none_iff.1 hnone
  · exact absurd hid (hfresh taken htaken)

/-- A valid submission under an id that nothing has yet is taken. -/
theorem Accountable.takes (h : office.Accountable) {s : Submission} (hvalid : s.validate = .ok ())
    (hfew : s.approvers.length < Power.ofTwo 32) {id : String} (hfresh : ∀ taken ∈ office.taken, taken.id ≠ id) :
    office.desk.store.Takes id s :=
  ⟨hvalid, h.consistent.readable.1, h.header?_of_fresh hfresh, hfew⟩

/-- All units that have looked at the ledger can read whatever they look for. -/
def Legible (office : Office) : Prop :=
  ∀ name w, office.desk.units.lookup name = some (some w) →
    ∀ (ledger : Ledger) (id : String), ∃ found, (UnitStore.load ledger w.unit id).1 = .ok found

/-- Nobody works in an office at its start. -/
theorem legible_start : start.Legible := by simp [Legible, start, Desk.ofStore]

/-- A unit that has not been overtaken can read what it looks for. -/
theorem Accountable.load_ok (h : office.Accountable) {name : String} {w : Work Tables}
    (hwork : office.desk.work? name = some w) (hcurrent : w.overtaken = false) (ledger : Ledger) (id : String) :
    ∃ found, (UnitStore.load ledger w.unit id).1 = .ok found := by
  have haccounts := h.consistent.accounts_of_work? hwork hcurrent
  obtain ⟨u, hload, -⟩ := SerialStore.load_eq id h.consistent.readable haccounts
  -- a unit looks into the tables that it has, whatever the ledger has become
  exact ⟨_, congrArg Prod.fst hload⟩

/-- What happens leaves all units able to read: those that it overtakes were able to before. -/
theorem Legible.step (h : office.Legible) (haccountable : office.Accountable) (policy : Policy) (event : Event) :
    (office.step policy event).Legible := by
  intro name w hname
  cases hcurrent : w.overtaken with
  | false =>
    have hwork : (office.step policy event).desk.work? name = some w := by rw [Desk.work?, hname]
    exact (haccountable.step policy event).load_ok hwork hcurrent
  | true =>
    cases event with
    | work op =>
      obtain ⟨before, hbefore, hunit⟩ := Desk.lookup_of_step policy op hname hcurrent
      exact hunit ▸ h name before hbefore
    | submit id s today =>
      by_cases htakes : office.desk.store.Takes id s
      · rw [step_submit office policy htakes] at hname
        obtain ⟨before, hbefore, hunit, -⟩ := Desk.lookup_of_overtake hname
        exact hunit ▸ h name before hbefore
      · obtain ⟨refusal, hrefused⟩ := submit_of_not_takes htakes today
        simp only [Office.step, hrefused] at hname
        exact h name w hname

/-- After any run all units can read whatever they look for. -/
theorem Legible.run (h : office.Legible) (haccountable : office.Accountable) (policy : Policy)
    (events : List Event) : (office.run policy events).Legible := by
  induction events generalizing office with
  | nil => exact h
  | cons event rest ih => exact ih (h.step haccountable policy event) (haccountable.step policy event)

/-- An open unit of an accountable office can read, also where it looks at the ledger for the first time. -/
theorem Legible.load_ok (h : office.Legible) (haccountable : office.Accountable) {name : String} {w : Work Tables}
    (hwork : office.desk.work? name = some w) (ledger : Ledger) (id : String) :
    ∃ found, (UnitStore.load ledger w.unit id).1 = .ok found := by
  rcases Desk.work?_cases hwork with hname | ⟨u, -, rfl⟩
  · exact h name w hname ledger id
  · exact haccountable.load_ok hwork rfl ledger id

end Office

/-- A fresh unit of a readable ledger loads what the ledger shows. -/
theorem load_of_readable {ledger : Ledger} (h : ledger.Readable) (id : String) :
    ∃ unit, UnitStore.openUnit ledger = .ok unit ∧ (UnitStore.load ledger unit id).1 = ledger.view id := by
  have hopen : UnitStore.openUnit ledger = .ok ledger.tables := by
    change openTables ledger = _
    rw [openTables, if_pos h.1]
  have hload : UnitStore.load ledger ledger.tables id = (answer (ledger.tables.chain? id), ledger.tables) := rfl
  refine ⟨ledger.tables, hopen, ?_⟩
  rw [hload, h.2.chain?_eq, view_of_readable h]
  rfl

/-- After any run a valid submission under a new id is taken on whatever day. It is read back as the application
that was handed in, pending in version zero, with an open step for each approver in order, numbered from one and
final in the last place, where ids have lost the white space around them; all else is read as before. And at no time
is there anything in the ledger that cannot be read. -/
theorem submissions_read_back (policy : Policy) (events : List Event) {s : Submission}
    (hvalid : s.validate = .ok ()) (hfew : s.approvers.length < Power.ofTwo 32) {id : String}
    (hfresh : ∀ taken ∈ (Office.start.run policy events).taken, taken.id ≠ id) (today : Date) :
    let office := Office.start.run policy events
    let ledger := office.desk.store
    let after := (ledger.submit id s today).2
    let chain : Chain :=
      ⟨⟨id, s.title, s.document, .pending, Text.trim s.requester, today, s.requesterOpinion, 0⟩,
        s.approvers.mapIdx fun i approver =>
          ⟨id, i + 1, Text.trim approver, none, i + 1 = s.approvers.length⟩⟩
    (ledger.submit id s today).1 = .ok () ∧
      after.view id = .ok (some chain) ∧
      (∃ unit, UnitStore.openUnit after = .ok unit ∧ (UnitStore.load after unit id).1 = .ok (some chain)) ∧
      chain.steps = s.steps id ∧ chain.steps ≠ [] ∧ (∀ step ∈ chain.steps, step.approver ≠ "") ∧
      (∀ other, other ≠ id → after.view other = ledger.view other) ∧
      (∀ other, ∃ found, ledger.view other = .ok found) ∧
      ∀ name w, office.desk.work? name = some w →
        ∀ other, ∃ found, (UnitStore.load ledger w.unit other).1 = .ok found := by
  intro office ledger
  have hoffice : office.Accountable := Office.accountable_start.run policy events
  have hlegible : office.Legible := Office.legible_start.run Office.accountable_start policy events
  have hreadable : ledger.Readable := hoffice.consistent.readable
  have htakes : ledger.Takes id s := hoffice.takes hvalid hfew hfresh
  rw [submit_of_takes htakes today]
  intro after chain
  have hchain : s.chain id today = chain := congrArg (Chain.mk _) (Submission.steps_eq hfew)
  obtain ⟨hreadable', hcontents⟩ := hreadable.2.submit htakes.isNew htakes.few today
  have hafter : Readable { ledger with tables := ledger.tables.submit id s today } := ⟨hreadable.1, hreadable'⟩
  have hview : view { ledger with tables := ledger.tables.submit id s today } id = .ok (some chain) := by
    rw [view_of_readable hafter, hcontents, Function.update_self, hchain]
  obtain ⟨happrovers, hnotBlank⟩ := Submission.approvers_of_validate hvalid
  have hsteps : chain.steps = s.steps id := (Submission.steps_eq hfew).symm
  refine ⟨rfl, hview, ?_, hsteps, ?_, fun step hstep => ?_, fun other hother => ?_, fun other => ?_,
    fun name w hwork => hlegible.load_ok hoffice hwork ledger⟩
  · obtain ⟨unit, hopen, hload⟩ := load_of_readable hafter id
    exact ⟨unit, hopen, hload.trans hview⟩
  · rw [hsteps, ← List.length_pos_iff, Submission.length_steps, List.length_pos_iff]
    exact happrovers
  · obtain ⟨i, hi, rfl⟩ := List.mem_mapIdx.1 hstep
    intro hempty
    have hblank := (Text.trim_eq_empty_iff _).1 hempty
    rw [hnotBlank _ (List.getElem_mem hi)] at hblank
    exact Bool.false_ne_true hblank
  · rw [view_of_readable hafter, view_of_readable hreadable, hcontents, Function.update_of_ne hother]
  · exact ⟨_, view_of_readable hreadable other⟩

/-- A submission of the last day of the calendar with padded ids and empty texts, after a decision on another one. -/
theorem submissions_read_back_of_last_day :
    let first : Submission := ⟨none, none, "kim", none, ["lee"], none⟩
    let s : Submission := ⟨some "", some " ", " kim ", none, [" lee", "park\t", "lee"], some ⟨"PRJ", none, none⟩⟩
    let today : Date := ⟨262142, 12, 31, by decide⟩
    let ledger := (Office.start.run ⟨100, "%Y"⟩ [.submit "7" first Date.epoch,
      .work (.decide Date.epoch ⟨"7", "lee", none, some "approve"⟩)]).desk.store
    (ledger.submit "8" s today).1 = .ok () ∧
      (ledger.submit "8" s today).2.view "8" =
        .ok (some ⟨⟨"8", some "", some " ", .pending, "kim", today, none, 0⟩,
          [⟨"8", 1, "lee", none, false⟩, ⟨"8", 2, "park", none, false⟩, ⟨"8", 3, "lee", none, true⟩]⟩) ∧
      (ledger.submit "8" s today).2.view "7" = ledger.view "7" := by
  intro first s today ledger
  have htaken : (Office.start.run ⟨100, "%Y"⟩ [.submit "7" first Date.epoch,
      .work (.decide Date.epoch ⟨"7", "lee", none, some "approve"⟩)]).taken = [⟨"7", first, Date.epoch⟩] := by
    decide +kernel
  have hvalid : s.validate = .ok () := by decide +kernel
  have hfresh : ∀ taken ∈ (Office.start.run ⟨100, "%Y"⟩ [.submit "7" first Date.epoch,
      .work (.decide Date.epoch ⟨"7", "lee", none, some "approve"⟩)]).taken, taken.id ≠ "8" := by
    rw [htaken]
    decide
  obtain ⟨hdone, hview, -, -, -, -, hothers, -⟩ :=
    submissions_read_back ⟨100, "%Y"⟩ _ hvalid (by decide) hfresh today
  have hchain : s.approvers.mapIdx (fun i approver => (⟨"8", i + 1, Text.trim approver, none,
      i + 1 = s.approvers.length⟩ : Step)) =
        [⟨"8", 1, "lee", none, false⟩, ⟨"8", 2, "park", none, false⟩, ⟨"8", 3, "lee", none, true⟩] := by
    decide +kernel
  have hrequester : Text.trim " kim " = "kim" := by decide +kernel
  rw [hchain, hrequester] at hview
  exact ⟨hdone, hview, hothers "7" (by decide)⟩

end SignOff.Ledger
