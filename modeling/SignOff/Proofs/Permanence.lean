import SignOff.Proofs.Approval.History
import SignOff.Proofs.Reachable

/-!
# History is permanent

Whatever happens in an office, no application leaves its ledger, and what has been decided on it stays as it
is. An event continues the chain of an application by rulings, or leaves it alone, and so does a run of
events.
-/

namespace SignOff

namespace Ledger.Office

/-- Every chain of the ledger is there later, continued by rulings. -/
def Continues (office later : Office) : Prop :=
  ∀ id chain, office.desk.store.tables.contents id = some chain →
    ∃ rulings, Contents.Continues (some chain) rulings (later.desk.store.tables.contents id)

variable {office : Office}

/-- A ledger that shows the same chain, or else showed none, has continued it. -/
theorem continues_of_eq {later : Office}
    (h : ∀ id, office.desk.store.tables.contents id ≠ none →
      later.desk.store.tables.contents id = office.desk.store.tables.contents id) :
    office.Continues later := by
  intro id chain hchain
  refine ⟨[], Contents.continues_nil_iff.2 ?_⟩
  rw [h id (by simp [hchain]), hchain]

/-- What continues an office that continues an earlier one continues the earlier one. -/
theorem Continues.trans {first second third : Office} (h : first.Continues second)
    (h' : second.Continues third) : first.Continues third := by
  intro id chain hchain
  obtain ⟨rulings, hcontinues⟩ := h id chain hchain
  obtain ⟨middle, hmiddle, -⟩ := Contents.Continues.present_iff.1 hcontinues
  obtain ⟨rulings', hcontinues'⟩ := h' id middle hmiddle
  exact ⟨rulings ++ rulings', (hmiddle ▸ hcontinues).append hcontinues'⟩

namespace Accountable

/-- Every event continues the chains of the ledger. -/
theorem continues_step (h : office.Accountable) (policy : Policy) (event : Event) :
    office.Continues (office.step policy event) := by
  cases event with
  | work op =>
    obtain ⟨-, rulings, -, hreplay⟩ := h.consistent.step policy op
    intro id chain hchain
    have hid := Contents.replay?_eq_some_iff.1 hreplay id
    change Contents.Continues (office.desk.store.tables.contents id) _ _ at hid
    rw [hchain] at hid
    exact ⟨_, hid⟩
  | submit id s today =>
    by_cases htakes : office.desk.store.Takes id s
    · obtain ⟨-, hreadable⟩ := h.consistent.readable
      obtain ⟨-, hcontents⟩ := hreadable.submit htakes.isNew htakes.few today
      rw [step_submit office policy htakes]
      apply continues_of_eq
      -- A submission is taken under an id that the ledger does not have, so it meets no chain.
      intro other hother
      have hne : other ≠ id := by
        intro heq
        subst heq
        exact hother (hreadable.contents_eq_none_iff.2 htakes.isNew)
      exact (congrFun hcontents other).trans (Function.update_of_ne hne _ _)
    · obtain ⟨refusal, hrefused⟩ := submit_of_not_takes htakes today
      simp only [Office.step, hrefused]
      exact continues_of_eq fun _ _ => rfl

/-- Every run continues the chains of the ledger. -/
theorem continues_run (h : office.Accountable) (policy : Policy) (events : List Event) :
    office.Continues (office.run policy events) := by
  induction events generalizing office with
  | nil => exact continues_of_eq fun _ _ => rfl
  | cons event rest ih => exact (h.continues_step policy event).trans (ih (h.step policy event))

end Accountable

end Ledger.Office

open Ledger (Event Office)

/-- Of any two states of a run the later one has every application of the earlier one with its history: the
same particulars and steps, every decision as it was, and a version that is greater unless nothing has
changed. An application that is approved or rejected does not change at all. -/
theorem history_permanent (policy : Policy) (first rest : List Event) {id : String} {chain : Chain}
    (hview : (Office.start.run policy first).desk.store.view id = .ok (some chain)) :
    ∃ later, (Office.start.run policy (first ++ rest)).desk.store.view id = .ok (some later) ∧
      chain.Keeps later := by
  have hoffice := Office.accountable_start.run policy first
  have hafter := hoffice.run policy rest
  have hrun : Office.start.run policy (first ++ rest) =
      (Office.start.run policy first).run policy rest := List.foldl_append
  obtain ⟨hsound, -, hroom⟩ := hoffice.of_view hview
  rw [Ledger.view_of_readable hoffice.consistent.readable, Except.ok.injEq] at hview
  obtain ⟨rulings, hcontinues⟩ := hoffice.continues_run policy rest id chain hview
  obtain ⟨later, hlater, hreplay⟩ := Contents.Continues.present_iff.1 hcontinues
  refine ⟨later, ?_, hsound.keeps_of_replay hroom hreplay⟩
  rw [hrun, Ledger.view_of_readable hafter.consistent.readable, hlater]

/-- An application right after its submission, and after a decision on it. -/
theorem history_permanent_of_two_approvers :
    let s : Submission := ⟨none, none, "kim", none, ["lee", " park"], none⟩
    let first : List Event := [.submit "7" s Date.epoch]
    let rest : List Event := [.work (.decide Date.epoch ⟨"7", "lee", none, some "approve"⟩)]
    ∃ later, (Office.start.run ⟨100, "%Y"⟩ (first ++ rest)).desk.store.view "7" = .ok (some later) ∧
      (s.chain "7" Date.epoch).Keeps later := by
  intro s first rest
  have htakes : Ledger.empty.Takes "7" s := ⟨by decide +kernel, rfl, rfl, by decide⟩
  have hoffice : Office.start.run ⟨100, "%Y"⟩ first = _ :=
    Office.step_submit Office.start ⟨100, "%Y"⟩ htakes Date.epoch
  have hview : (Office.start.run ⟨100, "%Y"⟩ first).desk.store.view "7" =
      .ok (some (s.chain "7" Date.epoch)) := by
    have hreadable := (Office.accountable_start.run ⟨100, "%Y"⟩ first).consistent.readable
    rw [Ledger.view_of_readable hreadable, hoffice]
    have hcontents := (Ledger.Tables.readable_empty.1.submit htakes.isNew htakes.few Date.epoch).2
    exact congrArg _ ((congrFun hcontents "7").trans (Function.update_self _ _ _))
  exact history_permanent ⟨100, "%Y"⟩ first rest hview

end SignOff
