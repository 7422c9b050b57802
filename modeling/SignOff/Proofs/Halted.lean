import SignOff.Proofs.Approval.Positions
import SignOff.Proofs.Permanence
import SignOff.Proofs.Store.Kept

/-!
# What a rejection stops

A rejection stops the steps behind it. A chain in which every open step has a rejected one before it awaits no
decision, refuses every command and stays as it is in every store. Chains of submissions are of this kind once they
have been rejected. A chain put together by hand may have open steps before its first rejected one; there the first
of them still awaits its approver, although the chain counts as halted.
-/

namespace SignOff

open Ledger (Event Office)

namespace Chain

variable {chain : Chain}

/-- Every open step has a rejected one before it. -/
def Stopped (chain : Chain) : Prop :=
  ∀ (i : Nat) (s : Step), chain.steps[i]? = some s → s.isOpen = true →
    ∃ (j : Nat) (t : Step), j < i ∧ chain.steps[j]? = some t ∧ t.isRejected = true

/-- The step that awaits a decision has no rejected one before it, so it stands before all rejected ones. -/
theorem AwaitsAt.lt_of_rejected {i j : Nat} {s t : Step} (h : chain.AwaitsAt i s) (ht : chain.steps[j]? = some t)
    (hrejected : t.isRejected = true) : i < j := by
  obtain ⟨hs, hopen, hbefore⟩ := h
  rcases Nat.lt_trichotomy j i with hlt | rfl | hgt
  · simp [Step.isRejected_of_isApproved (hbefore j t hlt ht)] at hrejected
  · rw [hs, Option.some.injEq] at ht
    simp [← ht, Step.isRejected_of_isOpen hopen] at hrejected
  · exact hgt

/-- Nothing awaits a decision exactly when every open step has a rejected one before it. -/
theorem cursor?_eq_none_iff_stopped : chain.cursor? = none ↔ chain.Stopped := by
  constructor
  · intro hnone i s hs hopen
    have hnot : ¬s.isApproved = true := by simp [Step.isApproved_of_isOpen hopen]
    rcases Cursor.find?_eq_none_iff.1 hnone with hall | ⟨before, r, after, hsteps, hbefore, hr⟩
    · exact absurd (hall s (List.mem_of_getElem? hs)) hnot
    · have hget : chain.steps[before.length]? = some r := by simp [hsteps]
      refine ⟨before.length, r, ?_, hget, hr⟩
      rcases Nat.lt_trichotomy i before.length with hlt | rfl | hgt
      · rw [hsteps, List.getElem?_append_left hlt] at hs
        exact absurd (hbefore s (List.mem_of_getElem? hs)) hnot
      · rw [hs, Option.some.injEq] at hget
        simp [← hget, Step.isRejected_of_isOpen hopen] at hr
      · exact hgt
  · intro hstopped
    refine Cursor.cursor?_eq_none_iff.2 fun i s hawaits => ?_
    obtain ⟨j, t, hlt, ht, hrejected⟩ := hstopped i s hawaits.1 hawaits.2.1
    exact absurd (hawaits.lt_of_rejected ht hrejected) (by omega)

/-- A chain that is stopped takes no ruling. -/
theorem Stopped.eq_of_replay (h : chain.Stopped) {after : Chain} {rulings : List Ruling}
    (hreplay : chain.replay? rulings = some after) : after = chain := by
  obtain rfl := replay?_of_cursor?_eq_none (cursor?_eq_none_iff_stopped.2 h) hreplay
  rw [replay?_nil, Option.some.injEq] at hreplay
  exact hreplay.symm

/-- Rejected steps stay among steps that are kept. -/
theorem any_isRejected_of_keeps {before after : List Step} (hkeeps : List.Forall₂ Step.Keeps before after)
    (h : before.any Step.isRejected = true) : after.any Step.isRejected = true := by
  induction hkeeps with
  | nil => exact h
  | @cons s t before after hstep _ ih =>
    rw [List.any_cons, Bool.or_eq_true] at h ⊢
    refine h.imp (fun hs => ?_) ih
    obtain ⟨d, hd, houtcome⟩ := (Option.any_eq_true _ _).1 hs
    exact (Option.any_eq_true _ _).2 ⟨d, hstep.decision d hd, houtcome⟩

/-- A decision that goes through leaves a halted chain halted. -/
theorem isHalted_of_decide (h : chain.isHalted = true) {command : Command} {pattern : String} {today : Date}
    {record : Record} (hdecide : chain.decide command pattern today = .ok record) :
    record.chain.isHalted = true :=
  any_isRejected_of_keeps (keeps_steps_of_decide hdecide) h

/-- In a sound chain a rejection stops all that follows it. -/
theorem Sound.stopped (h : chain.Sound) (hhalted : chain.isHalted = true) : chain.Stopped := by
  rw [← cursor?_eq_none_iff_stopped]
  have hrejected : chain.application.status = .rejected := h.rejected_iff.2 (List.any_eq_true.1 hhalted)
  cases hcursor : chain.cursor? with
  | none => rfl
  | some cursor => simp [h.pending_of_cursor hcursor] at hrejected

/-- A chain that is stopped refuses every command. -/
theorem Stopped.decide_eq (h : chain.Stopped) (command : Command) (pattern : String) (today : Date) :
    chain.decide command pattern today = .error (.noActionableStep chain.application.id) := by
  simp only [Chain.decide, cursor?_eq_none_iff_stopped.2 h]

/-- A chain that is not stopped has a step that awaits its approver, and takes a decision from this one. -/
theorem exists_decide_of_not_stopped (h : ¬chain.Stopped) : ∃ i s, chain.currentIndex? = some i ∧
    chain.AwaitsAt i s ∧ ∀ command pattern today, command.approver = s.approver →
      ∃ record, chain.decide command pattern today = .ok record := by
  rw [← cursor?_eq_none_iff_stopped] at h
  obtain ⟨cursor, hcursor⟩ := Option.ne_none_iff_exists'.1 h
  refine ⟨cursor.before.length, cursor.current, by simp [currentIndex?, hcursor],
    Cursor.exists_find?_iff.2 ⟨cursor, hcursor, rfl, rfl⟩, fun command pattern today happrover => ?_⟩
  exact ⟨_, decide_eq_ok_iff.2 ⟨cursor, hcursor, happrover.symm, rfl⟩⟩

end Chain

/-- Whatever is asked of a store with a stopped chain, the chain stays. -/
theorem Desk.contents_of_stopped {σ υ : Type} [UnitStore σ υ] [SideBySide σ] [SerialStore σ υ] {store : σ}
    (hreadable : SerialStore.Readable store) {id : String} {chain : Chain}
    (hchain : SerialStore.contents store id = some chain) (hstopped : chain.Stopped) (policy : Policy)
    (ops : List Desk.Op) : SerialStore.contents ((Desk.ofStore store).run policy ops).store id = some chain := by
  have hstart : Desk.Has (fun s => SerialStore.Readable s ∧ SerialStore.contents s id = some chain)
      (SerialStore.Leaves σ id chain) (Desk.ofStore store : Desk σ υ) :=
    ⟨⟨hreadable, hchain⟩, by simp [Desk.ofStore]⟩
  have hnone : chain.cursor? = none := Chain.cursor?_eq_none_iff_stopped.2 hstopped
  exact (hstart.run (SerialStore.keeps_closed hnone) policy ops).store.2

/-- Once the ledger of an office shows a rejected chain, it shows this very chain ever after. -/
theorem Ledger.Office.view_of_halted (policy : Policy) (first rest : List Event) {id : String} {chain : Chain}
    (hview : (start.run policy first).desk.store.view id = .ok (some chain)) (hhalted : chain.isHalted = true) :
    (start.run policy (first ++ rest)).desk.store.view id = .ok (some chain) := by
  have hoffice := accountable_start.run policy first
  have hafter := hoffice.run policy rest
  have hrun : start.run policy (first ++ rest) = (start.run policy first).run policy rest := List.foldl_append
  have hstopped : chain.Stopped := (hoffice.of_view hview).1.stopped hhalted
  rw [Ledger.view_of_readable hoffice.consistent.readable, Except.ok.injEq] at hview
  obtain ⟨rulings, hcontinues⟩ := hoffice.continues_run policy rest id chain hview
  obtain ⟨later, hlater, hreplay⟩ := Contents.Continues.present_iff.1 hcontinues
  rw [hrun, Ledger.view_of_readable hafter.consistent.readable, hlater, hstopped.eq_of_replay hreplay]

/-- A halted chain awaits no decision exactly when every open step has a rejected one before it. If so, it refuses
every command and stays as it is in every store, whatever is asked there. If not, the first open step stands before
all rejected ones and awaits its approver, whose decision goes through and leaves the chain halted. The chains of
submissions are of the first kind: once rejected they never change, in the ledger as in every other store. -/
theorem halted_chain_stands (chain : Chain) (hhalted : chain.isHalted = true) :
    (chain.currentIndex? = none ↔ chain.Stopped) ∧
    (chain.Stopped →
      (∀ command pattern today,
        chain.decide command pattern today = .error (.noActionableStep chain.application.id)) ∧
      ∀ {σ υ : Type} [UnitStore σ υ] [SideBySide σ] [SerialStore σ υ] [PreviewStore σ υ] (store : σ) id policy ops,
        SerialStore.Readable store → SerialStore.contents store id = some chain →
          SerialStore.contents ((Desk.ofStore store).run policy ops).store id = some chain) ∧
    (¬chain.Stopped → ∃ i s, chain.currentIndex? = some i ∧ chain.AwaitsAt i s ∧
      (∀ j t, chain.steps[j]? = some t → t.isRejected = true → i < j) ∧
      ∀ command pattern today, command.approver = s.approver →
        ∃ record, chain.decide command pattern today = .ok record ∧ record.chain.isHalted = true) ∧
    (chain.Sound → chain.Stopped) ∧
    ∀ policy first rest id, (Office.start.run policy first).desk.store.view id = .ok (some chain) →
      (Office.start.run policy (first ++ rest)).desk.store.view id = .ok (some chain) := by
  refine ⟨?_, fun hstopped => ⟨hstopped.decide_eq, ?_⟩, fun hnot => ?_, fun hsound => hsound.stopped hhalted, ?_⟩
  · rw [← Chain.cursor?_eq_none_iff_stopped, Chain.currentIndex?, Option.map_eq_none_iff]
  · exact fun store id policy ops hreadable hchain =>
      Desk.contents_of_stopped hreadable hchain hstopped policy ops
  · obtain ⟨i, s, hi, hawaits, htakes⟩ := Chain.exists_decide_of_not_stopped hnot
    refine ⟨i, s, hi, hawaits, fun j t ht hrejected => hawaits.lt_of_rejected ht hrejected, ?_⟩
    intro command pattern today happrover
    obtain ⟨record, hrecord⟩ := htakes command pattern today happrover
    exact ⟨record, hrecord, Chain.isHalted_of_decide hhalted hrecord⟩
  · exact fun policy first rest id hview => Office.view_of_halted policy first rest hview hhalted

/-- The chain whose first of two approvers has rejected refuses the second one, on a shelf too. -/
theorem halted_chain_stands_of_rejected_first :
    let application : Application :=
      { id := "7", title := none, document := none, status := .rejected, requester := "park",
        requestedOn := Date.epoch, requesterOpinion := none, version := 1 }
    let chain : Chain := ⟨application,
      [⟨"7", 1, "lee", some ⟨.rejected, Date.epoch, none⟩, false⟩, ⟨"7", 2, "kim", none, true⟩]⟩
    let desk := (Desk.ofStore (Shelf.ofChains [chain])).run ⟨100, "%Y"⟩
      [.decide Date.epoch ⟨"7", "kim", none, some "approve"⟩]
    chain.isHalted = true ∧
      chain.decide ⟨"7", "kim", none, .approved⟩ "%Y" Date.epoch = .error (.noActionableStep "7") ∧
      desk.store.get? "7" = some chain := by
  intro application chain desk
  have hhalted : chain.isHalted = true := by decide
  obtain ⟨hcurrent, hstopped, -⟩ := halted_chain_stands chain hhalted
  obtain ⟨hrefused, hstays⟩ := hstopped (hcurrent.1 (by decide))
  have hkeyed := Shelf.keyed_ofChains [chain]
  exact ⟨hhalted, hrefused _ _ _, hstays (Shelf.ofChains [chain]) "7" _ _ hkeyed (by decide +kernel)⟩

/-- A chain whose second step is rejected while the first is open counts as halted and takes the decision of the
first approver. -/
theorem open_step_before_rejected_decided :
    let application : Application :=
      { id := "7", title := none, document := none, status := .pending, requester := "park",
        requestedOn := Date.epoch, requesterOpinion := none, version := 0 }
    let chain : Chain := ⟨application,
      [⟨"7", 1, "lee", none, false⟩, ⟨"7", 2, "kim", some ⟨.rejected, Date.epoch, none⟩, true⟩]⟩
    chain.isHalted = true ∧ chain.currentIndex? = some 0 ∧
      ∃ record, chain.decide ⟨"7", "lee", none, .approved⟩ "%Y" Date.epoch = .ok record ∧
        record.decidedSequences = [1] := by
  intro application chain
  refine ⟨by decide, by decide, ?_⟩
  have hmade : (chain.decide ⟨"7", "lee", none, .approved⟩ "%Y" Date.epoch).map Record.decidedSequences =
      .ok [1] := by decide +kernel
  exact map_eq_ok_iff.1 hmade

end SignOff
