import SignOff.Proofs.Approval.Blocks
import SignOff.Proofs.Ledger.Office

/-!
# The closed form of a workflow

Where an application in the ledger stands follows from its submission and the decisions that have been
committed on it, whatever else has happened. Approvals have decided the blocks of its approvers from the
first one on, the next decision is that of the approver of the next block, and when there is no such block
or one of them has rejected, no decision is taken any more.
-/

namespace SignOff.Ledger

/-- No well-formed request for the application is carried out. -/
def Closed (policy : Policy) (ledger : Ledger) (id : String) : Prop :=
  ∀ (today : Date) (request : DecisionRequest) (command : Command), request.command = .ok command →
    command.applicationId = id →
    Service.decide policy today ledger request = (.error (.noActionableStep id), ledger)

/-- A well-formed request for the application is carried out exactly if it comes from the approver. -/
structure Awaits (policy : Policy) (ledger : Ledger) (s : Submission) (id : String)
    (approvals : List Ruling) (approver : String) : Prop where
  refuse : ∀ (today : Date) (request : DecisionRequest) (command : Command),
    request.command = .ok command → command.applicationId = id →
    Text.trim request.approver ≠ Text.trim approver →
    Service.decide policy today ledger request =
      (.error (.wrongApprover id (Text.trim approver) (Text.trim request.approver)), ledger)
  accept : ∀ (today : Date) (request : DecisionRequest) (command : Command),
    request.command = .ok command → command.applicationId = id →
    Text.trim request.approver = Text.trim approver →
    ∃ record ledger', Service.decide policy today ledger request = (.ok record, ledger') ∧
      ledger'.view id = .ok (some record.chain) ∧
      (command.outcome = .approved →
        s.Approved id (approvals ++ [command.ruling policy.dateFormat today]) record.chain) ∧
      (command.outcome = .rejected →
        s.Rejected id approvals (command.ruling policy.dateFormat today) record.chain)

section Decide

variable (policy : Policy) (today : Date) {ledger : Ledger} {request : DecisionRequest}
  {command : Command} {chain : Chain}

/-- A request for a chain of a readable ledger is answered as the chain answers it. -/
theorem decide_of_contents (hreadable : ledger.Readable) (hcommand : request.command = .ok command)
    (hchain : ledger.tables.contents command.applicationId = some chain) :
    match chain.decide command policy.dateFormat today with
    | .error refusal => Service.decide policy today ledger request = (.error refusal, ledger)
    | .ok record => ∃ ledger', Service.decide policy today ledger request = (.ok record, ledger') ∧
        ledger'.view command.applicationId = .ok (some record.chain) := by
  have hdecide := Service.decide_of_readable policy today (s := ledger) hreadable hcommand
  have hcontents : (SerialStore.contents ledger).decide policy.dateFormat today command =
      chain.decide command policy.dateFormat today := by
    change Contents.decide ledger.tables.contents policy.dateFormat today command = _
    simp only [Contents.decide, hchain]
  rw [hcontents] at hdecide
  cases hanswer : chain.decide command policy.dateFormat today with
  | error refusal => simpa only [hanswer] using hdecide
  | ok record =>
    simp only [hanswer] at hdecide
    obtain ⟨ledger', hok, hreadable', hafter⟩ := hdecide
    refine ⟨ledger', hok, ?_⟩
    rw [view_of_readable hreadable']
    exact congrArg Except.ok ((congrFun hafter _).trans (Function.update_self ..))

/-- Where nothing awaits a decision the application is closed. -/
theorem closed_of_cursor?_eq_none (hreadable : ledger.Readable) {id : String}
    (hchain : ledger.tables.contents id = some chain) (hid : chain.application.id = id)
    (hnone : chain.cursor? = none) : ledger.Closed policy id := by
  intro today request command hcommand hrequested
  subst hrequested
  have hdecide := decide_of_contents policy today hreadable hcommand hchain
  simpa only [Chain.decide, hnone, hid] using hdecide

end Decide

section Workflow

variable (policy : Policy) {ledger : Ledger} {s : Submission} {id : String} {submitted : Date}
  {approvals : List Ruling} {chain : Chain}

/-- After approvals of all blocks the application is closed. -/
theorem closed_of_all_blocks (hreadable : ledger.Readable)
    (hchain : ledger.tables.contents id = some chain)
    (hreplay : (s.chain id submitted).replay? approvals = some chain)
    (happroved : ∀ r ∈ approvals, r.command.outcome = .approved)
    (hall : approvals.length = (s.blocks id).length) : ledger.Closed policy id := by
  obtain ⟨-, hstands⟩ := Submission.stands_chain.replay happroved hreplay
  rw [hall, List.drop_length] at hstands
  exact closed_of_cursor?_eq_none policy hreadable hchain (Chain.id_of_replay hreplay)
    hstands.cursor?_eq_none

/-- After approvals of the first blocks the application awaits the approver of the next one. -/
theorem awaits_of_next_block (hreadable : ledger.Readable)
    (hchain : ledger.tables.contents id = some chain) (hsound : (s.chain id submitted).Sound)
    (hfew : s.approvers.length < Power.ofTwo 32) (hreplay : (s.chain id submitted).replay? approvals = some chain)
    (happroved : ∀ r ∈ approvals, r.command.outcome = .approved) {block : List Step}
    (hblock : (s.blocks id)[approvals.length]? = some block) :
    ∃ approver, s.approvers[((s.blocks id).take approvals.length).flatten.length]? = some approver ∧
      (∀ step ∈ block, step.approver = Text.trim approver) ∧
      ledger.Awaits policy s id approvals approver := by
  obtain ⟨-, hstands⟩ := Submission.stands_chain.replay happroved hreplay
  obtain ⟨hless, rfl⟩ := List.getElem?_eq_some_iff.1 hblock
  have hdrop := List.drop_eq_getElem_cons hless
  have hid : chain.application.id = id := Chain.id_of_replay hreplay
  generalize (s.blocks id)[approvals.length] = block at hdrop
  generalize (s.blocks id).drop (approvals.length + 1) = rest at hdrop
  rw [hdrop] at hstands
  match block, hstands with
  | [], hstands => cases hstands.blocks
  | first :: tail, hstands =>
    obtain ⟨approver, hplace, hfirst⟩ := Submission.approver_of_blocks hdrop
    refine ⟨approver, hplace, ?_, ?_, ?_⟩
    · intro step hstep
      rw [← hfirst]
      rcases List.mem_cons.1 hstep with rfl | hstep
      · rfl
      · cases hstands.blocks with
        | cons _ htail => exact (htail step hstep).2
    · intro today request command hcommand hrequested hother
      subst hrequested
      have hdecide := decide_of_contents policy today hreadable hcommand hchain
      have hcommandApprover := (DecisionRequest.command_eq_ok_iff.1 hcommand).2.2.1
      rw [hstands.decide_of_ne (by rw [hfirst, hcommandApprover]; exact hother.symm)] at hdecide
      simpa only [hid, hfirst, hcommandApprover] using hdecide
    · intro today request command hcommand hrequested hsame
      subst hrequested
      have hdecide := decide_of_contents policy today hreadable hcommand hchain
      have hcommandApprover := (DecisionRequest.command_eq_ok_iff.1 hcommand).2.2.1
      obtain ⟨record, hanswer⟩ : ∃ record, chain.decide command policy.dateFormat today = .ok record :=
        hstands.decide_of_eq (by rw [hfirst, hcommandApprover]; exact hsame.symm)
      simp only [hanswer] at hdecide
      obtain ⟨ledger', hok, hview⟩ := hdecide
      have hnext : (s.chain command.applicationId submitted).replay?
          (approvals ++ [command.ruling policy.dateFormat today]) = some record.chain := by
        rw [Chain.replay?_append, hreplay]
        exact Chain.replay?_singleton hanswer
      refine ⟨record, ledger', hok, hview, fun houtcome => ?_, fun houtcome => ?_⟩
      · apply Submission.approved_of_replay hsound hfew hnext
        intro r hr
        rcases List.mem_append.1 hr with hr | hr
        · exact happroved r hr
        · rw [List.mem_singleton.1 hr]
          exact houtcome
      · exact Submission.rejected_of_replay hfew hnext happroved houtcome

end Workflow

/-- What a run leaves of a submission that has been taken: a chain as the committed decisions say. -/
theorem workflow_closed_form (policy : Policy) (events : List Event) (taken : Taken)
    (htaken : taken ∈ (Office.start.run policy events).taken) :
    let ledger := (Office.start.run policy events).desk.store
    let rulings := Ruling.on taken.id (Office.start.run policy events).desk.committed
    let s := taken.submission
    ∃ chain, ledger.view taken.id = .ok (some chain) ∧
      ((∀ r ∈ rulings, r.command.outcome = .approved) ∧ s.Approved taken.id rulings chain ∧
          (rulings.length = (s.blocks taken.id).length ∧ ledger.Closed policy taken.id ∨
            ∃ block approver, (s.blocks taken.id)[rulings.length]? = some block ∧
              s.approvers[((s.blocks taken.id).take rulings.length).flatten.length]? = some approver ∧
              (∀ step ∈ block, step.approver = Text.trim approver) ∧
              ledger.Awaits policy s taken.id rulings approver) ∨
        ∃ approvals r, rulings = approvals ++ [r] ∧ (∀ a ∈ approvals, a.command.outcome = .approved) ∧
          r.command.outcome = .rejected ∧ s.Rejected taken.id approvals r chain ∧
          ledger.Closed policy taken.id) := by
  intro ledger rulings s
  have hoffice := Office.accountable_start.run policy events
  have hreadable : ledger.Readable := hoffice.consistent.readable
  obtain ⟨hvalid, hfew⟩ := hoffice.taken_fit taken htaken
  have hsound : taken.chain.Sound :=
    Submission.sound_chain (Submission.approvers_of_validate hvalid).1 hfew
  obtain ⟨chain, hchain, hreplay⟩ := hoffice.contents_of_mem htaken
  refine ⟨chain, by rw [view_of_readable hreadable]; exact congrArg _ hchain, ?_⟩
  rcases Chain.rulings_of_replay hreplay with happroved | ⟨approvals, r, hrulings, happroved, hrejected⟩
  · have hform := Submission.approved_of_replay hsound hfew hreplay happroved
    refine Or.inl ⟨happroved, hform, ?_⟩
    rcases Nat.eq_or_lt_of_le hform.count_le with hall | hless
    · exact Or.inl ⟨hall, closed_of_all_blocks policy hreadable hchain hreplay happroved hall⟩
    · have hblock := List.getElem?_eq_getElem hless
      obtain ⟨approver, hplace, hsteps, hawaits⟩ :=
        awaits_of_next_block policy hreadable hchain hsound hfew hreplay happroved hblock
      exact Or.inr ⟨_, approver, hblock, hplace, hsteps, hawaits⟩
  · rw [hrulings] at hreplay
    refine Or.inr ⟨approvals, r, hrulings, happroved, hrejected,
      Submission.rejected_of_replay hfew hreplay happroved hrejected, ?_⟩
    exact closed_of_cursor?_eq_none policy hreadable hchain (Chain.id_of_replay hreplay)
      (Chain.cursor?_eq_none_of_replay hreplay hrejected)

/-- Three approvers whose first two ids differ in white space only, right after the submission. -/
theorem workflow_closed_form_of_three_approvers :
    let s : Submission := ⟨none, none, "kim", none, ["park ", " park", "lee"], none⟩
    let office := Office.start.run ⟨100, "%Y"⟩ [.submit "7" s Date.epoch]
    ∃ chain, office.desk.store.view "7" = .ok (some chain) ∧ s.Approved "7" [] chain ∧
      office.desk.store.Awaits ⟨100, "%Y"⟩ s "7" [] "park " := by
  intro s office
  have htakes : Ledger.empty.Takes "7" s := ⟨by decide +kernel, rfl, rfl, by decide⟩
  have hoffice : office = _ := Office.step_submit Office.start ⟨100, "%Y"⟩ htakes Date.epoch
  have htaken : ⟨"7", s, Date.epoch⟩ ∈ office.taken := by
    rw [hoffice]
    exact List.mem_cons_self
  have hrulings : Ruling.on "7" office.desk.committed = [] := by
    rw [hoffice]
    rfl
  have hblocks : (s.blocks "7").length = 2 := by decide +kernel
  obtain ⟨chain, hview, hform⟩ := workflow_closed_form _ _ _ htaken
  change (∀ r ∈ Ruling.on "7" office.desk.committed, _) ∧ _ ∨ _ at hform
  rw [hrulings] at hform
  refine ⟨chain, hview, ?_⟩
  rcases hform with ⟨-, happroved, hnext⟩ | ⟨approvals, r, hempty, -⟩
  · refine ⟨happroved, ?_⟩
    rcases hnext with ⟨hall, -⟩ | ⟨block, approver, -, hplace, -, hawaits⟩
    · simp [hblocks] at hall
    · obtain rfl : "park " = approver := Option.some.inj hplace
      exact hawaits
  · simp at hempty

end SignOff.Ledger
