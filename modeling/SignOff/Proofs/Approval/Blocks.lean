import Mathlib.Data.List.SplitBy
import SignOff.Proofs.Approval.Versions

/-!
# Blocks of one approver

The steps of a submission fall into blocks: maximal runs of steps with the same approver. Each approval
decides one whole block, however often its approver comes again later, and a rejection decides the first
step of one. So the committed decisions say exactly where a chain stands.
-/

namespace SignOff

namespace Step

/-- Runs of open steps with one approver each, who is not the approver of the next run. -/
inductive Blocks : List (List Step) → Prop
  | nil : Blocks []
  | cons {first : Step} {tail : List Step} {rest : List (List Step)} : first.isOpen = true →
    (∀ s ∈ tail, s.isOpen = true ∧ s.approver = first.approver) →
    (∀ s ∈ rest.flatten.head?, s.approver ≠ first.approver) → Blocks rest →
    Blocks ((first :: tail) :: rest)

/-- Adjacent steps with the same approver in a run have all the approver of its first step. -/
theorem approver_eq_of_isChain {first : Step} {tail : List Step}
    (h : (first :: tail).IsChain fun a b => (a.approver == b.approver) = true) :
    ∀ s ∈ tail, s.approver = first.approver := by
  induction tail generalizing first with
  | nil => simp
  | cons next tail ih =>
    rw [List.isChain_cons_cons, beq_iff_eq] at h
    intro s hs
    rcases List.mem_cons.1 hs with rfl | hs
    · exact h.1.symm
    · exact (ih h.2 s hs).trans h.1.symm

/-- Open steps split into blocks by their approvers. -/
theorem blocks_splitBy {steps : List Step} (hopen : ∀ s ∈ steps, s.isOpen = true) :
    Blocks (steps.splitBy fun a b => a.approver == b.approver) := by
  have hflatten := List.flatten_splitBy (fun a b : Step => a.approver == b.approver) steps
  have hne := List.nil_notMem_splitBy (fun a b : Step => a.approver == b.approver) steps
  have hruns : ∀ run ∈ steps.splitBy fun a b => a.approver == b.approver,
      run.IsChain fun a b => (a.approver == b.approver) = true := fun _ => List.isChain_of_mem_splitBy
  have hnext := List.isChain_getLast_head_splitBy (fun a b : Step => a.approver == b.approver) steps
  rw [← hflatten] at hopen
  generalize steps.splitBy (fun a b => a.approver == b.approver) = blocks at *
  clear hflatten
  induction blocks with
  | nil => exact .nil
  | cons block rest ih =>
    rw [List.mem_cons, not_or] at hne
    cases block with
    | nil => exact absurd rfl hne.1
    | cons first tail =>
      have htail := approver_eq_of_isChain (hruns _ List.mem_cons_self)
      refine .cons (hopen first (by simp)) (fun s hs => ⟨hopen s (by simp [hs]), htail s hs⟩) ?_ ?_
      · cases rest with
        | nil => simp
        | cons next rest =>
          rw [List.isChain_cons_cons] at hnext
          obtain ⟨⟨hlast, hhead, hdiffer⟩, -⟩ := hnext
          have happrover : ((first :: tail).getLast hlast).approver = first.approver := by
            rcases List.mem_cons.1 (List.getLast_mem hlast) with heq | hmem
            · rw [heq]
            · exact htail _ hmem
          intro s hs
          obtain rfl : next.head hhead = s := by
            cases next with
            | nil => exact absurd rfl hhead
            | cons a as => simpa using hs
          rw [beq_eq_false_iff_ne, happrover] at hdiffer
          exact hdiffer.symm
      · refine ih (fun s hs => hopen s (by rw [List.flatten_cons]; exact List.mem_append_right _ hs))
          hne.2 (fun run hrun => hruns run (List.mem_cons_of_mem _ hrun)) ?_
        exact hnext.tail

end Step

/-- The decision that a ruling leaves on a step. -/
def Ruling.decision (r : Ruling) : Decision := r.command.decision r.today

/-- The steps of as many blocks as there are approvals, each block with the decision of its approval. -/
def Step.decidedBy (blocks : List (List Step)) (approvals : List Ruling) : List Step :=
  (List.zipWith (fun block r => block.map fun s => s.decide r.decision) blocks approvals).flatten

namespace Chain

/-- Approved steps, and after them the blocks that are still to be decided. -/
structure Stands (chain : Chain) (decided : List Step) (blocks : List (List Step)) : Prop where
  steps : chain.steps = decided ++ blocks.flatten
  approved : ∀ s ∈ decided, s.isApproved = true
  blocks : Step.Blocks blocks

namespace Stands

variable {chain : Chain} {decided : List Step} {first : Step} {tail : List Step}
  {rest : List (List Step)} {command : Command} {pattern : String} {today : Date}

/-- The first step of the first block awaits a decision. -/
theorem cursor?_eq (h : chain.Stands decided ((first :: tail) :: rest)) :
    chain.cursor? = some ⟨decided, first, tail ++ rest.flatten⟩ := by
  obtain ⟨hsteps, happroved, hblocks⟩ := h
  cases hblocks with
  | cons hfirst => exact Cursor.find?_eq_some_iff.2 ⟨hsteps, hfirst, happroved⟩

/-- After the last block nothing awaits a decision. -/
theorem cursor?_eq_none (h : chain.Stands decided []) : chain.cursor? = none := by
  apply Cursor.find?_eq_none_iff.2
  left
  rw [h.steps, List.flatten_nil, List.append_nil]
  exact h.approved

/-- A decision of the approver of the first block is taken. -/
theorem decide_of_eq (h : chain.Stands decided ((first :: tail) :: rest))
    (happrover : first.approver = command.approver) :
    ∃ record, chain.decide command pattern today = .ok record :=
  ⟨_, decide_eq_ok_iff.2 ⟨_, h.cursor?_eq, happrover, rfl⟩⟩

/-- A decision of anyone else is refused. -/
theorem decide_of_ne (h : chain.Stands decided ((first :: tail) :: rest))
    (happrover : first.approver ≠ command.approver) :
    chain.decide command pattern today =
      .error (.wrongApprover chain.application.id first.approver command.approver) := by
  simp only [Chain.decide, h.cursor?_eq, if_neg happrover]

/-- An approval runs on to the end of the block and no further. -/
theorem cascade_eq (h : chain.Stands decided ((first :: tail) :: rest))
    (happrover : first.approver = command.approver) (houtcome : command.outcome = .approved) :
    command.cascade (tail ++ rest.flatten) = tail := by
  cases h.blocks with
  | cons _ htail hnext =>
    have hrun : ∀ s ∈ tail, (s.approver = command.approver && s.isOpen) = true := by
      intro s hs
      simp [(htail s hs).1, (htail s hs).2, happrover]
    simp only [Command.cascade, houtcome, List.takeWhile_append_of_pos hrun]
    cases hrest : rest.flatten with
    | nil => simp
    | cons next others =>
      have hne : next.approver ≠ command.approver := by
        rw [← happrover]
        exact hnext next (by simp [hrest])
      simp [hne]

/-- An approval decides the first block. -/
theorem approve (h : chain.Stands decided ((first :: tail) :: rest)) {record : Record}
    (houtcome : command.outcome = .approved) (hdecide : chain.decide command pattern today = .ok record) :
    record.chain.Stands (decided ++ (first :: tail).map fun s => s.decide (command.decision today)) rest := by
  obtain ⟨cursor, hcursor, happrover, rfl⟩ := decide_eq_ok_iff.1 hdecide
  rw [h.cursor?_eq, Option.some.injEq] at hcursor
  subst hcursor
  refine ⟨?_, ?_, ?_⟩
  · rw [recordAt_steps, h.cascade_eq happrover houtcome, List.drop_left]
  · intro s hs
    rcases List.mem_append.1 hs with hs | hs
    · exact h.approved s hs
    · obtain ⟨t, -, rfl⟩ := List.mem_map.1 hs
      exact (Step.isApproved_decide _ _).2 houtcome
  · cases h.blocks with
    | cons _ _ _ hrest => exact hrest

/-- A rejection decides the first step of the first block. -/
theorem reject (h : chain.Stands decided ((first :: tail) :: rest)) {record : Record}
    (houtcome : command.outcome = .rejected) (hdecide : chain.decide command pattern today = .ok record) :
    record.chain.steps =
        decided ++ first.decide (command.decision today) :: (tail ++ rest.flatten) ∧
      record.chain.application.status = .rejected := by
  obtain ⟨cursor, hcursor, happrover, rfl⟩ := decide_eq_ok_iff.1 hdecide
  rw [h.cursor?_eq, Option.some.injEq] at hcursor
  subst hcursor
  refine ⟨by simp [Command.cascade, houtcome], ?_⟩
  rw [recordAt_status, Command.statusAfter, houtcome]

/-- Approvals decide one block after another. -/
theorem replay {blocks : List (List Step)} {approvals : List Ruling} {after : Chain}
    (h : chain.Stands decided blocks) (happroved : ∀ r ∈ approvals, r.command.outcome = .approved)
    (hreplay : chain.replay? approvals = some after) :
    approvals.length ≤ blocks.length ∧
      after.Stands (decided ++ Step.decidedBy blocks approvals) (blocks.drop approvals.length) := by
  induction approvals generalizing chain decided blocks with
  | nil =>
    rw [replay?_nil, Option.some.injEq] at hreplay
    subst hreplay
    simpa [Step.decidedBy] using h
  | cons r rest ih =>
    rw [replay?_cons] at hreplay
    obtain ⟨next, hnext, hrest⟩ := Option.bind_eq_some_iff.1 hreplay
    obtain ⟨record, hdecide, rfl⟩ := rule?_eq_some_iff.1 hnext
    match blocks, h with
    | [], h =>
      obtain ⟨cursor, hcursor, -⟩ := decide_eq_ok_iff.1 hdecide
      simp [h.cursor?_eq_none] at hcursor
    | [] :: _, h => cases h.blocks
    | (first :: tail) :: others, h =>
      have hstands := h.approve (happroved r List.mem_cons_self) hdecide
      obtain ⟨hcount, hlast⟩ := ih hstands (fun a ha => happroved a (List.mem_cons_of_mem _ ha)) hrest
      refine ⟨Nat.succ_le_succ hcount, ?_⟩
      rw [List.append_assoc] at hlast
      exact hlast

end Stands

/-- After a rejection nothing awaits a decision. -/
theorem cursor?_eq_none_of_reject {chain after : Chain} {r : Ruling} (hrule : chain.rule? r = some after)
    (houtcome : r.command.outcome = .rejected) : after.cursor? = none := by
  obtain ⟨record, hdecide, rfl⟩ := rule?_eq_some_iff.1 hrule
  obtain ⟨cursor, hcursor, -, rfl⟩ := decide_eq_ok_iff.1 hdecide
  obtain ⟨-, -, hbefore⟩ := Cursor.find?_eq_some hcursor
  refine Cursor.find?_eq_none_iff.2 (Or.inr ⟨cursor.before, _, cursor.after, ?_, hbefore,
    (Step.isRejected_decide cursor.current (r.command.decision r.today)).2 houtcome⟩)
  simp [Command.cascade, houtcome]

/-- After rulings that end with a rejection nothing awaits a decision. -/
theorem cursor?_eq_none_of_replay {chain after : Chain} {rulings : List Ruling} {r : Ruling}
    (hreplay : chain.replay? (rulings ++ [r]) = some after) (houtcome : r.command.outcome = .rejected) :
    after.cursor? = none := by
  rw [replay?_append] at hreplay
  obtain ⟨middle, -, hlast⟩ := Option.bind_eq_some_iff.1 hreplay
  rw [replay?_cons, Option.bind_eq_some_iff] at hlast
  obtain ⟨next, hrule, hnil⟩ := hlast
  rw [replay?_nil, Option.some.injEq] at hnil
  exact hnil ▸ cursor?_eq_none_of_reject hrule houtcome

/-- Where nothing awaits a decision no ruling succeeds. -/
theorem replay?_of_cursor?_eq_none {chain after : Chain} {rulings : List Ruling}
    (hnone : chain.cursor? = none) (hreplay : chain.replay? rulings = some after) : rulings = [] := by
  cases rulings with
  | nil => rfl
  | cons r rest =>
    have hrule : chain.rule? r = none := by simp [rule?, Chain.decide, hnone]
    simp [replay?_cons, hrule] at hreplay

/-- Rulings on a chain are approvals, or approvals and a rejection at the end. -/
theorem rulings_of_replay {chain after : Chain} {rulings : List Ruling}
    (hreplay : chain.replay? rulings = some after) :
    (∀ r ∈ rulings, r.command.outcome = .approved) ∨
      ∃ approvals r, rulings = approvals ++ [r] ∧ (∀ a ∈ approvals, a.command.outcome = .approved) ∧
        r.command.outcome = .rejected := by
  induction rulings generalizing chain with
  | nil => exact Or.inl (by simp)
  | cons r rest ih =>
    rw [replay?_cons] at hreplay
    obtain ⟨next, hnext, hrest⟩ := Option.bind_eq_some_iff.1 hreplay
    cases houtcome : r.command.outcome with
    | rejected =>
      obtain rfl := replay?_of_cursor?_eq_none (cursor?_eq_none_of_reject hnext houtcome) hrest
      exact Or.inr ⟨[], r, rfl, by simp, houtcome⟩
    | approved =>
      rcases ih hrest with hall | ⟨approvals, last, rfl, happroved, hlast⟩
      · exact Or.inl (by simpa [houtcome] using hall)
      · exact Or.inr ⟨r :: approvals, last, rfl, by simpa [houtcome] using happroved, hlast⟩

/-- A sound chain is approved when all blocks are decided, and pending before. -/
theorem Stands.status_eq {chain : Chain} {decided : List Step} {blocks : List (List Step)}
    (h : chain.Stands decided blocks) (hsound : chain.Sound) :
    chain.application.status = if blocks = [] then .approved else .pending := by
  match blocks, h with
  | [], h =>
    rw [if_pos rfl, hsound.approved_iff, h.steps, List.flatten_nil, List.append_nil]
    exact h.approved
  | [] :: _, h => cases h.blocks
  | (first :: tail) :: rest, h =>
    rw [if_neg (List.cons_ne_nil _ _), hsound.pending_iff, currentIndex?, h.cursor?_eq]
    rfl

end Chain

namespace Submission

variable {s : Submission} {id : String} {today : Date}

/-- The maximal runs of steps with the same approver. -/
def blocks (s : Submission) (id : String) : List (List Step) :=
  (s.steps id).splitBy fun a b => a.approver == b.approver

/-- The chain after approvals of the first blocks and no rejection. -/
structure Approved (s : Submission) (id : String) (approvals : List Ruling) (chain : Chain) : Prop where
  count_le : approvals.length ≤ (s.blocks id).length
  steps : chain.steps =
    Step.decidedBy (s.blocks id) approvals ++ ((s.blocks id).drop approvals.length).flatten
  version : chain.application.version = approvals.length
  status : chain.application.status =
    if approvals.length = (s.blocks id).length then .approved else .pending

/-- The chain after approvals of the first blocks and a rejection by the next approver. -/
structure Rejected (s : Submission) (id : String) (approvals : List Ruling) (r : Ruling) (chain : Chain) :
    Prop where
  steps : ∃ first rest, ((s.blocks id).drop approvals.length).flatten = first :: rest ∧
    chain.steps = Step.decidedBy (s.blocks id) approvals ++ first.decide r.decision :: rest
  version : chain.application.version = approvals.length + 1
  status : chain.application.status = .rejected

/-- All blocks of a submitted chain are still to be decided. -/
theorem stands_chain : (s.chain id today).Stands [] (s.blocks id) where
  steps := (List.flatten_splitBy _ _).symm
  approved := by simp
  blocks := Step.blocks_splitBy fun _ hstep => (of_mem_steps hstep).1

/-- Approvals of a submitted chain decide its first blocks. -/
theorem approved_of_replay (hsound : (s.chain id today).Sound) (hfew : s.approvers.length < Power.ofTwo 32)
    {approvals : List Ruling} {chain : Chain} (hreplay : (s.chain id today).replay? approvals = some chain)
    (happroved : ∀ r ∈ approvals, r.command.outcome = .approved) : s.Approved id approvals chain := by
  obtain ⟨hcount, hstands⟩ := stands_chain.replay happroved hreplay
  refine ⟨hcount, hstands.steps, ?_, ?_⟩
  · rw [((hasRoom_chain hfew id today).replay hreplay).1]
    exact Int.zero_add _
  · rw [hstands.status_eq (hsound.replay hreplay)]
    apply if_congr _ rfl rfl
    rw [List.drop_eq_nil_iff]
    omega

/-- A rejection after approvals of a submitted chain decides the first step of the next block. -/
theorem rejected_of_replay (hfew : s.approvers.length < Power.ofTwo 32) {approvals : List Ruling} {r : Ruling}
    {chain : Chain} (hreplay : (s.chain id today).replay? (approvals ++ [r]) = some chain)
    (happroved : ∀ a ∈ approvals, a.command.outcome = .approved)
    (hrejected : r.command.outcome = .rejected) : s.Rejected id approvals r chain := by
  have hversion := ((hasRoom_chain hfew id today).replay hreplay).1
  rw [Chain.replay?_append] at hreplay
  obtain ⟨middle, hmiddle, hlast⟩ := Option.bind_eq_some_iff.1 hreplay
  obtain ⟨-, hstands⟩ := stands_chain.replay happroved hmiddle
  rw [Chain.replay?_cons, Option.bind_eq_some_iff] at hlast
  obtain ⟨after, hrule, hnil⟩ := hlast
  rw [Chain.replay?_nil, Option.some.injEq] at hnil
  subst hnil
  obtain ⟨record, hdecide, rfl⟩ := Chain.rule?_eq_some_iff.1 hrule
  generalize hblocks : (s.blocks id).drop approvals.length = blocks at hstands
  match blocks, hstands with
  | [], hstands =>
    obtain ⟨cursor, hcursor, -⟩ := Chain.decide_eq_ok_iff.1 hdecide
    simp [hstands.cursor?_eq_none] at hcursor
  | [] :: _, hstands => cases hstands.blocks
  | (first :: tail) :: rest, hstands =>
    obtain ⟨hsteps, hstatus⟩ := hstands.reject hrejected hdecide
    refine ⟨⟨first, tail ++ rest.flatten, by rw [hblocks]; rfl, hsteps⟩, ?_, hstatus⟩
    rw [hversion, List.length_append]
    exact Int.zero_add _

/-- The first step of the next block has the approver that was submitted in its place. -/
theorem approver_of_blocks {k : Nat} {first : Step} {tail : List Step} {rest : List (List Step)}
    (hblocks : (s.blocks id).drop k = (first :: tail) :: rest) :
    ∃ approver, s.approvers[((s.blocks id).take k).flatten.length]? = some approver ∧
      first.approver = Text.trim approver := by
  have hsteps : s.steps id = ((s.blocks id).take k).flatten ++ first :: (tail ++ rest.flatten) := by
    calc
      s.steps id = ((s.blocks id).take k ++ (s.blocks id).drop k).flatten := by
        rw [List.take_append_drop]
        exact (List.flatten_splitBy _ _).symm
      _ = _ := by
        rw [List.flatten_append, hblocks]
        rfl
  have hfirst : (s.steps id)[((s.blocks id).take k).flatten.length]? = some first := by
    conv_lhs => rw [hsteps]
    simp
  rw [steps, List.getElem?_mapIdx, Option.map_eq_some_iff] at hfirst
  obtain ⟨approver, happrover, rfl⟩ := hfirst
  exact ⟨approver, happrover, rfl⟩

end Submission

end SignOff
