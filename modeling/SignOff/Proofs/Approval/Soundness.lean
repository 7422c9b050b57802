import SignOff.Proofs.Approval.Deciding

/-!
# Sound chains

A chain is sound when its steps are in the order of their sequences with only the last one final, when
the decided steps are approvals from the first step on with at most one rejection after them, and when
the status says what the steps say. The status that a decision gives looks at one final flag only. It is
right because the steps after the current one are all open in a sound chain, so a decision keeps
soundness.
-/

namespace SignOff

/-- Approved steps, then at most one rejected step, then open ones. -/
def Step.Progress (steps : List Step) : Prop :=
  ∃ approved rejected undecided, steps = approved ++ rejected ++ undecided ∧
    (∀ s ∈ approved, s.isApproved = true) ∧
    (∀ s ∈ rejected, s.isRejected = true) ∧ rejected.length ≤ 1 ∧
    ∀ s ∈ undecided, s.isOpen = true

/-- What holds of a chain from its submission on. -/
structure Chain.Sound (chain : Chain) : Prop where
  /-- The sequences increase strictly. -/
  ordered : chain.steps.Pairwise fun a b => a.sequence < b.sequence
  /-- The last step is final and no other one. -/
  final_last : ∀ i (h : i < chain.steps.length),
    chain.steps[i].isFinal = true ↔ i + 1 = chain.steps.length
  progress : Step.Progress chain.steps
  rejected_iff : chain.application.status = .rejected ↔ ∃ s ∈ chain.steps, s.isRejected = true
  approved_iff : chain.application.status = .approved ↔ ∀ s ∈ chain.steps, s.isApproved = true
  pending_iff : chain.application.status = .pending ↔ chain.currentIndex?.isSome = true

/-- A cursor in steps that have made progress stands on the first open one, and all after it are open. -/
theorem Step.Progress.open_after {steps : List Step} {c : Cursor} (h : Step.Progress steps)
    (hc : Cursor.find? steps = some c) : ∀ s ∈ c.after, s.isOpen = true := by
  obtain ⟨approved, rejected, undecided, rfl, happroved, hrejected, hone, hopen⟩ := h
  rw [List.append_assoc, Cursor.find?_append_of_approved happroved] at hc
  obtain ⟨c', hc', rfl⟩ := Option.map_eq_some_iff.1 hc
  cases rejected with
  | cons r rest =>
    have hnone : Cursor.find? (r :: rest ++ undecided) = none :=
      Cursor.find?_eq_none_iff.2
        (Or.inr ⟨[], r, rest ++ undecided, rfl, by simp, hrejected r (by simp)⟩)
    rw [hnone] at hc'
    contradiction
  | nil =>
    cases undecided with
    | nil => simp [Cursor.find?] at hc'
    | cons u rest =>
      have hu : u.isOpen = true := hopen u (by simp)
      simp only [List.nil_append, Cursor.find?, hu, if_true, Option.some.injEq] at hc'
      subst hc'
      exact fun s hs => hopen s (by simp [hs])

namespace Chain

variable {chain : Chain} {command : Command} {pattern : String} {today : Date} {record : Record}

/-- A step of a sound chain is final exactly when none comes after it. -/
theorem Sound.isFinal_iff (h : chain.Sound) {front : List Step} {s : Step} {rest : List Step}
    (hsteps : chain.steps = front ++ s :: rest) : s.isFinal = true ↔ rest = [] := by
  have hlast := h.final_last front.length (by simp [hsteps])
  simp only [hsteps, List.getElem_append_right (Nat.le_refl _), Nat.sub_self,
    List.getElem_cons_zero] at hlast
  rw [hlast]
  simp

/-- The last step that a decision covers is final exactly when the chain has no step after it. -/
theorem Sound.covered_isFinal_iff (h : chain.Sound) {cursor : Cursor}
    (hsteps : chain.steps = cursor.before ++ cursor.current :: cursor.after) (command : Command) :
    ((command.cascade cursor.after).getLastD cursor.current).isFinal = true ↔
      cursor.after.drop (command.cascade cursor.after).length = [] := by
  let covered := cursor.current :: command.cascade cursor.after
  have hcovered : covered.dropLast ++ [(command.cascade cursor.after).getLastD cursor.current] =
      covered := by
    rw [← List.getLast_eq_getLastD (List.cons_ne_nil _ _)]
    exact List.dropLast_concat_getLast (List.cons_ne_nil _ _)
  have hsplit : chain.steps = (cursor.before ++ covered.dropLast) ++
      (command.cascade cursor.after).getLastD cursor.current ::
        cursor.after.drop (command.cascade cursor.after).length := by
    calc
      chain.steps = cursor.before ++ cursor.current :: (command.cascade cursor.after ++
          cursor.after.drop (command.cascade cursor.after).length) := by
            rw [command.cascade_append_drop, hsteps]
      _ = cursor.before ++ (covered ++ cursor.after.drop (command.cascade cursor.after).length) := rfl
      _ = _ := by
            rw [← hcovered]
            simp [covered]
  exact h.isFinal_iff hsplit

/-- A decision keeps the steps in order. -/
theorem Sound.ordered_of_decide (h : chain.Sound)
    (hd : chain.decide command pattern today = .ok record) :
    record.chain.steps.Pairwise fun a b => a.sequence < b.sequence := by
  have hmap := steps_map_of_decide Step.sequence (fun _ _ => rfl) hd
  rw [← List.pairwise_map (f := Step.sequence) (R := (· < ·)), hmap, List.pairwise_map]
  exact h.ordered

/-- A decision leaves the last step final and no other one. -/
theorem Sound.final_last_of_decide (h : chain.Sound)
    (hd : chain.decide command pattern today = .ok record) :
    ∀ i (hi : i < record.chain.steps.length),
      record.chain.steps[i].isFinal = true ↔ i + 1 = record.chain.steps.length := by
  intro i hi
  have hmap := steps_map_of_decide Step.isFinal (fun _ _ => rfl) hd
  have hlength : record.chain.steps.length = chain.steps.length := by
    simpa using congrArg List.length hmap
  have hi' : i < chain.steps.length := hlength ▸ hi
  have hflag : record.chain.steps[i].isFinal = chain.steps[i].isFinal := by
    simpa [List.getElem?_eq_getElem hi, List.getElem?_eq_getElem hi'] using
      congrArg (fun flags => flags[i]?) hmap
  rw [hflag, hlength]
  exact h.final_last i hi'

/-- A sound chain with a current step is pending. -/
theorem Sound.pending_of_cursor (h : chain.Sound) {cursor : Cursor}
    (hcursor : chain.cursor? = some cursor) : chain.application.status = .pending :=
  h.pending_iff.2 (by simp [currentIndex?, hcursor])

/-- The status of approved steps followed by open ones is settled by whether there are open ones. -/
theorem status_iffs_of_split {chain : Chain} {approved undecided : List Step}
    (hsteps : chain.steps = approved ++ undecided)
    (happroved : ∀ s ∈ approved, s.isApproved = true) (hopen : ∀ s ∈ undecided, s.isOpen = true)
    (hstatus : chain.application.status = if undecided = [] then .approved else .pending) :
    (chain.application.status = .rejected ↔ ∃ s ∈ chain.steps, s.isRejected = true) ∧
      (chain.application.status = .approved ↔ ∀ s ∈ chain.steps, s.isApproved = true) ∧
      (chain.application.status = .pending ↔ chain.currentIndex?.isSome = true) := by
  have hno : ¬∃ s ∈ chain.steps, s.isRejected = true := by
    intro hrejected
    obtain ⟨s, hs, hr⟩ := hrejected
    rw [hsteps] at hs
    rcases List.mem_append.1 hs with hs | hs
    · simp [Step.isRejected_of_isApproved (happroved s hs)] at hr
    · simp [Step.isRejected_of_isOpen (hopen s hs)] at hr
  have hfind := Cursor.find?_append_of_approved happroved undecided
  cases undecided with
  | nil =>
    have hall : ∀ s ∈ chain.steps, s.isApproved = true := by simpa [hsteps] using happroved
    have hnone : chain.cursor? = none := by simpa [cursor?, hsteps, Cursor.find?] using hfind
    simpa [hstatus, hno, currentIndex?, hnone] using hall
  | cons u rest =>
    have hu : u.isOpen = true := hopen u (by simp)
    have hnot : ¬∀ s ∈ chain.steps, s.isApproved = true := fun hall => by
      simpa [Step.isApproved_of_isOpen hu] using hall u (by simp [hsteps])
    have hsome : chain.cursor? = some ⟨approved, u, rest⟩ := by
      simpa [cursor?, hsteps, Cursor.find?, hu] using hfind
    simp [hstatus, hnot, hno, currentIndex?, hsome]

/-- The status of a chain with a rejected step after approved ones only. -/
theorem status_iffs_of_rejected {chain : Chain} {approved : List Step} {s : Step} {rest : List Step}
    (hsteps : chain.steps = approved ++ s :: rest)
    (happroved : ∀ t ∈ approved, t.isApproved = true) (hs : s.isRejected = true)
    (hstatus : chain.application.status = .rejected) :
    (chain.application.status = .rejected ↔ ∃ s ∈ chain.steps, s.isRejected = true) ∧
      (chain.application.status = .approved ↔ ∀ s ∈ chain.steps, s.isApproved = true) ∧
      (chain.application.status = .pending ↔ chain.currentIndex?.isSome = true) := by
  have hmem : s ∈ chain.steps := by simp [hsteps]
  have hnot : ¬∀ s ∈ chain.steps, s.isApproved = true := fun hall => by
    simp [Step.isRejected_of_isApproved (hall s hmem)] at hs
  have hnone : chain.cursor? = none :=
    Cursor.find?_eq_none_iff.2 (Or.inr ⟨approved, s, rest, hsteps, happroved, hs⟩)
  refine ⟨by simpa [hstatus] using ⟨s, hmem, hs⟩, by simp [hstatus, hnot], ?_⟩
  simp [hstatus, currentIndex?, hnone]

/-- An approval keeps a chain sound. -/
theorem Sound.approve (h : chain.Sound) {cursor : Cursor} (hcursor : chain.cursor? = some cursor)
    (houtcome : command.outcome = .approved)
    (hdecide : chain.decide command pattern today = .ok (chain.recordAt cursor command pattern today)) :
    (chain.recordAt cursor command pattern today).chain.Sound := by
  obtain ⟨hsteps, -, hbefore⟩ := Cursor.find?_eq_some hcursor
  let undecided := cursor.after.drop (command.cascade cursor.after).length
  let approved := cursor.before ++ (cursor.current :: command.cascade cursor.after).map
    fun s => s.decide (command.decision today)
  have hopen : ∀ s ∈ undecided, s.isOpen = true := fun s hs =>
    h.progress.open_after hcursor s (List.mem_of_mem_drop hs)
  have happroved : ∀ s ∈ approved, s.isApproved = true := by
    intro s hs
    rcases List.mem_append.1 hs with hs | hs
    · exact hbefore s hs
    · obtain ⟨t, -, rfl⟩ := List.mem_map.1 hs
      exact (Step.isApproved_decide _ _).2 houtcome
  have hstatus : (chain.recordAt cursor command pattern today).chain.application.status =
      if undecided = [] then .approved else .pending := by
    rw [recordAt_status, h.pending_of_cursor hcursor, Command.statusAfter, houtcome]
    exact if_congr (h.covered_isFinal_iff hsteps command) rfl rfl
  have hiffs := status_iffs_of_split (recordAt_steps ..) happroved hopen hstatus
  exact {
    ordered := h.ordered_of_decide hdecide
    final_last := h.final_last_of_decide hdecide
    progress := ⟨approved, [], undecided, by simp [approved, undecided], happroved, by simp,
      by simp, hopen⟩
    rejected_iff := hiffs.1
    approved_iff := hiffs.2.1
    pending_iff := hiffs.2.2 }

/-- A rejection keeps a chain sound. -/
theorem Sound.reject (h : chain.Sound) {cursor : Cursor} (hcursor : chain.cursor? = some cursor)
    (houtcome : command.outcome = .rejected)
    (hdecide : chain.decide command pattern today = .ok (chain.recordAt cursor command pattern today)) :
    (chain.recordAt cursor command pattern today).chain.Sound := by
  obtain ⟨-, -, hbefore⟩ := Cursor.find?_eq_some hcursor
  let rejected := cursor.current.decide (command.decision today)
  have hrejected : rejected.isRejected = true := (Step.isRejected_decide _ _).2 houtcome
  have hsteps : (chain.recordAt cursor command pattern today).chain.steps =
      cursor.before ++ rejected :: cursor.after := by
    simp [Command.cascade, houtcome, rejected]
  have hstatus : (chain.recordAt cursor command pattern today).chain.application.status =
      .rejected := by
    rw [recordAt_status, Command.statusAfter, houtcome]
  have hiffs := status_iffs_of_rejected hsteps hbefore hrejected hstatus
  exact {
    ordered := h.ordered_of_decide hdecide
    final_last := h.final_last_of_decide hdecide
    progress := ⟨cursor.before, [rejected], cursor.after, by rw [hsteps, List.append_assoc]; rfl, hbefore,
      by simp [hrejected], by simp, h.progress.open_after hcursor⟩
    rejected_iff := hiffs.1
    approved_iff := hiffs.2.1
    pending_iff := hiffs.2.2 }

/-- A decision keeps a chain sound. -/
theorem Sound.decide (h : chain.Sound) (hd : chain.decide command pattern today = .ok record) :
    record.chain.Sound := by
  obtain ⟨cursor, hcursor, -, rfl⟩ := decide_eq_ok_iff.1 hd
  cases houtcome : command.outcome with
  | approved => exact h.approve hcursor houtcome hd
  | rejected => exact h.reject hcursor houtcome hd

end Chain

end SignOff
