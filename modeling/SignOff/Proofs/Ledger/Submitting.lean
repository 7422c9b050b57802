import SignOff.Ledger.Register
import SignOff.Proofs.Approval.Submitting
import SignOff.Proofs.Ledger.Reading

/-!
# Submissions in the ledger

A submission is taken exactly when it is valid, its application is new and 32 bits number its steps. What
is read afterwards under its id is the chain of the submission, and everything else is read as before.
-/

namespace SignOff.Ledger

namespace Tables

variable {t : Tables} {id : String} {s : Submission} {today : Date}

/-- A submission adds its header. -/
theorem header?_submit (hnew : t.header? id = none) (other : String) :
    (t.submit id s today).header? other =
      if other = id then some (HeaderRow.ofApplication (s.header id today)) else t.header? other := by
  unfold header? at hnew ⊢
  rw [submit, List.find?_append]
  by_cases h : other = id
  · subst h
    rw [hnew, if_pos rfl]
    simp [HeaderRow.ofApplication, Submission.header]
  · have hne : id ≠ other := Ne.symm h
    rw [if_neg h]
    simp [HeaderRow.ofApplication, Submission.header, hne]

/-- A submission adds its steps, in their order. -/
theorem stepsOf_submit (hwf : t.WellFormed) (hnew : t.header? id = none)
    (hfew : s.approvers.length < Power.ofTwo 32) (other : String) :
    (t.submit id s today).stepsOf other =
      if other = id then (s.steps id).map StepRow.ofStep else t.stepsOf other := by
  have hrows : ∀ row ∈ (s.steps id).map StepRow.ofStep, row.applicationId = id := by
    intro row hrow
    obtain ⟨step, hstep, rfl⟩ := List.mem_map.1 hrow
    exact (Submission.of_mem_steps hstep).2
  unfold stepsOf
  rw [submit, List.filter_append]
  by_cases h : other = id
  · subst h
    have hold : (t.steps.filter fun row => row.applicationId = other) = [] := by
      rw [List.filter_eq_nil_iff]
      intro row hrow hid
      rw [decide_eq_true_eq] at hid
      exact header?_eq_none_iff.1 hnew (hid ▸ hwf.2.2.2.1 row hrow)
    rw [hold, List.nil_append, List.filter_eq_self.2 fun row hrow => by simpa using hrows row hrow,
      if_pos rfl]
    apply List.mergeSort_of_pairwise
    apply List.pairwise_map.2
    have hordered : ((s.steps other).map Step.sequence).Pairwise (· < ·) := by
      rw [Submission.sequences_steps hfew]
      exact List.pairwise_lt_range'
    apply (List.pairwise_map.1 hordered).imp
    intro a b hlt
    simp [StepRow.ofStep, Cell.precedes]
    omega
  · have hnone : ((s.steps id).map StepRow.ofStep).filter (fun row => row.applicationId = other) = [] := by
      rw [List.filter_eq_nil_iff]
      intro row hrow hid
      rw [decide_eq_true_eq] at hid
      exact h (hid.symm.trans (hrows row hrow))
    rw [hnone, List.append_nil, if_neg h]

/-- What is read after a submission. -/
theorem chain?_submit (hwf : t.WellFormed) (hnew : t.header? id = none)
    (hfew : s.approvers.length < Power.ofTwo 32) (other : String) :
    (t.submit id s today).chain? other =
      if other = id then .ok (some (s.chain id today)) else t.chain? other := by
  by_cases h : other = id
  · rw [if_pos h, chain?_eq_some_iff]
    refine ⟨HeaderRow.ofApplication (s.header id today), ?_, HeaderRow.application_ofApplication _, ?_⟩
    · rw [header?_submit hnew, if_pos h]
    · rw [stepsOf_submit hwf hnew hfew, if_pos h, List.forall₂_map_left_iff]
      apply List.forall₂_same.2
      intro step hstep
      apply StepRow.step_ofStep
      obtain ⟨i, hi, rfl⟩ := List.mem_mapIdx.1 hstep
      exact Nat.le_of_lt_succ (Nat.mod_lt _ (Power.ofTwo_pos 32))
  · rw [if_neg h, chain?, chain?, header?_submit hnew, stepsOf_submit hwf hnew hfew, if_neg h, if_neg h]

/-- A submission keeps the tables well-formed. -/
theorem wellFormed_submit (hwf : t.WellFormed) (hnew : t.header? id = none)
    (hfew : s.approvers.length < Power.ofTwo 32) : (t.submit id s today).WellFormed := by
  obtain ⟨hheaders, hsteps, hpositive, howner, hlinks⟩ := hwf
  have hid : id ∉ t.headers.map HeaderRow.id := header?_eq_none_iff.1 hnew
  have hids : (t.submit id s today).headers.map HeaderRow.id = t.headers.map HeaderRow.id ++ [id] := by
    simp [submit, HeaderRow.ofApplication, Submission.header]
  have hrows : ∀ row ∈ (s.steps id).map StepRow.ofStep, row.applicationId = id ∧
      row.sequence.isPositive = true := by
    intro row hrow
    obtain ⟨step, hstep, rfl⟩ := List.mem_map.1 hrow
    refine ⟨(Submission.of_mem_steps hstep).2, ?_⟩
    have hsequence := List.mem_map_of_mem (f := Step.sequence) hstep
    rw [Submission.sequences_steps hfew, List.mem_range'] at hsequence
    obtain ⟨i, -, hi⟩ := hsequence
    simp only [StepRow.ofStep, Cell.isPositive, hi, decide_eq_true_eq]
    omega
  have hkeys : (((s.steps id).map StepRow.ofStep).map fun row => (row.applicationId, row.sequence)) =
      ((s.steps id).map Step.sequence).map fun n : Nat => (id, Cell.whole n) := by
    rw [List.map_map, List.map_map]
    apply List.map_congr_left
    intro step hstep
    simp [StepRow.ofStep, (Submission.of_mem_steps hstep).2]
  refine ⟨?_, ?_, ?_, ?_, ?_⟩
  · rw [hids, List.nodup_append]
    exact ⟨hheaders, by simp, fun a ha b hb heq => hid (by simp_all)⟩
  · rw [submit, List.map_append, List.nodup_append, hkeys, Submission.sequences_steps hfew]
    refine ⟨hsteps, ?_, ?_⟩
    · refine List.Nodup.map (fun m n heq => ?_) (List.nodup_range' 1)
      exact Int.natCast_inj.1 (Cell.whole.inj (Prod.mk.inj heq).2)
    · intro key hold other hnew heq
      subst heq
      obtain ⟨row, hrow, rfl⟩ := List.mem_map.1 hold
      obtain ⟨n, -, heq⟩ := List.mem_map.1 hnew
      exact hid ((Prod.mk.inj heq).1 ▸ howner row hrow)
  · intro row hrow
    rcases List.mem_append.1 hrow with hrow | hrow
    · exact hpositive row hrow
    · exact (hrows row hrow).2
  · intro row hrow
    rw [hids]
    rcases List.mem_append.1 hrow with hrow | hrow
    · exact List.mem_append_left _ (howner row hrow)
    · exact List.mem_append_right _ (by simp [(hrows row hrow).1])
  · intro row hrow
    rw [hids]
    rcases List.mem_append.1 hrow with hrow | hrow
    · exact List.mem_append_left _ (hlinks row hrow)
    · apply List.mem_append_right
      cases horigin : s.origin with
      | none => simp [horigin] at hrow
      | some origin =>
        simp only [horigin, Option.map_some, Option.toList_some, List.mem_singleton] at hrow
        simp [hrow]

end Tables

/-- What it takes for a submission to be taken. -/
structure Takes (ledger : Ledger) (id : String) (s : Submission) : Prop where
  valid : s.validate = .ok ()
  isOpen : ledger.isOpen = true
  isNew : ledger.tables.header? id = none
  few : s.approvers.length < Power.ofTwo 32

/-- A submission that fits is taken. -/
theorem submit_of_takes {ledger : Ledger} {id : String} {s : Submission} (h : ledger.Takes id s)
    (today : Date) :
    ledger.submit id s today = (.ok (), { ledger with tables := ledger.tables.submit id s today }) := by
  simp [submit, h.valid, openTables, h.isOpen, h.isNew, (s.any_sequence_eq_zero id).2 h.few]

/-- A submission that does not fit is refused and leaves the ledger as it is. -/
theorem submit_of_not_takes {ledger : Ledger} {id : String} {s : Submission} (h : ¬ledger.Takes id s)
    (today : Date) : ∃ refusal, ledger.submit id s today = (.error refusal, ledger) := by
  cases hvalid : s.validate with
  | error refusal => exact ⟨refusal, by simp [submit, hvalid]⟩
  | ok =>
    cases hopen : ledger.isOpen with
    | false => exact ⟨closedRefusal, by simp [submit, hvalid, openTables, hopen]⟩
    | true =>
      cases hnew : ledger.tables.header? id with
      | some header =>
        refine ⟨constraintRefusal 1555 "UNIQUE constraint failed: application.id", ?_⟩
        simp [submit, hvalid, openTables, hopen, hnew]
      | none =>
        have hmany : ((s.steps id).any fun step => step.sequence = 0) = true := by
          rw [← Bool.not_eq_false]
          exact fun hfew => h ⟨hvalid, hopen, hnew, (s.any_sequence_eq_zero id).1 hfew⟩
        refine ⟨constraintRefusal 275 "CHECK constraint failed: sequence >= 1", ?_⟩
        simp [submit, hvalid, openTables, hopen, hnew, hmany]

end SignOff.Ledger
