import SignOff.Approval.Submission
import SignOff.Proofs.Approval.Soundness

/-!
# Submitted chains

A submission becomes a chain of open steps, numbered from one as long as 32 bits hold the numbers, of
which the last is final. With at least one approver that chain is sound.
-/

namespace SignOff.Submission

variable {s : Submission} {id : String} {today : Date}

/-- The chain that a submission becomes as the application `id`. -/
def chain (s : Submission) (id : String) (today : Date) : Chain := ⟨s.header id today, s.steps id⟩

/-- The steps of fewer approvers than 32 bits number are numbered from one. -/
theorem sequences_steps (hfew : s.approvers.length < Power.ofTwo 32) :
    (s.steps id).map Step.sequence = List.range' 1 s.approvers.length := by
  apply List.ext_getElem (by simp [length_steps])
  intro i hi _
  rw [List.length_map, length_steps] at hi
  have hnumber : (i + 1) % Power.ofTwo 32 = i + 1 := Nat.mod_eq_of_lt (Nat.lt_of_le_of_lt hi hfew)
  simp only [steps, List.getElem_map, List.getElem_mapIdx, step, hnumber, List.getElem_range']
  omega

/-- The steps of fewer approvers than 32 bits number, one for each approver in order. -/
theorem steps_eq (hfew : s.approvers.length < Power.ofTwo 32) :
    s.steps id = s.approvers.mapIdx fun i approver =>
      ⟨id, i + 1, Text.trim approver, none, i + 1 = s.approvers.length⟩ := by
  refine List.mapIdx_eq_mapIdx_iff.2 fun i hi => ?_
  rw [step, Nat.mod_eq_of_lt (Nat.lt_of_le_of_lt hi hfew)]

/-- The steps have the approvers of the submission, without white space around their ids. -/
theorem approvers_steps (s : Submission) (id : String) :
    (s.steps id).map Step.approver = s.approvers.map Text.trim := by
  apply List.ext_getElem (by simp [length_steps])
  intro i hi _
  simp only [steps, List.getElem_map, List.getElem_mapIdx, step]

/-- A step is numbered zero exactly when there are more approvers than 32 bits number. -/
theorem any_sequence_eq_zero (s : Submission) (id : String) :
    ((s.steps id).any fun step => step.sequence = 0) = false ↔ s.approvers.length < Power.ofTwo 32 := by
  rw [List.any_eq_false]
  constructor
  · intro h
    by_contra hmany
    have hpos := Power.ofTwo_pos 32
    have hlast : Power.ofTwo 32 - 1 < (s.steps id).length := by
      rw [length_steps]
      omega
    apply h _ (List.getElem_mem hlast)
    simp only [steps, List.getElem_mapIdx, step, Nat.sub_add_cancel hpos, Nat.mod_self, decide_true]
  · intro hfew step hstep hzero
    have hsequence := List.mem_map_of_mem (f := Step.sequence) hstep
    rw [sequences_steps hfew, List.mem_range', of_decide_eq_true hzero] at hsequence
    obtain ⟨i, -, hi⟩ := hsequence
    omega

/-- All steps of a submission are open and belong to its application. -/
theorem of_mem_steps {step : Step} (h : step ∈ s.steps id) :
    step.isOpen = true ∧ step.applicationId = id := by
  obtain ⟨i, hi, rfl⟩ := List.mem_mapIdx.1 h
  exact ⟨rfl, rfl⟩

/-- A submission that passes its check has an approver, and none is blank. -/
theorem approvers_of_validate (h : s.validate = .ok ()) :
    s.approvers ≠ [] ∧ ∀ approver ∈ s.approvers, Text.blank approver = false := by
  have hflaw : s.flaw? = none := by
    unfold validate at h
    cases hflaw : s.flaw? with
    | none => rfl
    | some flaw => simp [hflaw] at h
  by_cases hrequester : Text.blank s.requester = true
  · rw [flaw?, if_pos hrequester] at hflaw
    contradiction
  by_cases hempty : s.approvers.isEmpty = true
  · rw [flaw?, if_neg hrequester, if_pos hempty] at hflaw
    contradiction
  by_cases hblank : s.approvers.any Text.blank = true
  · rw [flaw?, if_neg hrequester, if_neg hempty, if_pos hblank] at hflaw
    contradiction
  exact ⟨by simpa using hempty, by simpa using hblank⟩

/-- The chain of a valid submission is sound. -/
theorem sound_chain (happrovers : s.approvers ≠ []) (hfew : s.approvers.length < Power.ofTwo 32) :
    (s.chain id today).Sound := by
  have hopen : ∀ step ∈ s.steps id, step.isOpen = true := fun _ h => (of_mem_steps h).1
  have hne : s.steps id ≠ [] := by
    rw [← List.length_pos_iff, length_steps, List.length_pos_iff]
    exact happrovers
  have hsplit : (s.chain id today).steps = [] ++ s.steps id := rfl
  have hstatus : (s.chain id today).application.status =
      if s.steps id = [] then .approved else .pending := by
    rw [if_neg hne]
    rfl
  have hiffs := Chain.status_iffs_of_split hsplit (by simp) hopen hstatus
  refine ⟨?_, fun i hi => ?_, ⟨[], [], s.steps id, rfl, by simp, by simp, by simp, hopen⟩, hiffs.1,
    hiffs.2.1, hiffs.2.2⟩
  · rw [← List.pairwise_map (f := Step.sequence) (R := (· < ·))]
    change ((s.steps id).map Step.sequence).Pairwise _
    rw [sequences_steps hfew]
    exact List.pairwise_lt_range'
  · simp [chain, steps, step]

end SignOff.Submission
