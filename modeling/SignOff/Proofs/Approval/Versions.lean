import Mathlib.Data.List.Perm.Subperm
import SignOff.Proofs.Approval.Replay
import SignOff.Proofs.Approval.Submitting

/-!
# Versions count rulings

A version has 64 bits, so it counts the rulings on a chain up to multiples of two to the power 64. Every ruling
decides a step that was open, so a chain takes no more rulings than it has open steps. Hence rulings do not lead
back to a version unless there are none, as long as there are fewer steps than that, and versions count them
exactly as long as there is room for all open steps below the greatest version.
-/

namespace SignOff

namespace Chain

variable {chain after : Chain} {rulings : List Ruling}

/-- The number of steps that have no decision yet. -/
def openCount (chain : Chain) : Nat := chain.steps.countP Step.isOpen

/-- The chain has fewer than two to the power 64 steps, as every list in a memory does. -/
def FitsMemory (chain : Chain) : Prop := chain.steps.length < Power.ofTwo 64

instance (chain : Chain) : Decidable chain.FitsMemory := inferInstanceAs (Decidable (_ < _))

/-! ## Every ruling decides an open step -/

/-- A decision leaves fewer open steps. -/
theorem openCount_lt_of_decide {command : Command} {pattern : String} {today : Date} {record : Record}
    (h : chain.decide command pattern today = .ok record) : record.chain.openCount < chain.openCount := by
  obtain ⟨cursor, hcursor, -, rfl⟩ := decide_eq_ok_iff.1 h
  obtain ⟨hsteps, hopen, -⟩ := Cursor.find?_eq_some hcursor
  have hafter : (command.cascade cursor.after).countP Step.isOpen +
      (cursor.after.drop (command.cascade cursor.after).length).countP Step.isOpen =
        cursor.after.countP Step.isOpen := by
    rw [← List.countP_append, command.cascade_append_drop]
  have hcovered : ((cursor.current :: command.cascade cursor.after).map
      fun s => s.decide (command.decision today)).countP Step.isOpen = 0 := by
    rw [List.countP_eq_zero]
    intro s hs
    obtain ⟨t, -, rfl⟩ := List.mem_map.1 hs
    simp
  simp only [openCount, recordAt_steps, hsteps, List.countP_append, hcovered, List.countP_cons_of_pos hopen]
  omega

/-- Rulings are no more than the open steps that they have decided. -/
theorem length_add_openCount_le_of_replay (hreplay : chain.replay? rulings = some after) :
    rulings.length + after.openCount ≤ chain.openCount := by
  induction rulings generalizing chain with
  | nil =>
    rw [replay?_nil, Option.some.injEq] at hreplay
    simp [hreplay]
  | cons r rest ih =>
    rw [replay?_cons] at hreplay
    obtain ⟨next, hnext, hrest⟩ := Option.bind_eq_some_iff.1 hreplay
    obtain ⟨record, hdecide, rfl⟩ := rule?_eq_some_iff.1 hnext
    have hstep := openCount_lt_of_decide hdecide
    have hrun := ih hrest
    rw [List.length_cons]
    omega

/-- A chain takes no more rulings than it has steps. -/
theorem length_le_of_replay (hreplay : chain.replay? rulings = some after) :
    rulings.length ≤ chain.steps.length := by
  have hcount := length_add_openCount_le_of_replay hreplay
  have hsteps : chain.openCount ≤ chain.steps.length := List.countP_le_length
  omega

/-- Rulings leave as many steps as there were. -/
theorem length_steps_of_replay (hreplay : chain.replay? rulings = some after) :
    after.steps.length = chain.steps.length := by
  simpa using congrArg List.length (steps_map_of_replay Step.sequence (fun _ _ => rfl) hreplay)

/-- Rulings leave a chain that fits a memory exactly where they found one. -/
theorem fitsMemory_of_replay (hreplay : chain.replay? rulings = some after) :
    after.FitsMemory ↔ chain.FitsMemory := by
  rw [FitsMemory, FitsMemory, length_steps_of_replay hreplay]

/-! ## Versions in 64 bits -/

/-- A decision leaves numbers of their sizes. -/
theorem Fits.decide (h : chain.Fits) {command : Command} {pattern : String} {today : Date} {record : Record}
    (hdecide : chain.decide command pattern today = .ok record) : record.chain.Fits := by
  refine ⟨?_, fun s hs => ?_⟩
  · rw [Application.Fits, version_of_decide hdecide]
    exact isInt64_wrapInt64 _
  · have hsequence := List.mem_map_of_mem (f := Step.sequence) hs
    rw [steps_map_of_decide Step.sequence (fun _ _ => rfl) hdecide] at hsequence
    obtain ⟨t, ht, hsame⟩ := List.mem_map.1 hsequence
    rw [Step.Fits, ← hsame]
    exact h.2 t ht

/-- Rulings leave numbers of their sizes. -/
theorem Fits.replay (h : chain.Fits) (hreplay : chain.replay? rulings = some after) : after.Fits :=
  replay?_induction (fun _ _ _ hfits hdecide => hfits.decide hdecide) h hreplay

/-- The version counts the rulings, in 64 bits. -/
theorem wrapInt64_version_of_replay (hreplay : chain.replay? rulings = some after) :
    wrapInt64 after.application.version = wrapInt64 (chain.application.version + rulings.length) := by
  induction rulings generalizing chain with
  | nil =>
    rw [replay?_nil, Option.some.injEq] at hreplay
    simp [hreplay]
  | cons r rest ih =>
    rw [replay?_cons] at hreplay
    obtain ⟨next, hnext, hrest⟩ := Option.bind_eq_some_iff.1 hreplay
    obtain ⟨record, hdecide, rfl⟩ := rule?_eq_some_iff.1 hnext
    rw [ih hrest, version_of_decide hdecide, Application.nextVersion, wrapInt64_add, List.length_cons]
    exact congrArg wrapInt64 (by omega)

/-- A chain that fits a memory takes rulings to another version, unless there are none. -/
theorem eq_nil_of_version (hmemory : chain.FitsMemory) (hreplay : chain.replay? rulings = some after)
    (hversion : after.application.version = chain.application.version) : rulings = [] := by
  have hcount := wrapInt64_version_of_replay hreplay
  rw [hversion] at hcount
  have hfew : rulings.length < Power.ofTwo 64 := Nat.lt_of_le_of_lt (length_le_of_replay hreplay) hmemory
  exact List.length_eq_zero_iff.1 (eq_zero_of_wrapInt64_add hfew hcount.symm)

/-- The difference of versions is the number of rulings, in 64 bits. -/
theorem Fits.wrapInt64_sub_of_replay (h : chain.Fits) (hreplay : chain.replay? rulings = some after)
    (hcount : IsInt64 rulings.length) :
    wrapInt64 (after.application.version - chain.application.version) = rulings.length := by
  rw [← wrapInt64_of_isInt64 (h.replay hreplay).1, wrapInt64_version_of_replay hreplay]
  exact wrapInt64_sub_of_add hcount

/-- As long as the sum fits, the version is greater by the number of rulings. -/
theorem Fits.version_of_replay (h : chain.Fits) (hreplay : chain.replay? rulings = some after)
    (hroom : chain.application.version + rulings.length ≤ Text.int64Greatest) :
    after.application.version = chain.application.version + rulings.length := by
  have hsum : IsInt64 (chain.application.version + rulings.length) :=
    ⟨Int.le_trans h.1.1 (Int.le_add_of_nonneg_right (Int.natCast_nonneg _)), hroom⟩
  rw [← wrapInt64_of_isInt64 (h.replay hreplay).1, wrapInt64_version_of_replay hreplay, wrapInt64_of_isInt64 hsum]

/-- In a sound chain sequences of 32 bits number all steps. -/
theorem Sound.length_steps_le (h : chain.Sound) (hfits : chain.Fits) : chain.steps.length ≤ Power.ofTwo 32 := by
  have hnodup : (chain.steps.map Step.sequence).Nodup :=
    List.Pairwise.map _ (fun _ _ hlt => Nat.ne_of_lt hlt) h.ordered
  have hnumbers : chain.steps.map Step.sequence ⊆ List.range (Power.ofTwo 32) := by
    intro n hn
    obtain ⟨s, hs, rfl⟩ := List.mem_map.1 hn
    exact List.mem_range.2 (Nat.lt_succ_of_le (hfits.2 s hs))
  simpa using (List.subperm_of_subset hnodup hnumbers).length_le

/-- A sound chain with sequences of 32 bits fits a memory. -/
theorem Sound.fitsMemory (h : chain.Sound) (hfits : chain.Fits) : chain.FitsMemory :=
  Nat.lt_of_le_of_lt (h.length_steps_le hfits) (by decide)

/-! ## Versions below the greatest one -/

/-- There is a version for each decision on an open step. -/
structure HasRoom (chain : Chain) : Prop where
  fits : chain.application.Fits
  room : chain.application.version + chain.openCount ≤ Text.int64Greatest

namespace HasRoom

/-- A decision in a chain with room raises the version by one and leaves room for the others. -/
theorem decide (h : chain.HasRoom) {command : Command} {pattern : String} {today : Date} {record : Record}
    (hdecide : chain.decide command pattern today = .ok record) :
    record.chain.application.version = chain.application.version + 1 ∧ record.chain.HasRoom := by
  have hcount := openCount_lt_of_decide hdecide
  have hroom := h.room
  have hversion : record.chain.application.version = chain.application.version + 1 := by
    rw [version_of_decide hdecide]
    exact Application.nextVersion_of_lt h.fits (by omega)
  refine ⟨hversion, ?_, ?_⟩
  · rw [Application.Fits, version_of_decide hdecide]
    exact isInt64_wrapInt64 _
  · rw [hversion]
    omega

/-- Rulings on a chain with room are counted by its version, and leave room for the others. -/
theorem replay (h : chain.HasRoom) (hreplay : chain.replay? rulings = some after) :
    after.application.version = chain.application.version + rulings.length ∧ after.HasRoom := by
  induction rulings generalizing chain with
  | nil =>
    rw [replay?_nil, Option.some.injEq] at hreplay
    subst hreplay
    exact ⟨by simp, h⟩
  | cons r rest ih =>
    rw [replay?_cons] at hreplay
    obtain ⟨next, hnext, hrest⟩ := Option.bind_eq_some_iff.1 hreplay
    obtain ⟨record, hdecide, rfl⟩ := rule?_eq_some_iff.1 hnext
    obtain ⟨hversion, hroom⟩ := h.decide hdecide
    obtain ⟨hlast, hleft⟩ := ih hroom hrest
    refine ⟨?_, hleft⟩
    rw [hlast, hversion, List.length_cons]
    omega

end HasRoom

/-! ## The order of chains -/

/-- Rulings lead from the earlier chain to the later one. -/
def Precedes (earlier later : Chain) : Prop := ∃ rulings, earlier.replay? rulings = some later

namespace Precedes

variable {earlier later : Chain}

/-- A chain precedes itself. -/
theorem refl (chain : Chain) : Precedes chain chain := ⟨[], replay?_nil chain⟩

/-- Rulings can follow one another. -/
theorem trans {first second third : Chain} (h : Precedes first second) (h' : Precedes second third) :
    Precedes first third := by
  obtain ⟨rulings, hreplay⟩ := h
  obtain ⟨rulings', hreplay'⟩ := h'
  exact ⟨rulings ++ rulings', by rw [replay?_append, hreplay]; exact hreplay'⟩

/-- Both chains are of one application. -/
theorem id_eq (h : Precedes earlier later) : later.application.id = earlier.application.id := by
  obtain ⟨rulings, hreplay⟩ := h
  exact id_of_replay hreplay

/-- Both chains fit a memory, or neither does. -/
theorem fitsMemory_iff (h : Precedes earlier later) : later.FitsMemory ↔ earlier.FitsMemory := by
  obtain ⟨rulings, hreplay⟩ := h
  exact fitsMemory_of_replay hreplay

/-- Chains in one version are the same. -/
theorem eq_of_version (h : Precedes earlier later) (hmemory : later.FitsMemory)
    (hversion : later.application.version = earlier.application.version) : earlier = later := by
  obtain ⟨rulings, hreplay⟩ := h
  obtain rfl := eq_nil_of_version ((fitsMemory_of_replay hreplay).1 hmemory) hreplay hversion
  exact Option.some.inj hreplay

/-- A chain between two chains in one version is the same as these. -/
theorem eq_of_between {first second third : Chain} (h : Precedes first second) (h' : Precedes second third)
    (hmemory : third.FitsMemory) (hversion : third.application.version = first.application.version) :
    second = third := by
  obtain ⟨rulings, hreplay⟩ := h
  obtain ⟨rulings', hreplay'⟩ := h'
  have hrun : first.replay? (rulings ++ rulings') = some third := by
    rw [replay?_append, hreplay]
    exact hreplay'
  have hnil := eq_nil_of_version ((fitsMemory_of_replay hrun).1 hmemory) hrun hversion
  obtain ⟨-, rfl⟩ := List.append_eq_nil_iff.1 hnil
  exact Option.some.inj hreplay'

end Precedes

end Chain

/-- There is a version for each decision on a submitted chain. -/
theorem Submission.hasRoom_chain {s : Submission} (hfew : s.approvers.length < Power.ofTwo 32) (id : String)
    (today : Date) : (s.chain id today).HasRoom := by
  have hcount : (s.chain id today).openCount ≤ (s.chain id today).steps.length := List.countP_le_length
  have hlength : (s.chain id today).steps.length = s.approvers.length := s.length_steps id
  have hgreatest : (Power.ofTwo 32 : Int) ≤ Text.int64Greatest := by decide
  refine ⟨(by decide : IsInt64 0), ?_⟩
  change (0 : Int) + _ ≤ _
  omega

/-- A submitted chain fits a memory. -/
theorem Submission.fitsMemory_chain {s : Submission} (hfew : s.approvers.length < Power.ofTwo 32) (id : String)
    (today : Date) : (s.chain id today).FitsMemory := by
  have hlength : (s.chain id today).steps.length = s.approvers.length := s.length_steps id
  rw [Chain.FitsMemory, hlength]
  exact Nat.lt_trans hfew (by decide)

/-- Every chain of the contents fits a memory. -/
def Contents.FitMemory (contents : Contents) : Prop :=
  ∀ id chain, contents id = some chain → chain.FitsMemory

/-- Rulings leave contents that fit a memory. -/
theorem Contents.FitMemory.replay {contents after : Contents} {rulings : List Ruling} (h : contents.FitMemory)
    (hreplay : contents.replay? rulings = some after) : after.FitMemory :=
  Contents.forall_of_replay (fun hfits hafter => (Chain.fitsMemory_of_replay hafter).2 hfits) h hreplay

end SignOff
