import SignOff.Proofs.Store.Preview

/-!
# What work in a unit keeps

A fresh unit takes over what its store has. Where loads leave that alone in a unit, and so do the records of
decisions on what the unit has loaded, and a commit gives back what the unit has, all work of the service keeps
it.
-/

namespace SignOff

open UnitStore

variable {σ υ : Type} [UnitStore σ υ]

/-- The unit of a batch is left as by its items. -/
theorem UnitStore.applyBatch_snd (pattern : String) (today : Date) (s : σ) (u : υ) (items : List DecisionRequest) :
    (applyBatch pattern today s u items).2 = (applyItems pattern today s u items).2 := by
  unfold applyBatch
  rcases applyItems pattern today s u items with ⟨_ | _, _⟩ <;> rfl

/-- What a store has passes to its units, stays there while they decide, and comes back with a commit. -/
structure UnitStore.Keeps (ofStore : σ → Prop) (ofUnit : υ → Prop) : Prop where
  openUnit {s : σ} {u : υ} : ofStore s → openUnit s = .ok u → ofUnit u
  load {s : σ} {u : υ} (id : String) : ofStore s → ofUnit u → ofUnit (load s u id).2
  store {s : σ} {u u' : υ} {command : Command} {pattern : String} {today : Date} {chain : Chain}
    {record : Record} : ofStore s → ofUnit u → UnitStore.load s u command.applicationId = (.ok (some chain), u') →
      chain.decide command pattern today = .ok record → ofUnit (store s u' record).2
  commit {s : σ} {u : υ} : ofStore s → ofUnit u → ofStore (commit s u).2

namespace UnitStore.Keeps

variable {ofStore : σ → Prop} {ofUnit : υ → Prop} (policy : Policy) (today : Date) {s : σ} {u : υ}

/-- A decision in a unit loads a chain and stores at most one record. -/
theorem recordDecision (h : Keeps ofStore ofUnit) (hs : ofStore s) (hu : ofUnit u) (command : Command) :
    ofUnit (UnitStore.recordDecision policy.dateFormat today s u command).2 := by
  have hloaded := h.load command.applicationId hs hu
  rcases hload : UnitStore.load s u command.applicationId with ⟨refusal | _ | chain, u'⟩ <;>
    rw [hload] at hloaded
  · simp only [UnitStore.recordDecision, compute, hload]
    exact hloaded
  · rw [recordDecision_of_load_none hload]
    exact hloaded
  · cases hdecide : chain.decide command policy.dateFormat today with
    | error refusal =>
      rw [recordDecision_of_decide_error hload hdecide]
      exact hloaded
    | ok record =>
      rw [recordDecision_of_decide_ok hload hdecide]
      exact h.store hs hu hload hdecide

/-- So do the items of a batch, one after another. -/
theorem applyItems (h : Keeps ofStore ofUnit) (hs : ofStore s) (hu : ofUnit u) (items : List DecisionRequest) :
    ofUnit (UnitStore.applyItems policy.dateFormat today s u items).2 := by
  induction items generalizing u with
  | nil => exact hu
  | cons item rest ih =>
    unfold UnitStore.applyItems applyItem
    cases item.command with
    | error refusal => exact hu
    | ok command =>
      have hdecision := h.recordDecision policy today hs hu command
      simp only
      rcases hrecorded : UnitStore.recordDecision policy.dateFormat today s u command with ⟨_ | record, u'⟩ <;>
        rw [hrecorded] at hdecision
      · exact hdecision
      · have hrest := ih hdecision
        simp only
        rcases happlied : UnitStore.applyItems policy.dateFormat today s u' rest with ⟨_ | results, u''⟩ <;>
        · rw [happlied] at hrest
          exact hrest

/-- Work in a unit of its own that leaves the unit with what it had leaves the store with it too. -/
theorem inUnit (h : Keeps ofStore ofUnit) (hs : ofStore s) {α : Type} {work : υ → Except Refusal α × υ}
    (hwork : ∀ u, ofUnit u → ofUnit (work u).2) : ofStore (UnitStore.inUnit s work).2 := by
  unfold UnitStore.inUnit
  cases hopen : UnitStore.openUnit s with
  | error refusal => exact hs
  | ok u =>
    have hworked := hwork u (h.openUnit hs hopen)
    simp only
    rcases hdone : work u with ⟨_ | answer, u'⟩ <;> rw [hdone] at hworked
    · exact hs
    · have hcommit := h.commit hs hworked
      simp only
      rcases hcommitted : UnitStore.commit s u' with ⟨_ | _, s'⟩ <;>
      · rw [hcommitted] at hcommit
        exact hcommit

/-- A single decision leaves the store with what it had. -/
theorem decide (h : Keeps ofStore ofUnit) (hs : ofStore s) (request : DecisionRequest) :
    ofStore (Service.decide policy today s request).2 := by
  unfold Service.decide
  cases request.command with
  | error refusal => exact hs
  | ok command => exact h.inUnit hs fun u hu => h.recordDecision policy today hs hu command

/-- A batch leaves the store with what it had. -/
theorem bulkDecide (h : Keeps ofStore ofUnit) (hs : ofStore s) (items : List DecisionRequest) :
    ofStore (Service.bulkDecide policy today s items).2 := by
  unfold Service.bulkDecide
  split
  · exact hs
  · split
    · exact hs
    · refine h.inUnit hs fun u hu => ?_
      rw [applyBatch_snd]
      exact h.applyItems policy today hs hu items

end UnitStore.Keeps

end SignOff
