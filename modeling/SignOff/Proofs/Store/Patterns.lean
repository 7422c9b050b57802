import SignOff.Proofs.Ledger.Office

/-!
# One date format

Under one policy all rulings that are carried out have its date format, be they committed or still in an
open unit. So do the committed rulings of an office.
-/

namespace SignOff

/-- The requests of a batch become rulings with the date format of the policy. -/
theorem pattern_of_mem_rulingsOf {policy : Policy} {today : Date} {items : List DecisionRequest} {r : Ruling}
    (h : r ∈ rulingsOf policy today items) : r.pattern = policy.dateFormat := by
  obtain ⟨item, -, hr⟩ := List.mem_filterMap.1 h
  obtain ⟨command, -, rfl⟩ := Option.map_eq_some_iff.1 hr
  rfl

/-- A batch in a unit carries out rulings with the date format of the policy. -/
theorem pattern_of_mem_appliedRulings {σ υ : Type} [UnitStore σ υ] {policy : Policy} {today : Date} {s : σ}
    {u : υ}
    {items : List DecisionRequest} {r : Ruling} (h : r ∈ appliedRulings policy today s u items) :
    r.pattern = policy.dateFormat := by
  induction items generalizing u with
  | nil => simp [appliedRulings] at h
  | cons item rest ih =>
    unfold appliedRulings at h
    split at h
    · simp at h
    · split at h
      · simp at h
      · rcases List.mem_cons.1 h with rfl | hrest
        · rfl
        · exact ih hrest

namespace Desk

variable {σ υ : Type} [UnitStore σ υ] [SideBySide σ]

/-- All rulings at a desk have the pattern. -/
structure OfPattern (pattern : String) (desk : Desk σ υ) : Prop where
  committed : ∀ r ∈ desk.committed, r.pattern = pattern
  units : ∀ name w, desk.units.lookup name = some (some w) → ∀ r ∈ w.rulings, r.pattern = pattern

namespace OfPattern

variable {pattern : String} {desk : Desk σ υ}

omit [UnitStore σ υ] [SideBySide σ] in
/-- Nobody has carried out a ruling at the desk of a new store. -/
theorem ofStore (pattern : String) (store : σ) : OfPattern pattern (Desk.ofStore store : Desk σ υ) :=
  ⟨by simp [Desk.ofStore], by simp [Desk.ofStore]⟩

omit [UnitStore σ υ] [SideBySide σ] in
/-- Closing a unit keeps the patterns. -/
theorem close (h : desk.OfPattern pattern) (name : String) : (desk.close name).OfPattern pattern :=
  ⟨h.committed, fun other w hother => h.units other w (Entries.lookup_of_filter_ne hother)⟩

omit [SideBySide σ] in
/-- The rulings of a unit have the pattern. -/
theorem of_work? (h : desk.OfPattern pattern) {name : String} {w : Work υ} (hwork : desk.work? name = some w) :
    ∀ r ∈ w.rulings, r.pattern = pattern := by
  rcases work?_cases hwork with hname | ⟨u, -, rfl⟩
  · exact h.units name w hname
  · simp

omit [SideBySide σ] in
/-- Work in a unit keeps the pattern if the rulings that it adds have it. -/
theorem workOn (h : desk.OfPattern pattern) (name : String) {work : Work υ → Work υ}
    (hwork : ∀ w, (∀ r ∈ w.rulings, r.pattern = pattern) → ∀ r ∈ (work w).rulings, r.pattern = pattern) :
    (desk.workOn name work).OfPattern pattern := by
  rcases workOn_cases desk name work with hsame | ⟨w, hname, -, hworked⟩
  · rwa [hsame]
  · rw [hworked]
    refine ⟨h.committed, fun other w' hother => ?_⟩
    rcases Entries.lookup_of_put hother with hwritten | hother
    · cases hwritten
      exact hwork w (h.of_work? hname)
    · exact h.units other w' hother

omit [UnitStore σ υ] in
/-- Overtaking all units keeps the patterns. -/
theorem overtake (h : desk.OfPattern pattern) : desk.overtake.OfPattern pattern := by
  refine ⟨?_, fun name w hname => ?_⟩
  · unfold Desk.overtake
    split <;> exact h.committed
  · obtain ⟨before, hbefore, -, hrulings, -⟩ := lookup_of_overtake hname
    exact hrulings ▸ h.units name before hbefore

omit [UnitStore σ υ] in
/-- An answer keeps the pattern if the rulings that it commits have it. -/
theorem answered (h : desk.OfPattern pattern) {α : Type} {rulings : List Ruling}
    (hrulings : ∀ r ∈ rulings, r.pattern = pattern) (result : Except Refusal α × σ) :
    (desk.answered rulings result).OfPattern pattern := by
  rcases result with ⟨_ | _, store⟩
  · exact ⟨h.committed, h.units⟩
  · refine ⟨fun r hr => (List.mem_append.1 hr).elim (h.committed r) (hrulings r), ?_⟩
    cases rulings with
    | nil => exact h.units
    | cons r rest => exact h.overtake.units

/-- Whatever is asked of a desk under a policy keeps its date format. -/
theorem step {policy : Policy} (h : desk.OfPattern policy.dateFormat) (op : Op) :
    (desk.step policy op).OfPattern policy.dateFormat := by
  cases op with
  | decide today request => exact h.answered (fun _ => pattern_of_mem_rulingsOf) _
  | bulkDecide today items => exact h.answered (fun _ => pattern_of_mem_rulingsOf) _
  | openUnit name => exact ⟨h.committed, fun other w hother => h.units other w (lookup_of_open hother)⟩
  | load name id => exact h.workOn name fun w hw => hw
  | record name today command =>
    refine h.workOn name fun w hw r hr => ?_
    rcases List.mem_append.1 hr with hr | hr
    · exact hw r hr
    · unfold Ruling.carried at hr
      split at hr
      · exact List.mem_singleton.1 hr ▸ rfl
      · simp at hr
  | apply name today items =>
    refine h.workOn name fun w hw r hr => ?_
    exact (List.mem_append.1 hr).elim (hw r) pattern_of_mem_appliedRulings
  | commit name =>
    simp only [Desk.step]
    split
    · exact h.close name
    · next w hname =>
      split
      · exact h.close name
      · exact (h.close name).answered (h.of_work? hname) _
  | rollback name => exact h.close name

end OfPattern

end Desk

/-- All rulings that an office commits under a policy have its date format. -/
theorem Ledger.Office.pattern_of_committed (policy : Policy) (events : List Event) :
    ∀ r ∈ (Office.start.run policy events).desk.committed, r.pattern = policy.dateFormat := by
  suffices hrun : ∀ office : Office, office.desk.OfPattern policy.dateFormat →
      (office.run policy events).desk.OfPattern policy.dateFormat from
    (hrun Office.start (Desk.OfPattern.ofStore _ _)).committed
  induction events with
  | nil => exact fun office h => h
  | cons event rest ih =>
    intro office h
    refine ih (office.step policy event) ?_
    cases event with
    | work op => exact h.step op
    | submit id s today =>
      simp only [Office.step]
      split
      · exact ⟨h.overtake.committed, h.overtake.units⟩
      · exact ⟨h.committed, h.units⟩

end SignOff
