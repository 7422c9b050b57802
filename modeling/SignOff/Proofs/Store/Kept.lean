import SignOff.Proofs.Store.Desk

/-!
# What desks keep

What all work in a unit keeps, nothing that is asked of a desk changes. Units that have been overtaken need not
have it any more, because nothing of theirs is committed; they keep what they had.
-/

namespace SignOff

open UnitStore

variable {σ υ : Type} [UnitStore σ υ]

namespace Desk

variable [SideBySide σ]

section Overtaken

variable {desk : Desk σ υ} {name : String} {w : Work υ}

omit [SideBySide σ] in
/-- A unit that has been overtaken has not been worked on. -/
theorem lookup_of_workOn {other : String} {work : Work υ → Work υ}
    (h : (desk.workOn other work).units.lookup name = some (some w)) (hovertaken : w.overtaken = true)
    (hwork : ∀ w, (work w).overtaken = w.overtaken) :
    desk.units.lookup name = some (some w) := by
  rcases workOn_cases desk other work with hsame | ⟨w', -, hcurrent, hworked⟩
  · rwa [hsame] at h
  · rw [hworked] at h
    rcases Entries.lookup_of_put h with hwritten | hbefore
    · cases hwritten
      rw [hwork, hcurrent] at hovertaken
      contradiction
    · exact hbefore

omit [UnitStore σ υ] in
/-- An answer leaves all units with what they have. -/
theorem lookup_of_answered {α : Type} {rulings : List Ruling} {result : Except Refusal α × σ}
    (h : (desk.answered rulings result).units.lookup name = some (some w)) :
    ∃ before, desk.units.lookup name = some (some before) ∧ before.unit = w.unit := by
  rcases result with ⟨_ | _, store⟩
  · exact ⟨w, h, rfl⟩
  · cases rulings with
    | nil => exact ⟨w, h, rfl⟩
    | cons r rest =>
      obtain ⟨before, hbefore, hunit, -⟩ := lookup_of_overtake h
      exact ⟨before, hbefore, hunit⟩

/-- A unit that has been overtaken has what it had before. -/
theorem lookup_of_step (policy : Policy) (op : Op)
    (h : (desk.step policy op).units.lookup name = some (some w)) (hovertaken : w.overtaken = true) :
    ∃ before, desk.units.lookup name = some (some before) ∧ before.unit = w.unit := by
  cases op with
  | decide today request => exact lookup_of_answered h
  | bulkDecide today items => exact lookup_of_answered h
  | openUnit other => exact ⟨w, lookup_of_open h, rfl⟩
  | load other id => exact ⟨w, lookup_of_workOn h hovertaken fun _ => rfl, rfl⟩
  | record other today command => exact ⟨w, lookup_of_workOn h hovertaken fun _ => rfl, rfl⟩
  | apply other today items => exact ⟨w, lookup_of_workOn h hovertaken fun _ => rfl, rfl⟩
  | commit other =>
    simp only [Desk.step] at h
    split at h
    · exact ⟨w, Entries.lookup_of_filter_ne h, rfl⟩
    · split at h
      · exact ⟨w, Entries.lookup_of_filter_ne h, rfl⟩
      · obtain ⟨before, hbefore, hunit⟩ := lookup_of_answered h
        exact ⟨before, Entries.lookup_of_filter_ne hbefore, hunit⟩
  | rollback other => exact ⟨w, Entries.lookup_of_filter_ne h, rfl⟩

end Overtaken

variable {ofStore : σ → Prop} {ofUnit : υ → Prop}

/-- The store has it, and so does every unit that has not been overtaken. -/
structure Has (ofStore : σ → Prop) (ofUnit : υ → Prop) (desk : Desk σ υ) : Prop where
  store : ofStore desk.store
  units : ∀ name w, desk.units.lookup name = some (some w) → w.overtaken = false → ofUnit w.unit

namespace Has

variable {desk : Desk σ υ}

omit [SideBySide σ] in
/-- A unit that nobody has overtaken has the fact about units. -/
theorem of_work? (h : desk.Has ofStore ofUnit) (hkeeps : Keeps ofStore ofUnit) {name : String} {w : Work υ}
    (hwork : desk.work? name = some w) (hcurrent : w.overtaken = false) : ofUnit w.unit := by
  rcases work?_cases hwork with hname | ⟨u, hopen, rfl⟩
  · exact h.units name w hname hcurrent
  · exact hkeeps.openUnit h.store hopen

omit [UnitStore σ υ] [SideBySide σ] in
/-- Closing a unit keeps the facts. -/
theorem close (h : desk.Has ofStore ofUnit) (name : String) : (desk.close name).Has ofStore ofUnit :=
  ⟨h.store, fun other w hother => h.units other w (Entries.lookup_of_filter_ne hother)⟩

omit [SideBySide σ] in
/-- Work that keeps the fact about units keeps the facts at the desk. -/
theorem workOn (h : desk.Has ofStore ofUnit) (hkeeps : Keeps ofStore ofUnit) (name : String)
    {work : Work υ → Work υ} (hwork : ∀ w, ofUnit w.unit → ofUnit (work w).unit) :
    (desk.workOn name work).Has ofStore ofUnit := by
  rcases workOn_cases desk name work with hsame | ⟨w, hname, hcurrent, hworked⟩
  · rwa [hsame]
  · rw [hworked]
    refine ⟨h.store, fun other w' hother => ?_⟩
    rcases Entries.lookup_of_put hother with hwritten | hother
    · cases hwritten
      exact fun _ => hwork w (h.of_work? hkeeps hname hcurrent)
    · exact h.units other w' hother

omit [UnitStore σ υ] in
/-- Overtaking all units keeps the facts. -/
theorem overtake (h : desk.Has ofStore ofUnit) : desk.overtake.Has ofStore ofUnit := by
  refine ⟨?_, fun name w hname hcurrent => ?_⟩
  · unfold Desk.overtake
    split <;> exact h.store
  · obtain ⟨before, hbefore, -, -, hsame, -⟩ := lookup_of_overtake hname
    obtain rfl := hsame hcurrent
    exact h.units name before hbefore hcurrent

omit [UnitStore σ υ] in
/-- An answer with a store that has the fact keeps the facts. -/
theorem answered (h : desk.Has ofStore ofUnit) {α : Type} (rulings : List Ruling)
    {result : Except Refusal α × σ} (hresult : ofStore result.2) :
    (desk.answered rulings result).Has ofStore ofUnit := by
  rcases result with ⟨_ | _, store⟩
  · exact ⟨hresult, h.units⟩
  · refine ⟨hresult, ?_⟩
    cases rulings with
    | nil => exact h.units
    | cons r rest => exact h.overtake.units

/-- Whatever is asked of a desk leaves it with what is kept. -/
theorem step (h : desk.Has ofStore ofUnit) (hkeeps : Keeps ofStore ofUnit) (policy : Policy) (op : Op) :
    (desk.step policy op).Has ofStore ofUnit := by
  cases op with
  | decide today request => exact h.answered _ (hkeeps.decide policy today h.store request)
  | bulkDecide today items => exact h.answered _ (hkeeps.bulkDecide policy today h.store items)
  | openUnit name => exact ⟨h.store, fun other w hother => h.units other w (lookup_of_open hother)⟩
  | load name id => exact h.workOn hkeeps name fun w hw => hkeeps.load id h.store hw
  | record name today command =>
    exact h.workOn hkeeps name fun w hw => hkeeps.recordDecision policy today h.store hw command
  | apply name today items =>
    refine h.workOn hkeeps name fun w hw => ?_
    rw [applyBatch_snd]
    exact hkeeps.applyItems policy today h.store hw items
  | commit name =>
    simp only [Desk.step]
    split
    · exact h.close name
    · next w hname =>
      split
      · exact h.close name
      · next hcurrent =>
        have hunit := h.of_work? hkeeps hname (Bool.eq_false_iff.2 hcurrent)
        exact (h.close name).answered _ (hkeeps.commit h.store hunit)
  | rollback name => exact h.close name

/-- Nothing that is asked of a desk one after another changes what is kept. -/
theorem run (h : desk.Has ofStore ofUnit) (hkeeps : Keeps ofStore ofUnit) (policy : Policy) (ops : List Op) :
    (desk.run policy ops).Has ofStore ofUnit := by
  induction ops generalizing desk with
  | nil => exact h
  | cons op rest ih => exact ih (h.step hkeeps policy op)

end Has

end Desk

end SignOff
