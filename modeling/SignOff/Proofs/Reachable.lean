import SignOff.Proofs.Ledger.Office
import SignOff.Proofs.Store.ShelfUnits

/-!
# Reachable chains are sound

Every chain in a ledger that started without rows, and every chain on a shelf that started with sound ones,
is sound after any run, and its version counts the decisions that have been committed on it. On a shelf a chain
may start close to the greatest version; then versions count in 64 bits.
-/

namespace SignOff

open Ledger (Event Office)

namespace Ledger.Office.Accountable

variable {office : Office}

/-- A chain in the ledger is what the committed rulings make of the chain of a submission. -/
theorem exists_taken (h : office.Accountable) {id : String} {chain : Chain}
    (hchain : office.desk.store.tables.contents id = some chain) : ∃ taken ∈ office.taken, taken.id = id ∧
      taken.chain.replay? (Ruling.on id office.desk.committed) = some chain := by
  obtain ⟨first, horigin, hreplay⟩ := Contents.exists_before_of_replay h.lineage hchain
  obtain ⟨taken, hfind, rfl⟩ := Option.map_eq_some_iff.1 horigin
  exact ⟨taken, List.mem_of_find?_eq_some hfind, by simpa using List.find?_some hfind, hreplay⟩

/-- A chain in the ledger is sound, fits a memory and has room for all its decisions. -/
theorem of_contents (h : office.Accountable) {id : String} {chain : Chain}
    (hchain : office.desk.store.tables.contents id = some chain) :
    chain.Sound ∧ chain.FitsMemory ∧ chain.HasRoom := by
  obtain ⟨taken, htaken, -, hreplay⟩ := h.exists_taken hchain
  obtain ⟨hvalid, hfew⟩ := h.taken_fit taken htaken
  have hsound : taken.chain.Sound := Submission.sound_chain (Submission.approvers_of_validate hvalid).1 hfew
  have hmemory : taken.chain.FitsMemory := Submission.fitsMemory_chain hfew taken.id taken.today
  have hroom : taken.chain.HasRoom := Submission.hasRoom_chain hfew taken.id taken.today
  exact ⟨hsound.replay hreplay, (Chain.fitsMemory_of_replay hreplay).2 hmemory, (hroom.replay hreplay).2⟩

/-- So is a chain that the ledger shows. -/
theorem of_view (h : office.Accountable) {id : String} {chain : Chain}
    (hview : office.desk.store.view id = .ok (some chain)) : chain.Sound ∧ chain.FitsMemory ∧ chain.HasRoom := by
  rw [view_of_readable h.consistent.readable, Except.ok.injEq] at hview
  exact h.of_contents hview

/-- What a run leaves in the ledger under an id: nothing, or the sound chain of a submission. -/
theorem view_sound (h : office.Accountable) (id : String) :
    ((∀ taken ∈ office.taken, taken.id ≠ id) ∧ office.desk.store.view id = .ok none) ∨
      ∃ taken ∈ office.taken, taken.id = id ∧ ∃ chain, office.desk.store.view id = .ok (some chain) ∧
        chain.Sound ∧
        chain.steps.map Step.sequence = List.range' 1 taken.submission.approvers.length ∧
        chain.application.version = (Ruling.on id office.desk.committed).length := by
  rw [view_of_readable h.consistent.readable]
  cases hcontents : office.desk.store.tables.contents id with
  | none =>
    have hid := Contents.replay?_eq_some_iff.1 h.lineage id
    rw [hcontents] at hid
    refine Or.inl ⟨?_, rfl⟩
    have hnone : office.origin id = none := hid.of_none.1
    simpa [Office.origin] using hnone
  | some chain =>
    obtain ⟨taken, htaken, hid, hreplay⟩ := h.exists_taken hcontents
    have hfew := (h.taken_fit taken htaken).2
    refine Or.inr ⟨taken, htaken, hid, chain, rfl, (h.of_contents hcontents).1, ?_, ?_⟩
    · rw [Chain.steps_map_of_replay Step.sequence (fun _ _ => rfl) hreplay]
      exact Submission.sequences_steps hfew
    · rw [((Submission.hasRoom_chain hfew taken.id taken.today).replay hreplay).1]
      exact Int.zero_add _

end Ledger.Office.Accountable

end SignOff
