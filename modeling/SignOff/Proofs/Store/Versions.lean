import SignOff.Proofs.Ledger.Units
import SignOff.Proofs.Store.Desk
import SignOff.Proofs.Store.ShelfUnits

/-!
# Units that work alone

Both stores take a record in only if it was made on the version that the unit sees, and a unit then sees the
chain of the record. While nobody else commits, a unit sees exactly what its rulings make of the contents of
the store.
-/

namespace SignOff

open UnitStore SerialStore

/-- A store that checks the version of a record, and whose units see what they have taken in. -/
class VersionedStore (σ : Type) (υ : outParam Type) [UnitStore σ υ] [SideBySide σ] [SerialStore σ υ] :
    Prop where
  id_of_contents {s : σ} {id : String} {chain : Chain} : Readable s → contents s id = some chain →
    chain.application.id = id
  store_refused {s : σ} {u : υ} {rulings : List Ruling} {record : Record} : Readable s → Accounts s u rulings →
    (view s u record.chain.application.id).map (fun c => c.application.version) ≠ some record.expectedVersion →
      ∃ refusal, store s u record = (.error refusal, u)
  view_store {s : σ} {u u' : υ} {rulings : List Ruling} {r : Ruling} {chain : Chain} {record : Record} :
    Readable s → Accounts s u rulings → view s u r.id = some chain →
      chain.decide r.command r.pattern r.today = .ok record → store s u record = (.ok (), u') →
      view s u' = Function.update (view s u) r.id (some record.chain)

/-! ## Both stores check the version -/

namespace Ledger

/-- A record is turned down where no header has its id and expected version. -/
theorem Tables.store_refused {t : Tables} (h : t.Readable) {record : Record}
    (hversion : (t.contents record.chain.application.id).map (fun c => c.application.version) ≠
      some record.expectedVersion) :
    t.store record = (.error (.concurrentModification record.chain.application.id), t) := by
  have hnone : t.writeHeader record = none := by
    unfold writeHeader
    rw [if_neg]
    intro hany
    obtain ⟨row, hrow, hfits⟩ := List.any_eq_true.1 hany
    obtain ⟨hid, hrowVersion⟩ :
        row.id = record.chain.application.id ∧ row.version = .whole record.expectedVersion := by simpa using hfits
    apply hversion
    have hheader : t.header? record.chain.application.id = some row := by
      cases hheader : t.header? record.chain.application.id with
      | none => exact absurd (hid ▸ List.mem_map_of_mem hrow) (header?_eq_none_iff.1 hheader)
      | some other =>
        rw [List.inj_on_of_nodup_map h.wellFormed.1 (List.mem_of_find?_eq_some hheader) hrow
          ((id_of_header? hheader).trans hid.symm)]
    cases hcontents : t.contents record.chain.application.id with
    | none => simp [h.contents_eq_none_iff.1 hcontents] at hheader
    | some chain =>
      have hchain : t.chain? record.chain.application.id = .ok (some chain) := by rw [h.chain?_eq, hcontents]
      obtain ⟨other, hother, happlication, -⟩ := chain?_eq_some_iff.1 hchain
      obtain rfl : row = other := Option.some.inj (hheader.symm.trans hother)
      have happlied := congrArg HeaderRow.version (HeaderRow.application_eq_ok_iff.1 happlication).2
      rw [hrowVersion] at happlied
      rw [Option.map_some, Cell.whole.inj happlied]
  simp only [store, hnone]

instance : VersionedStore Ledger Tables where
  id_of_contents {ledger id chain} hreadable hchain :=
    Tables.id_of_chain? ((hreadable.2.chain?_eq id).trans (congrArg _ hchain))
  store_refused _ h hversion := ⟨_, Tables.store_refused h.1 hversion⟩
  view_store {_ unit unit' rulings r chain record} _ h hview hdecide hstore := by
    obtain ⟨after, hafter, -, hreplay⟩ := h.1.store hview hdecide
    have hsame : unit' = after := congrArg Prod.snd (hstore.symm.trans hafter)
    have hcontents : unit.contents r.id = some chain := hview
    rw [Contents.replay?_cons, Contents.rule?, hcontents, Option.bind_some,
      Chain.rule?_eq_some_iff.2 ⟨record, hdecide, rfl⟩] at hreplay
    rw [hsame]
    exact (Option.some.inj hreplay).symm

end Ledger

namespace Shelf

instance : VersionedStore Shelf Session where
  id_of_contents hkeyed hchain := hkeyed _ _ hchain
  store_refused {shelf unit _ record} _ _ hversion := by
    refine ⟨.concurrentModification record.chain.application.id, ?_⟩
    exact (Shelf.store_eq shelf unit record).trans (if_neg hversion)
  view_store {shelf unit unit' rulings r chain record} hkeyed h hview hdecide hstore := by
    have hid : record.chain.application.id = r.id := by
      rw [Chain.id_of_decide hdecide, h.id_of_view hkeyed hview]
    have hview : Shelf.view shelf unit chain.application.id = some chain :=
      (h.id_of_view hkeyed hview).symm ▸ hview
    have hstore : Shelf.store shelf unit record = (.ok (), unit') := hstore
    rw [Shelf.store_of_decide hview hdecide rfl] at hstore
    obtain rfl := (Prod.mk.inj hstore).2
    rw [← hid]
    exact Shelf.view_take shelf unit record

end Shelf

/-! ## What a unit sees alone -/

section Alone

variable {σ υ : Type} [UnitStore σ υ] [SideBySide σ] [SerialStore σ υ] {s s' : σ} {u u' : υ}
  {rulings : List Ruling}

/-- The unit accounts for its rulings, and nobody else has committed since it was opened. -/
structure Alone (s : σ) (u : υ) (rulings : List Ruling) : Prop where
  accounts : Accounts s u rulings
  replay : (contents s).replay? rulings = some (view s u)

namespace Alone

/-- A fresh unit sees the store. -/
theorem of_openUnit (hreadable : Readable s) (hopen : openUnit s = .ok u) : Alone s u [] := by
  obtain ⟨fresh, hfresh, haccounts, hview⟩ := SerialStore.openUnit_eq hreadable
  obtain rfl : fresh = u := Except.ok.inj (hfresh.symm.trans hopen)
  exact ⟨haccounts, congrArg some hview.symm⟩

/-- What the unit sees has moved on by the rulings that it has carried out in between. -/
theorem replay_of_append (h : Alone s u rulings) {more : List Ruling} (h' : Alone s u' (rulings ++ more)) :
    (view s u).replay? more = some (view s u') := by
  have hreplay := h'.replay
  rwa [Contents.replay?_append, h.replay, Option.bind_some] at hreplay

/-- A commit leaves what the unit has seen. -/
theorem commit (h : Alone s u rulings) (hreadable : Readable s) (hcommit : UnitStore.commit s u = (.ok (), s')) :
    Readable s' ∧ contents s' = view s u := by
  obtain ⟨hreadable', hreplay⟩ := SerialStore.commit_ok hreadable h.accounts hcommit
  exact ⟨hreadable', Option.some.inj (hreplay.symm.trans h.replay)⟩

variable [VersionedStore σ υ]

/-- What the unit sees lies under the id of its application. -/
theorem id_of_view (h : Alone s u rulings) (hreadable : Readable s) {id : String} {chain : Chain}
    (hview : view s u id = some chain) : chain.application.id = id := by
  obtain ⟨before, hbefore, hreplay⟩ := Contents.exists_before_of_replay h.replay hview
  rw [Chain.id_of_replay hreplay, VersionedStore.id_of_contents hreadable hbefore]

/-- Loads of the unit and records made on what it sees leave it alone. -/
theorem carries (hreadable : Readable s) : Carries s (Alone s) where
  load_eq {u rulings} id h := by
    obtain ⟨u', hload, haccounts, hview⟩ := SerialStore.load_eq id hreadable h.accounts
    exact ⟨u', hload, ⟨haccounts, by rw [hview]; exact h.replay⟩, hview⟩
  store_eq {u rulings r chain record} h hview hdecide := by
    obtain ⟨u', hstore, haccounts⟩ := SerialStore.store_eq hreadable h.accounts hview hdecide
    refine ⟨u', hstore, haccounts, ?_⟩
    rw [Contents.replay?_append, h.replay, Option.bind_some, Contents.replay?_cons, Contents.rule?, hview,
      Option.bind_some, Chain.rule?_eq_some_iff.2 ⟨record, hdecide, rfl⟩,
      VersionedStore.view_store hreadable h.accounts hview hdecide hstore]
    rfl

end Alone

end Alone

end SignOff
