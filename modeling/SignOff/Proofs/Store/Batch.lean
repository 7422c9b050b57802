import SignOff.Ledger.Register
import SignOff.Proofs.Store.Preview
import SignOff.Proofs.Store.Session

/-!
# Batches in both stores

Units on the ledger and on a shelf preview their store. A unit on the ledger works on a copy of the
tables, so its commit leaves that copy. A unit on a shelf that no other unit commits to in between keeps
finding its base versions there, so its commit makes the writes that single decisions would have made
one after another.

The main statement is that a batch is the sequence of its single decisions, or nothing, whatever is in
the store.
-/

namespace SignOff

open UnitStore

namespace Ledger

/-- A unit works on its own copy of the tables and never looks at the ledger again. -/
theorem recordDecision_congr (ledger other : Ledger) (tables : Tables) (pattern : String) (today : Date)
    (command : Command) :
    recordDecision pattern today ledger tables command =
      recordDecision pattern today other tables command := rfl

instance : PreviewStore Ledger Tables where
  Previews ledger tables ledger' := ledger.isOpen = true ∧ ledger' = { ledger with tables := tables }
  previews_self {ledger tables} h := by
    change openTables ledger = .ok tables at h
    unfold openTables at h
    split at h
    · next hopen =>
      cases h
      exact ⟨hopen, rfl⟩
    · contradiction
  commit_eq := by
    intro ledger ledger' tables h
    obtain ⟨-, rfl⟩ := h
    rfl
  decision_error := by
    intro ledger ledger' tables tables' pattern today command refusal hpreviews h
    obtain ⟨hopen, rfl⟩ := hpreviews
    have hunit : openUnit { ledger with tables := tables } = .ok tables := by
      change openTables _ = _
      simp [openTables, hopen]
    rw [recordDecision_congr ledger { ledger with tables := tables }] at h
    simp only [inUnit, hunit, h]
  decision_ok := by
    intro ledger ledger' tables tables' pattern today command record hpreviews h
    obtain ⟨hopen, rfl⟩ := hpreviews
    have hunit : openUnit { ledger with tables := tables } = .ok tables := by
      change openTables _ = _
      simp [openTables, hopen]
    rw [recordDecision_congr ledger { ledger with tables := tables }] at h
    exact ⟨{ ledger with tables := tables' }, by simp only [inUnit, hunit, h]; rfl, hopen, rfl⟩

end Ledger

namespace Shelf

/-- The unit would leave `after` in place of the shelf, and every base version is that of the shelf. -/
structure Previews (shelf : Shelf) (unit : Session) (after : Shelf) : Prop where
  chains : after.chains = Entries.putAll unit.staged shelf.chains
  staged_nodup : (unit.staged.map Prod.fst).Nodup
  staged_met : ∀ id, (unit.staged.lookup id).isSome = true → (unit.bases.lookup id).isSome = true
  bases : ∀ id base, (id, base) ∈ unit.bases → storedVersion? shelf id = some base

namespace Previews

variable {shelf after : Shelf} {unit : Session}

/-- A fresh unit previews the shelf itself. -/
theorem fresh (shelf : Shelf) : Previews shelf ⟨[], []⟩ shelf :=
  ⟨rfl, List.nodup_nil, by simp, by simp⟩

/-- The unit sees what is on the shelf that it previews. -/
theorem view_eq (h : Previews shelf unit after) (id : String) : view shelf unit id = after.get? id := by
  rw [get?, h.chains, Entries.lookup_putAll h.staged_nodup]
  rfl

/-- A unit only writes what the shelf holds. -/
theorem mem_of_staged (h : Previews shelf unit after) {id : String}
    (hstaged : (unit.staged.lookup id).isSome = true) : id ∈ shelf.chains.map Prod.fst := by
  obtain ⟨base, hbase⟩ := Option.isSome_iff_exists.1 (h.staged_met id hstaged)
  have hversion := h.bases id base (Entries.mem_of_lookup hbase)
  obtain ⟨chain, hchain, -⟩ := Option.map_eq_some_iff.1 hversion
  exact Entries.lookup_isSome_iff.1 (by rw [← get?, hchain]; rfl)

/-- A commit finds no conflict. -/
theorem commit_eq (h : Previews shelf unit after) : commit shelf unit = (.ok (), after) := by
  rw [commit_of_conflict?_eq_none (conflict?_eq_none_iff.2 fun id base hmem _ => h.bases id base hmem),
    ← h.chains]

/-- A new base version is that of the shelf. -/
theorem bases_putNew (h : Previews shelf unit after) {id : String} {version : Int}
    (hversion : unit.bases.lookup id = none → storedVersion? shelf id = some version) :
    ∀ key base, (key, base) ∈ Entries.putNew id version unit.bases →
      storedVersion? shelf key = some base := by
  intro key base hmem
  unfold Entries.putNew at hmem
  split at hmem
  · exact h.bases key base hmem
  · next hnone =>
    rcases List.mem_append.1 hmem with hmem | hmem
    · exact h.bases key base hmem
    · obtain ⟨rfl, rfl⟩ : key = id ∧ base = version := by simpa using hmem
      exact hversion (Option.not_isSome_iff_eq_none.1 hnone)

/-- A load changes nothing of what the unit previews. -/
theorem load (h : Previews shelf unit after) (id : String) :
    Previews shelf (load shelf unit id).2 after := by
  have hbases : ∀ key base, (key, base) ∈ (Shelf.load shelf unit id).2.bases →
      storedVersion? shelf key = some base := by
    rcases load_bases shelf unit id with hsame | ⟨chain, hchain, hnew⟩
    · rw [hsame]
      exact h.bases
    · rw [hnew]
      exact h.bases_putNew fun _ => by simp [storedVersion?, hchain]
  refine ⟨by rw [load_staged]; exact h.chains, by rw [load_staged]; exact h.staged_nodup, ?_, hbases⟩
  intro key hkey
  rw [load_staged] at hkey
  have hmet := h.staged_met key hkey
  rcases load_bases shelf unit id with hsame | ⟨chain, -, hnew⟩
  · rwa [hsame]
  · rw [hnew, Entries.lookup_putNew, Option.isSome_or, hmet, Bool.true_or]

/-- A record made on the version that the unit sees is previewed as inserted. -/
theorem store (h : Previews shelf unit after) {record : Record}
    (hversion : storedVersion? after record.chain.application.id = some record.expectedVersion) :
    Previews shelf (unit.take record) (after.insert record.chain) := by
  let id := record.chain.application.id
  rw [storedVersion?, ← h.view_eq] at hversion
  have hkey : id ∈ shelf.chains.map Prod.fst := by
    cases hstaged : unit.staged.lookup id with
    | some chain => exact h.mem_of_staged (by simp [hstaged])
    | none =>
      obtain ⟨chain, hchain, -⟩ := Option.map_eq_some_iff.1 hversion
      rw [view, show unit.staged.lookup record.chain.application.id = none from hstaged,
        Option.none_or] at hchain
      exact Entries.lookup_isSome_iff.1 (Option.isSome_iff_exists.2 ⟨chain, hchain⟩)
  refine ⟨?_, Entries.nodup_keys_put _ _ h.staged_nodup, ?_, ?_⟩
  · rw [insert, h.chains]
    exact Entries.put_putAll _ h.staged_nodup hkey
  · intro key hstaged
    rw [Session.take, Entries.lookup_putNew]
    by_cases hk : key = id
    · simp [hk, id]
    · rw [lookup_staged_take, if_neg hk] at hstaged
      simp [h.staged_met key hstaged]
  · apply h.bases_putNew
    intro hnone
    have hstaged : unit.staged.lookup id = none := by
      cases hstaged : unit.staged.lookup id with
      | none => rfl
      | some chain => simpa [id, hnone] using h.staged_met id (by simp [hstaged])
    rwa [view, show unit.staged.lookup record.chain.application.id = none from hstaged,
      Option.none_or] at hversion

end Previews

/-- The answer to a decision on what the shelf holds. -/
def decision (shelf : Shelf) (pattern : String) (today : Date) (command : Command) :
    Except Refusal Record :=
  match shelf.get? command.applicationId with
  | none => .error (.applicationNotFound command.applicationId)
  | some chain =>
    match chain.decide command pattern today with
    | .error refusal => .error refusal
    | .ok record =>
      if storedVersion? shelf record.chain.application.id = some record.expectedVersion then .ok record
      else .error (.concurrentModification record.chain.application.id)

/-- The answer to a decision in a unit depends on the shelf that the unit previews only. -/
theorem recordDecision_of_previews {shelf after : Shelf} {unit : Session}
    (h : Previews shelf unit after) (pattern : String) (today : Date) (command : Command) :
    ∃ unit', recordDecision pattern today shelf unit command =
        (after.decision pattern today command, unit') ∧
      ∀ record, after.decision pattern today command = .ok record →
        Previews shelf unit' (after.insert record.chain) := by
  let loaded := (Shelf.load shelf unit command.applicationId).2
  have hloaded : Previews shelf loaded after := h.load command.applicationId
  have hload : UnitStore.load shelf unit command.applicationId =
      (.ok (after.get? command.applicationId), loaded) := by
    rw [← h.view_eq, ← load_fst]
    rfl
  cases hchain : after.get? command.applicationId with
  | none =>
    rw [hchain] at hload
    rw [recordDecision_of_load_none hload]
    exact ⟨loaded, by simp [decision, hchain], by simp [decision, hchain]⟩
  | some chain =>
    rw [hchain] at hload
    cases hdecide : chain.decide command pattern today with
    | error refusal =>
      rw [recordDecision_of_decide_error hload hdecide]
      exact ⟨loaded, by simp [decision, hchain, hdecide], by simp [decision, hchain, hdecide]⟩
    | ok record =>
      rw [recordDecision_of_decide_ok hload hdecide]
      have hstore : UnitStore.store shelf loaded record = _ := store_eq shelf loaded record
      rw [hloaded.view_eq, ← storedVersion?] at hstore
      by_cases hversion : storedVersion? after record.chain.application.id =
          some record.expectedVersion
      · have hanswer : after.decision pattern today command = .ok record := by
          simp [decision, hchain, hdecide, hversion]
        rw [if_pos hversion] at hstore
        refine ⟨_, by rw [hstore, hanswer]; rfl, fun record' heq => ?_⟩
        rw [hanswer, Except.ok.injEq] at heq
        exact heq ▸ hloaded.store hversion
      · have hanswer : after.decision pattern today command =
            .error (.concurrentModification record.chain.application.id) := by
          simp [decision, hchain, hdecide, hversion]
        rw [if_neg hversion] at hstore
        exact ⟨loaded, by rw [hstore, hanswer]; rfl, by simp [hanswer]⟩

/-- A single decision inserts the chain of its record. -/
theorem inUnit_recordDecision (shelf : Shelf) (pattern : String) (today : Date) (command : Command) :
    inUnit shelf (fun unit => recordDecision pattern today shelf unit command) =
      match shelf.decision pattern today command with
      | .error refusal => (.error refusal, shelf)
      | .ok record => (.ok record, shelf.insert record.chain) := by
  obtain ⟨unit, hunit, hpreviews⟩ :=
    recordDecision_of_previews (Previews.fresh shelf) pattern today command
  have hopen : openUnit shelf = .ok ⟨[], []⟩ := rfl
  simp only [inUnit, hopen, hunit]
  cases hdecision : shelf.decision pattern today command with
  | error refusal => rfl
  | ok record =>
    have hcommit : UnitStore.commit shelf unit = (.ok (), shelf.insert record.chain) :=
      (hpreviews record hdecision).commit_eq
    simp only [hcommit]

instance : PreviewStore Shelf Session where
  Previews := Previews
  previews_self {shelf unit} h := by
    cases h
    exact Previews.fresh shelf
  commit_eq h := h.commit_eq
  decision_error {shelf after unit unit' pattern today command refusal} h hdecision := by
    obtain ⟨unit', hunit, -⟩ := recordDecision_of_previews h pattern today command
    rw [hdecision, Prod.mk.injEq] at hunit
    rw [inUnit_recordDecision, ← hunit.1]
  decision_ok {shelf after unit unit' pattern today command record} h hdecision := by
    obtain ⟨unit'', hunit, hpreviews⟩ := recordDecision_of_previews h pattern today command
    rw [hdecision, Prod.mk.injEq] at hunit
    obtain ⟨hanswer, rfl⟩ := hunit
    exact ⟨after.insert record.chain, by rw [inUnit_recordDecision, ← hanswer],
      hpreviews record hanswer.symm⟩

end Shelf

/-- In both stores a batch is the sequence of its single decisions, or nothing. -/
theorem Service.bulkDecide_inTurn (policy : Policy) (today : Date) (items : List DecisionRequest) :
    (∀ shelf : Shelf, BatchInTurn policy today shelf items) ∧
      ∀ tables : Ledger.Tables, BatchInTurn policy today (⟨tables, true⟩ : Ledger) items := by
  constructor
  · intro shelf
    exact batchInTurn_of_openUnit policy today (u := ⟨[], []⟩) rfl items
  · intro tables
    exact batchInTurn_of_openUnit policy today (u := tables) rfl items

end SignOff
