import SignOff.Proofs.Ledger.Recording
import SignOff.Proofs.Ledger.Submitting
import SignOff.Proofs.Store.Serial

/-!
# Units on the ledger

A unit on an open ledger whose chains can all be read decides on what its copy of the tables says, and its
commit leaves what its rulings make of the chains of the ledger. A submission adds one chain to them.
-/

namespace SignOff.Ledger

open UnitStore

namespace Tables

/-- The tables are well-formed and every chain in them can be read. -/
structure Readable (t : Tables) : Prop where
  wellFormed : t.WellFormed
  chains : ∀ id, ∃ chain, t.chain? id = .ok chain

/-- The chains of the tables, without those that cannot be read. -/
def contents (t : Tables) : Contents := fun id => (t.chain? id).toOption.join

variable {t : Tables}

/-- Readable tables are read as their contents. -/
theorem Readable.chain?_eq (h : t.Readable) (id : String) : t.chain? id = .ok (t.contents id) := by
  obtain ⟨chain, hchain⟩ := h.chains id
  rw [contents, hchain]
  rfl

/-- Tables that are read like readable ones but for one chain. -/
theorem readable_of_update {t' : Tables} (h : t.Readable) (hwf : t'.WellFormed) {id : String}
    {chain : Chain} (hid : t'.chain? id = .ok (some chain))
    (hother : ∀ other, other ≠ id → t'.chain? other = t.chain? other) :
    t'.Readable ∧ t'.contents = Function.update t.contents id (some chain) := by
  have hread : ∀ other, t'.chain? other = .ok (Function.update t.contents id (some chain) other) := by
    intro other
    by_cases heq : other = id
    · rw [heq, hid, Function.update_self]
    · rw [hother other heq, h.chain?_eq, Function.update_of_ne heq]
  refine ⟨⟨hwf, fun other => ⟨_, hread other⟩⟩, funext fun other => ?_⟩
  rw [contents, hread]
  rfl

/-- Tables without rows are readable and show nothing. -/
theorem readable_empty : Tables.empty.Readable ∧ Tables.empty.contents = fun _ => none := by
  have hnone : ∀ id, Tables.empty.chain? id = .ok none := fun _ => rfl
  exact ⟨⟨by decide, fun id => ⟨none, hnone id⟩⟩, funext fun id => by rw [contents, hnone]; rfl⟩

/-- A record made on a chain of readable tables is taken in as a ruling on their contents. -/
theorem Readable.store (h : t.Readable) {r : Ruling} {chain : Chain} {record : Record}
    (hchain : t.contents r.id = some chain)
    (hdecide : chain.decide r.command r.pattern r.today = .ok record) :
    ∃ t', t.store record = (.ok (), t') ∧ t'.Readable ∧ t.contents.replay? [r] = some t'.contents := by
  have hread : t.chain? r.id = .ok (some chain) := by rw [h.chain?_eq, hchain]
  obtain ⟨t', hstore, hwf, -, hid, hother⟩ := chain?_store h.wellFormed hread hdecide
  obtain ⟨hreadable, hcontents⟩ := readable_of_update h hwf hid hother
  refine ⟨t', hstore, hreadable, ?_⟩
  rw [Contents.replay?_cons, Contents.rule?, hchain, Option.bind_some,
    Chain.rule?_eq_some_iff.2 ⟨record, hdecide, rfl⟩, hcontents]
  rfl

/-- A submission that fits adds its chain to the contents. -/
theorem Readable.submit (h : t.Readable) {id : String} {s : Submission} (hnew : t.header? id = none)
    (hfew : s.approvers.length < Power.ofTwo 32) (today : Date) :
    (t.submit id s today).Readable ∧
      (t.submit id s today).contents = Function.update t.contents id (some (s.chain id today)) := by
  refine readable_of_update h (wellFormed_submit h.wellFormed hnew hfew) ?_ fun other hother => ?_
  · rw [chain?_submit h.wellFormed hnew hfew, if_pos rfl]
  · rw [chain?_submit h.wellFormed hnew hfew, if_neg hother]

/-- A record on a chain of readable tables leaves a chain that awaits no decision where it is. -/
theorem Readable.store_closed (h : t.Readable) {id : String} {closed : Chain} (hclosed : t.contents id = some closed)
    (hnone : closed.cursor? = none) {r : Ruling} {chain : Chain} {record : Record}
    (hchain : t.contents r.id = some chain)
    (hdecide : chain.decide r.command r.pattern r.today = .ok record) :
    (t.store record).2.Readable ∧ (t.store record).2.contents id = some closed := by
  obtain ⟨t', hstore, hreadable, hreplay⟩ := h.store hchain hdecide
  have hne : id ≠ r.id := by
    rintro rfl
    obtain rfl : closed = chain := Option.some.inj (hclosed.symm.trans hchain)
    obtain ⟨cursor, hcursor, -⟩ := Chain.decide_eq_ok_iff.1 hdecide
    simp [hnone] at hcursor
  have hother : Ruling.on id [r] = [] := Ruling.on_cons_of_ne hne []
  rw [hstore]
  exact ⟨hreadable, (Contents.replay?_of_on_eq_nil hreplay hother).trans hclosed⟩

/-- Readable tables without a header show no chain. -/
theorem Readable.contents_eq_none_iff (h : t.Readable) {id : String} :
    t.contents id = none ↔ t.header? id = none := by
  rw [← chain?_eq_none_iff, h.chain?_eq, Except.ok.injEq]

end Tables

/-- The ledger is open and all its chains can be read. -/
def Readable (ledger : Ledger) : Prop := ledger.isOpen = true ∧ ledger.tables.Readable

/-- A readable ledger shows its contents. -/
theorem view_of_readable {ledger : Ledger} (h : ledger.Readable) (id : String) :
    ledger.view id = .ok (ledger.tables.contents id) := by
  simp [Ledger.view, openTables, h.1, h.2.chain?_eq, answer, bind, Except.bind]

instance : SideBySide Ledger := ⟨false⟩

instance : SerialStore Ledger Tables where
  Readable := Readable
  contents ledger := ledger.tables.contents
  view _ unit := unit.contents
  Accounts ledger unit rulings :=
    unit.Readable ∧ ledger.tables.contents.replay? rulings = some unit.contents
  openUnit_eq {ledger} h :=
    ⟨ledger.tables, by change openTables ledger = _; simp [openTables, h.1], ⟨h.2, rfl⟩, rfl⟩
  load_eq {_ unit _} id _ h :=
    ⟨unit, by change (answer (unit.chain? id), unit) = _; rw [h.1.chain?_eq]; rfl, h, rfl⟩
  store_eq {ledger unit rulings r _ _} _ h hview hdecide := by
    obtain ⟨unit', hstore, hreadable, hreplay⟩ := h.1.store hview hdecide
    refine ⟨unit', hstore, hreadable, ?_⟩
    rw [Contents.replay?_append, h.2]
    exact hreplay
  commit_ok {ledger _ unit _} hreadable h hcommit := by
    obtain rfl := (Prod.mk.inj hcommit).2
    exact ⟨⟨hreadable.1, h.1⟩, h.2⟩
  commit_error hcommit := absurd (Prod.mk.inj hcommit).1 (by simp)
  accounts_of_replay {ledger ledger' _ _ _} hothers h hreplay := by
    obtain rfl := hothers.resolve_left fun hside => absurd hside.1 (by decide)
    have hsame : ledger.tables.contents = ledger'.tables.contents := Option.some.inj hreplay
    exact hsame ▸ h
  Leaves id chain unit := unit.Readable ∧ unit.contents id = some chain
  keeps_closed {id chain} hnone :=
    { openUnit := fun {ledger unit} h hopen => by
        have hopen : openTables ledger = .ok unit := hopen
        rw [openTables, if_pos h.1.1, Except.ok.injEq] at hopen
        exact hopen ▸ ⟨h.1.2, h.2⟩
      load := fun _ _ h => h
      store := fun {_ unit unit' command pattern today other record} _ h hload hdecide => by
        have hload : (answer (unit.chain? command.applicationId), unit) = (.ok (some other), unit') := hload
        rw [h.1.chain?_eq, Prod.mk.injEq] at hload
        obtain ⟨hother, rfl⟩ := hload
        exact h.1.store_closed h.2 hnone (r := command.ruling pattern today) (Except.ok.inj hother) hdecide
      commit := fun {ledger unit} hledger h => ⟨⟨hledger.1.1, h.1⟩, h.2⟩ }

end SignOff.Ledger
