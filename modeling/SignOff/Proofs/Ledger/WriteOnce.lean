import SignOff.Ledger.Register
import SignOff.Proofs.Ledger.Recording

/-!
# Decisions are written once

A record need not be what some chain has just decided: it may be out of date, belong to another chain, name a
sequence twice or be put together by hand. Whatever it says, no row that has been decided is written again, and
no row changes in anything but its decision. A record is taken in exactly when its header is in the expected
version and its decisions fall on open steps, each on another one, and then those steps hold these decisions.
-/

namespace SignOff.Ledger

/-- What writing a decision leaves of a row: all of it if the row has been decided before. -/
structure StepRow.Keeps (row after : StepRow) : Prop where
  applicationId : after.applicationId = row.applicationId
  sequence : after.sequence = row.sequence
  approver : after.approver = row.approver
  isFinal : after.isFinal = row.isFinal
  eq_of_decided : row.isDecided = true → after = row

namespace StepRow

/-- A row keeps itself. -/
theorem Keeps.refl (row : StepRow) : row.Keeps row := ⟨rfl, rfl, rfl, rfl, fun _ => rfl⟩

/-- What keeps a row that keeps an earlier one keeps the earlier one. -/
theorem Keeps.trans {first second third : StepRow} (h : first.Keeps second) (h' : second.Keeps third) :
    first.Keeps third where
  applicationId := h'.applicationId.trans h.applicationId
  sequence := h'.sequence.trans h.sequence
  approver := h'.approver.trans h.approver
  isFinal := h'.isFinal.trans h.isFinal
  eq_of_decided hdecided := by
    obtain rfl := h.eq_of_decided hdecided
    exact h'.eq_of_decided hdecided

/-- An open row may get a decision. -/
theorem keeps_decide {row : StepRow} (hopen : row.isDecided = false) (d : Decision) : row.Keeps (row.decide d) :=
  ⟨rfl, rfl, rfl, rfl, fun hdecided => by simp [hopen] at hdecided⟩

/-- A row with a decision is read as decided so. -/
theorem decision_decide (row : StepRow) (d : Decision) (n : Nat) : (row.decide d).decision n = .ok (some d) := by
  simp [StepRow.decision, StepRow.decide]

end StepRow

/-- The keys of the rows that steps with decisions fall on. -/
def decidedKeys (steps : List Step) : List (String × Nat) :=
  (steps.filter fun s => s.decision.isSome).map fun s => (s.applicationId, s.sequence)

/-- A step without a decision adds no key. -/
theorem decidedKeys_cons_none {s : Step} (h : s.decision = none) (rest : List Step) :
    decidedKeys (s :: rest) = decidedKeys rest := by
  simp [decidedKeys, h]

/-- A step with a decision adds its key in front. -/
theorem decidedKeys_cons_some {s : Step} {d : Decision} (h : s.decision = some d) (rest : List Step) :
    decidedKeys (s :: rest) = (s.applicationId, s.sequence) :: decidedKeys rest := by
  simp [decidedKeys, h]

namespace Tables

/-- The row of a step. -/
def step? (t : Tables) (id : String) (sequence : Nat) : Option StepRow :=
  t.steps.find? fun row => row.applicationId = id && row.sequence = .whole sequence

/-- The step rows are those from before, some with a decision that they did not have. -/
def StepsKept (before after : Tables) : Prop := List.Forall₂ StepRow.Keeps before.steps after.steps

variable {t t' : Tables}

/-- The tables keep their own step rows. -/
theorem StepsKept.refl (t : Tables) : t.StepsKept t := List.forall₂_same.2 fun row _ => .refl row

/-- Step rows that are kept twice are kept. -/
theorem StepsKept.trans {first second third : Tables} (h : first.StepsKept second) (h' : second.StepsKept third) :
    first.StepsKept third := forall₂_trans .trans h h'

/-- A row that is found is found later too. -/
theorem StepsKept.step? (h : t.StepsKept t') {id : String} {n : Nat} {row : StepRow}
    (hrow : t.step? id n = some row) : ∃ after, t'.step? id n = some after ∧ row.Keeps after := by
  unfold StepsKept at h
  unfold Tables.step? at hrow ⊢
  generalize t.steps = rows, t'.steps = rows' at h hrow
  induction h with
  | nil => simp at hrow
  | @cons first first' rest rest' hfirst _ ih =>
    rw [List.find?_cons] at hrow ⊢
    rw [hfirst.applicationId, hfirst.sequence]
    split
    · next hkey =>
      simp only [hkey, Option.some.injEq] at hrow
      exact ⟨first', rfl, hrow ▸ hfirst⟩
    · next hkey =>
      simp only [hkey] at hrow
      exact ih hrow

/-- In well-formed tables a row is found under its key. -/
theorem step?_of_mem (hwf : t.WellFormed) {row : StepRow} (hrow : row ∈ t.steps) {id : String} {n : Nat}
    (hid : row.applicationId = id) (hsequence : row.sequence = .whole n) : t.step? id n = some row := by
  unfold step?
  cases hfind : t.steps.find? fun row => row.applicationId = id && row.sequence = .whole n with
  | none => simpa [hid, hsequence] using List.find?_eq_none.1 hfind row hrow
  | some found =>
    have hkey := List.find?_some hfind
    simp only [Bool.and_eq_true, decide_eq_true_eq] at hkey
    rw [row_eq_of_keys hwf hrow (List.mem_of_find?_eq_some hfind) (hid.trans hkey.1.symm)
      (hsequence.trans hkey.2.symm)]

/-- A row that is found is there with its key. -/
theorem of_step? {id : String} {n : Nat} {row : StepRow} (h : t.step? id n = some row) :
    row ∈ t.steps ∧ row.applicationId = id ∧ row.sequence = .whole n := by
  have hkey := List.find?_some h
  simp only [Bool.and_eq_true, decide_eq_true_eq] at hkey
  exact ⟨List.mem_of_find?_eq_some h, hkey⟩

/-! ## One decision -/

section Decision

variable {s : Step} {d : Decision}

/-- A decision is written onto open rows only. -/
theorem stepsKept_writeDecision (h : t.writeDecision s d = some t') : t.StepsKept t' := by
  simp only [writeDecision] at h
  split at h
  · cases h
    refine List.forall₂_map_right_iff.2 (List.forall₂_same.2 fun row _ => ?_)
    split
    · next hfits =>
      simp only [Bool.and_eq_true, Bool.not_eq_true'] at hfits
      exact StepRow.keeps_decide hfits.2 d
    · exact .refl row
  · contradiction

/-- A decision is written exactly when its step is open. -/
theorem writeDecision_eq_some_iff (hwf : t.WellFormed) :
    t.writeDecision s d = some t' ↔
      (∃ row, t.step? s.applicationId s.sequence = some row ∧ row.isDecided = false) ∧
        t' = t.mapRows (fun row => row) fun row => row.take s.applicationId [s.sequence] d := by
  constructor
  · intro h
    have hcount := h
    simp only [writeDecision] at hcount
    split at hcount
    · next hone =>
      obtain ⟨row, hrow, hfits⟩ := List.countP_pos_iff.1 (hone ▸ Nat.one_pos)
      simp only [Bool.and_eq_true, decide_eq_true_eq, Bool.not_eq_true'] at hfits
      obtain ⟨⟨hid, hsequence⟩, hopen⟩ := hfits
      rw [writeDecision_eq hwf hrow hid hsequence hopen, Option.some.injEq] at h
      exact ⟨⟨row, step?_of_mem hwf hrow hid hsequence, hopen⟩, h.symm⟩
    · contradiction
  · rintro ⟨⟨row, hfound, hopen⟩, heq⟩
    obtain ⟨hrow, hid, hsequence⟩ := of_step? hfound
    rw [writeDecision_eq hwf hrow hid hsequence hopen, heq]

/-- What is found after a decision has been written. -/
theorem step?_writeDecision (hwf : t.WellFormed) (h : t.writeDecision s d = some t') (id : String) (n : Nat) :
    t'.step? id n =
      if id = s.applicationId ∧ n = s.sequence then (t.step? id n).map fun row => row.decide d
      else t.step? id n := by
  obtain ⟨-, rfl⟩ := (writeDecision_eq_some_iff hwf).1 h
  have hfind : (t.mapRows (fun row => row) fun row => row.take s.applicationId [s.sequence] d).step? id n =
      (t.step? id n).map fun row => row.take s.applicationId [s.sequence] d := by
    simp only [step?, mapRows, List.find?_map, Function.comp_def, StepRow.keys_take]
  rw [hfind]
  split
  · next hkey =>
    apply Option.map_congr
    intro row hrow
    obtain ⟨-, hid, hsequence⟩ := of_step? hrow
    exact if_pos ⟨hid.trans hkey.1, s.sequence, List.mem_singleton_self _, hkey.2 ▸ hsequence⟩
  · next hkey =>
    cases hrow : t.step? id n with
    | none => rfl
    | some row =>
      obtain ⟨-, hid, hsequence⟩ := of_step? hrow
      refine congrArg some (if_neg ?_)
      rintro ⟨hid', m, hm, hsequence'⟩
      rw [List.mem_singleton] at hm
      rw [hsequence, Cell.whole.injEq, Int.natCast_inj] at hsequence'
      exact hkey ⟨hid.symm.trans hid', hsequence'.trans hm⟩

/-- The tables stay well-formed when a decision is written. -/
theorem wellFormed_writeDecision (hwf : t.WellFormed) (h : t.writeDecision s d = some t') : t'.WellFormed := by
  obtain ⟨-, rfl⟩ := (writeDecision_eq_some_iff hwf).1 h
  exact wellFormed_mapRows hwf (fun _ => rfl) fun row => row.keys_take _ _ _

end Decision

/-! ## One decision after another -/

/-- The decisions of steps fall on open rows, each on another one. -/
structure Admits (t : Tables) (steps : List Step) : Prop where
  isOpen : ∀ key ∈ decidedKeys steps, ∃ row, t.step? key.1 key.2 = some row ∧ row.isDecided = false
  nodup : (decidedKeys steps).Nodup

variable {steps : List Step}

/-- Whether decisions are admitted depends on the rows that are found and on the keys only. -/
theorem admits_iff : t.Admits steps ↔
    (∀ key ∈ decidedKeys steps, ∃ row, t.step? key.1 key.2 = some row ∧ row.isDecided = false) ∧
      (decidedKeys steps).Nodup :=
  ⟨fun h => ⟨h.isOpen, h.nodup⟩, fun h => ⟨h.1, h.2⟩⟩

/-- Decisions are written onto open rows only. -/
theorem stepsKept_writeDecisions (t : Tables) (steps : List Step) : t.StepsKept (t.writeDecisions steps).2 := by
  induction steps generalizing t with
  | nil => exact .refl t
  | cons s rest ih =>
    cases hdecision : s.decision with
    | none =>
      simp only [writeDecisions, hdecision]
      exact ih t
    | some d =>
      cases hwrite : t.writeDecision s d with
      | none =>
        simp only [writeDecisions, hdecision, hwrite]
        exact .refl t
      | some written =>
        simp only [writeDecisions, hdecision, hwrite]
        exact (stepsKept_writeDecision hwrite).trans (ih written)

/-- After a first decision has been written, the others are admitted if they were and fall on other rows. -/
theorem admits_cons_iff (hwf : t.WellFormed) {s : Step} {d : Decision} (hdecision : s.decision = some d)
    (hwrite : t.writeDecision s d = some t') (rest : List Step) : t.Admits (s :: rest) ↔ t'.Admits rest := by
  obtain ⟨hfirst, -⟩ := (writeDecision_eq_some_iff hwf).1 hwrite
  have hfind := step?_writeDecision hwf hwrite
  constructor
  · rintro ⟨hopen, hnodup⟩
    rw [decidedKeys_cons_some hdecision] at hopen hnodup
    rw [List.nodup_cons] at hnodup
    refine ⟨fun key hkey => ?_, hnodup.2⟩
    obtain ⟨row, hrow, hrowOpen⟩ := hopen key (List.mem_cons_of_mem _ hkey)
    have hne : ¬(key.1 = s.applicationId ∧ key.2 = s.sequence) := by
      intro heq
      have hsame : key = (s.applicationId, s.sequence) := Prod.ext heq.1 heq.2
      exact hnodup.1 (hsame ▸ hkey)
    exact ⟨row, by rw [hfind, if_neg hne, hrow], hrowOpen⟩
  · rintro ⟨hopen, hnodup⟩
    -- The row of the first step is decided by now, so an open one is another row and was open before.
    have hbefore : ∀ key ∈ decidedKeys rest, key ≠ (s.applicationId, s.sequence) ∧
        ∃ row, t.step? key.1 key.2 = some row ∧ row.isDecided = false := by
      intro key hkey
      obtain ⟨row, hrow, hrowOpen⟩ := hopen key hkey
      rw [hfind] at hrow
      split at hrow
      · obtain ⟨old, -, rfl⟩ := Option.map_eq_some_iff.1 hrow
        simp [StepRow.decide] at hrowOpen
      · next hne => exact ⟨fun heq => hne (Prod.mk.inj heq), row, hrow, hrowOpen⟩
    refine ⟨fun key hkey => ?_, ?_⟩
    · rw [decidedKeys_cons_some hdecision] at hkey
      rcases List.mem_cons.1 hkey with rfl | hkey
      · exact hfirst
      · exact (hbefore key hkey).2
    · rw [decidedKeys_cons_some hdecision, List.nodup_cons]
      exact ⟨fun hmem => (hbefore _ hmem).1 rfl, hnodup⟩

/-- Decisions are all written exactly when the rows admit them. -/
theorem writeDecisions_fst_iff (hwf : t.WellFormed) (steps : List Step) :
    (t.writeDecisions steps).1 = true ↔ t.Admits steps := by
  induction steps generalizing t with
  | nil => exact iff_of_true rfl ⟨by simp [decidedKeys], List.nodup_nil⟩
  | cons s rest ih =>
    cases hdecision : s.decision with
    | none =>
      simp only [writeDecisions, hdecision]
      rw [ih hwf]
      rw [admits_iff, admits_iff, decidedKeys_cons_none hdecision rest]
    | some d =>
      cases hwrite : t.writeDecision s d with
      | none =>
        simp only [writeDecisions, hdecision, hwrite]
        refine iff_of_false Bool.false_ne_true fun hadmits => ?_
        have hfirst := hadmits.isOpen _ (decidedKeys_cons_some hdecision rest ▸ List.mem_cons_self)
        rw [(writeDecision_eq_some_iff hwf).2 ⟨hfirst, rfl⟩] at hwrite
        contradiction
      | some written =>
        simp only [writeDecisions, hdecision, hwrite]
        rw [admits_cons_iff hwf hdecision hwrite]
        exact ih (wellFormed_writeDecision hwf hwrite)

/-- After all decisions have been written, every step that had one holds it. -/
theorem step?_writeDecisions (hwf : t.WellFormed) (hall : (t.writeDecisions steps).1 = true) {s : Step}
    (hs : s ∈ steps) {d : Decision} (hdecision : s.decision = some d) :
    ∃ row, t.step? s.applicationId s.sequence = some row ∧ row.isDecided = false ∧
      (t.writeDecisions steps).2.step? s.applicationId s.sequence = some (row.decide d) := by
  induction steps generalizing t with
  | nil => simp at hs
  | cons first rest ih =>
    unfold writeDecisions at hall ⊢
    cases hfirst : first.decision with
    | none =>
      simp only [hfirst] at hall
      rcases List.mem_cons.1 hs with rfl | hs
      · simp [hfirst] at hdecision
      · exact ih hwf hall hs
    | some d' =>
      simp only [hfirst] at hall
      cases hwrite : t.writeDecision first d' with
      | none => simp [hwrite] at hall
      | some written =>
        simp only [hwrite] at hall ⊢
        have hfind := step?_writeDecision hwf hwrite
        rcases List.mem_cons.1 hs with rfl | hs
        · obtain rfl : d' = d := Option.some.inj (hfirst.symm.trans hdecision)
          obtain ⟨⟨row, hrow, hopen⟩, -⟩ := (writeDecision_eq_some_iff hwf).1 hwrite
          have hnow : written.step? s.applicationId s.sequence = some (row.decide d') := by
            rw [hfind, if_pos ⟨rfl, rfl⟩, hrow, Option.map_some]
          obtain ⟨after, hafter, hkeeps⟩ := (stepsKept_writeDecisions written rest).step? hnow
          exact ⟨row, hrow, hopen, by rw [hafter, hkeeps.eq_of_decided rfl]⟩
        · obtain ⟨row, hrow, hopen, hafter⟩ := ih (wellFormed_writeDecision hwf hwrite) hall hs
          rw [hfind] at hrow
          split at hrow
          · obtain ⟨old, -, rfl⟩ := Option.map_eq_some_iff.1 hrow
            simp [StepRow.decide] at hopen
          · exact ⟨row, hrow, hopen, hafter⟩

/-! ## Whole records -/

variable {record : Record}

/-- The header of the record's application is in the version that the record expects. -/
def InVersion (t : Tables) (record : Record) : Prop :=
  ∃ header, t.header? record.chain.application.id = some header ∧ header.version = .whole record.expectedVersion

/-- A header is written exactly when it is in the expected version. -/
theorem writeHeader_eq_some_iff (hwf : t.WellFormed) :
    t.writeHeader record = some t' ↔
      t.InVersion record ∧ t' = t.mapRows (fun row => row.take record.chain.application) fun row => row := by
  constructor
  · intro h
    have hany := h
    simp only [writeHeader] at hany
    split at hany
    · next hfits =>
      obtain ⟨header, hheader, hfits⟩ := List.any_eq_true.1 hfits
      simp only [Bool.and_eq_true, decide_eq_true_eq] at hfits
      obtain ⟨hid, hversion⟩ := hfits
      have hfound : t.header? record.chain.application.id = some header := by
        cases hfind : t.header? record.chain.application.id with
        | none => exact absurd (hid ▸ List.mem_map_of_mem hheader) (header?_eq_none_iff.1 hfind)
        | some found =>
          rw [List.inj_on_of_nodup_map hwf.1 (List.mem_of_find?_eq_some hfind) hheader
            ((id_of_header? hfind).trans hid.symm)]
      rw [writeHeader_eq hwf hfound hversion, Option.some.injEq] at h
      exact ⟨⟨header, hfound, hversion⟩, h.symm⟩
    · contradiction
  · rintro ⟨⟨header, hheader, hversion⟩, heq⟩
    rw [writeHeader_eq hwf hheader hversion, heq]

/-- A header that is written leaves the steps alone. -/
theorem of_writeHeader (hwf : t.WellFormed) (h : t.writeHeader record = some t') :
    t.InVersion record ∧ t'.WellFormed ∧ t'.steps = t.steps := by
  obtain ⟨hversion, rfl⟩ := (writeHeader_eq_some_iff hwf).1 h
  exact ⟨hversion, wellFormed_mapRows hwf (fun row => row.id_take _) fun _ => ⟨rfl, rfl⟩, List.map_id' _⟩

/-- A record whose header is in another version is turned down at once. -/
theorem store_of_not_inVersion (hwf : t.WellFormed) (h : ¬t.InVersion record) :
    t.store record = (.error (.concurrentModification record.chain.application.id), t) := by
  cases hwrite : t.writeHeader record with
  | none => simp only [store, hwrite]
  | some written => exact absurd (of_writeHeader hwf hwrite).1 h

/-- What a record does after its header has been written. -/
theorem store_of_writeHeader (h : t.writeHeader record = some t') :
    t.store record =
      (if (t'.writeDecisions record.decidedSteps).1 then .ok ()
        else .error (.concurrentModification record.chain.application.id),
        (t'.writeDecisions record.decidedSteps).2) := by
  simp only [store, h]
  rcases t'.writeDecisions record.decidedSteps with ⟨_ | _, written⟩ <;> rfl

/-- A record whose header is in the expected version is stored after its header has been written. -/
theorem store_of_inVersion (hwf : t.WellFormed) (h : t.InVersion record) :
    ∃ headed : Tables, headed.WellFormed ∧ headed.steps = t.steps ∧
      t.store record =
        (if (headed.writeDecisions record.decidedSteps).1 then .ok ()
          else .error (.concurrentModification record.chain.application.id),
          (headed.writeDecisions record.decidedSteps).2) := by
  have hwrite := (writeHeader_eq_some_iff hwf).2 ⟨h, rfl⟩
  obtain ⟨-, hwf', hsteps⟩ := of_writeHeader hwf hwrite
  exact ⟨_, hwf', hsteps, store_of_writeHeader hwrite⟩

/-- In the same step rows the same steps are found. -/
theorem step?_congr (h : t'.steps = t.steps) : t'.step? = t.step? := by
  unfold step?
  rw [h]

/-- The same step rows admit the same decisions. -/
theorem admits_congr (h : t'.steps = t.steps) (steps : List Step) : t'.Admits steps ↔ t.Admits steps := by
  rw [admits_iff, admits_iff, step?_congr h]

/-- No record writes onto a row that has been decided, not even one that is turned down half way. -/
theorem stepsKept_store (hwf : t.WellFormed) (record : Record) : t.StepsKept (t.store record).2 := by
  by_cases h : t.InVersion record
  · obtain ⟨headed, -, hsteps, hstore⟩ := store_of_inVersion hwf h
    have hkept := stepsKept_writeDecisions headed record.decidedSteps
    rw [StepsKept, hsteps] at hkept
    rw [hstore]
    exact hkept
  · rw [store_of_not_inVersion hwf h]
    exact .refl t

/-- A record is taken in exactly when its header is in the expected version and the rows admit its decisions. -/
theorem store_fst_iff (hwf : t.WellFormed) (record : Record) :
    (t.store record).1 = .ok () ↔ t.InVersion record ∧ t.Admits record.decidedSteps := by
  by_cases h : t.InVersion record
  · obtain ⟨headed, hwf', hsteps, hstore⟩ := store_of_inVersion hwf h
    rw [hstore, and_iff_right h, ← admits_congr hsteps, ← writeDecisions_fst_iff hwf']
    split <;> simp_all
  · rw [store_of_not_inVersion hwf h]
    exact iff_of_false (by simp) fun hboth => h hboth.1

/-- A record that is not taken in is turned down on account of another change. -/
theorem store_fst_cases (hwf : t.WellFormed) (record : Record) :
    (t.store record).1 = .ok () ∨
      (t.store record).1 = .error (.concurrentModification record.chain.application.id) := by
  by_cases h : t.InVersion record
  · obtain ⟨headed, -, -, hstore⟩ := store_of_inVersion hwf h
    rw [hstore]
    split
    · exact Or.inl rfl
    · exact Or.inr rfl
  · rw [store_of_not_inVersion hwf h]
    exact Or.inr rfl

/-- After a record has been taken in, every decided step that has a decision holds it. -/
theorem step?_store (hwf : t.WellFormed) (hok : (t.store record).1 = .ok ()) {s : Step}
    (hs : s ∈ record.decidedSteps) {d : Decision} (hdecision : s.decision = some d) :
    ∃ row, t.step? s.applicationId s.sequence = some row ∧ row.isDecided = false ∧
      (t.store record).2.step? s.applicationId s.sequence = some (row.decide d) := by
  obtain ⟨hversion, hadmits⟩ := (store_fst_iff hwf record).1 hok
  obtain ⟨headed, hwf', hsteps, hstore⟩ := store_of_inVersion hwf hversion
  have hall := (writeDecisions_fst_iff hwf' _).2 ((admits_congr hsteps _).2 hadmits)
  obtain ⟨row, hrow, hopen, hafter⟩ := step?_writeDecisions hwf' hall hs hdecision
  exact ⟨row, step?_congr hsteps ▸ hrow, hopen, hstore ▸ hafter⟩

end Tables

/-- The ledger after a unit on it has been ended; one that is rolled back leaves nothing behind. -/
def ended (ledger : Ledger) (unit : Tables) (isCommitted : Bool) : Ledger :=
  if isCommitted then (UnitStore.commit ledger unit).2 else ledger

/-- Whatever record is stored on well-formed tables, and however the unit is ended, no row that was decided
changes, and no row changes in its approver, sequence or final mark. The record is taken in exactly when its
header is in the expected version and its decisions fall on open steps, each on another one; then those steps
hold these decisions. In every other case it is turned down, and work that is turned down leaves the ledger alone. -/
theorem decisions_written_once {t : Tables} (hwf : t.WellFormed) (record : Record) :
    let ledger : Ledger := ⟨t, true⟩
    let stored := UnitStore.store ledger t record
    (∀ isCommitted, t.StepsKept (ledger.ended stored.2 isCommitted).tables) ∧
    (stored.1 = .ok () ↔ t.InVersion record ∧ t.Admits record.decidedSteps) ∧
    (stored.1 = .ok () → ∀ s ∈ record.decidedSteps, ∀ d, s.decision = some d →
      ∃ row after, t.step? s.applicationId s.sequence = some row ∧ row.isDecided = false ∧
        stored.2.step? s.applicationId s.sequence = some after ∧ after.decision s.sequence = .ok (some d)) ∧
    (stored.1 ≠ .ok () → stored.1 = .error (.concurrentModification record.chain.application.id) ∧
      ledger.ended stored.2 false = ledger ∧
      UnitStore.inUnit ledger (fun unit => UnitStore.store ledger unit record) =
        (.error (.concurrentModification record.chain.application.id), ledger)) := by
  intro ledger stored
  have hstored : stored = t.store record := rfl
  refine ⟨fun isCommitted => ?_, Tables.store_fst_iff hwf record, fun hok s hs d hdecision => ?_, fun hrefused => ?_⟩
  · cases isCommitted with
    | false => exact .refl t
    | true => exact Tables.stepsKept_store hwf record
  · obtain ⟨row, hrow, hopen, hafter⟩ := Tables.step?_store hwf hok hs hdecision
    exact ⟨row, row.decide d, hrow, hopen, hafter, row.decision_decide d _⟩
  · have hconflict := (Tables.store_fst_cases hwf record).resolve_left hrefused
    refine ⟨hconflict, rfl, ?_⟩
    have hopen : UnitStore.openUnit ledger = .ok t := rfl
    have hunit : UnitStore.store ledger t record =
        (.error (.concurrentModification record.chain.application.id), stored.2) := Prod.ext hconflict rfl
    simp only [UnitStore.inUnit, hopen, hunit]

/-- A record put together by hand: it names a step twice, once without a decision, and decides a step of another
application, while the tables hold a decided step and one with stale columns. -/
theorem decisions_written_once_of_foreign_step :
    let t : Tables := {
      headers := [⟨"7", none, none, .pending, "kim", "soon", none, .whole 5⟩,
        ⟨"8", none, none, .approved, "kim", "1970-01-01", none, .whole 0⟩]
      steps := [⟨"7", .whole 1, "lee", true, some "never", none, none, false⟩,
        ⟨"7", .whole 2, "kim", false, some "soon", some "old", some .rejected, true⟩,
        ⟨"8", .whole 1, "park", false, none, none, none, true⟩]
      links := [] }
    let d : Decision := ⟨.approved, Date.epoch, none⟩
    let record : Record := ⟨⟨⟨"7", none, none, .rejected, "nobody", Date.epoch, none, 9⟩,
      [⟨"7", 2, "nobody", some d, false⟩, ⟨"8", 1, "nobody", some d, false⟩, ⟨"7", 2, "nobody", none, false⟩]⟩,
      5, [2, 1, 1], .skipped⟩
    t.WellFormed ∧ (t.store record).1 = .ok () ∧ t.StepsKept (t.store record).2 ∧
      ∃ row after, t.step? "8" 1 = some row ∧ row.isDecided = false ∧
        (t.store record).2.step? "8" 1 = some after ∧ after.decision 1 = .ok (some d) := by
  intro t d record
  have hwf : t.WellFormed := by decide +kernel
  have hok : (t.store record).1 = .ok () := by decide +kernel
  obtain ⟨hkept, -, hholds, -⟩ := decisions_written_once hwf record
  exact ⟨hwf, hok, hkept true, hholds hok ⟨"8", 1, "nobody", some d, false⟩ (by decide +kernel) d rfl⟩

end SignOff.Ledger
