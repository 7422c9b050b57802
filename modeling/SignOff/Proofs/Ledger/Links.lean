import SignOff.Proofs.Approval.Blocks
import SignOff.Proofs.Ledger.Office
import SignOff.Proofs.Store.Kept

/-!
# Links over runs

Submissions add links and nothing else does: a unit takes the links of its ledger over and gives them back as
they were. So the links of a ledger that started without rows are those of the submissions it has taken, one for
each that is about a record, numbered in their order. Every link leads to a header.
-/

namespace SignOff.Ledger

namespace Tables

variable {t t' : Tables}

/-- Writing a header leaves the links alone. -/
theorem links_writeHeader {record : Record} (h : t.writeHeader record = some t') : t'.links = t.links := by
  unfold writeHeader at h
  dsimp only at h
  split at h
  · cases h
    rfl
  · contradiction

/-- Writing a decision leaves the links alone. -/
theorem links_writeDecision {s : Step} {d : Decision} (h : t.writeDecision s d = some t') :
    t'.links = t.links := by
  unfold writeDecision at h
  dsimp only at h
  split at h
  · cases h
    rfl
  · contradiction

/-- Decisions written onto steps leave the links alone, whether all of them could be written or not. -/
theorem links_writeDecisions (t : Tables) (steps : List Step) : (t.writeDecisions steps).2.links = t.links := by
  induction steps generalizing t with
  | nil => rfl
  | cons s rest ih =>
    unfold writeDecisions
    cases s.decision with
    | none => exact ih t
    | some d =>
      simp only
      cases hwrite : t.writeDecision s d with
      | none => rfl
      | some t' => exact (ih t').trans (links_writeDecision hwrite)

/-- A record leaves the links alone, be it taken in or turned down half-way. -/
theorem links_store (t : Tables) (record : Record) : (t.store record).2.links = t.links := by
  unfold store
  cases hwrite : t.writeHeader record with
  | none => rfl
  | some t' =>
    have hdecisions := t'.links_writeDecisions record.decidedSteps
    simp only
    rcases hwritten : t'.writeDecisions record.decidedSteps with ⟨_ | _, t''⟩ <;>
    · rw [hwritten] at hdecisions
      exact hdecisions.trans (links_writeHeader hwrite)

end Tables

/-- Work in units leaves the links alone. -/
theorem keeps_links (links : List LinkRow) :
    UnitStore.Keeps (fun ledger : Ledger => ledger.tables.links = links)
      fun t : Tables => t.links = links where
  openUnit {ledger t} h hopen := by
    change ledger.openTables = .ok t at hopen
    unfold openTables at hopen
    split at hopen
    · cases hopen
      exact h
    · contradiction
  load _ _ h := h
  store {_ t t' _ _ _ _ record} _ h hload _ := by
    obtain rfl : t = t' := congrArg Prod.snd hload
    exact (t.links_store record).trans h
  commit _ h := h

/-- The record that a submission is about, as the ledger keeps it. -/
def Taken.record? (taken : Taken) : Option Origin :=
  taken.submission.origin.map fun o => { o with tableCode := Text.trim o.tableCode }

/-- The links of submissions of which those before have got the numbers up to `count`. -/
def linksFrom : Nat → List Taken → List LinkRow
  | _, [] => []
  | count, taken :: rest =>
    match taken.record? with
    | none => linksFrom count rest
    | some o => ⟨count + 1, taken.id, o⟩ :: linksFrom (count + 1) rest

section LinksFrom

variable {count : Nat} {taken : List Taken}

/-- There is a link for every submission that is about a record. -/
theorem length_linksFrom (count : Nat) (taken : List Taken) :
    (linksFrom count taken).length = (taken.filter fun t => t.submission.origin.isSome).length := by
  induction taken generalizing count with
  | nil => rfl
  | cons first rest ih => cases horigin : first.submission.origin <;> simp [linksFrom, Taken.record?, horigin, ih]

/-- Later submissions are numbered on. -/
theorem linksFrom_append (count : Nat) (earlier later : List Taken) :
    linksFrom count (earlier ++ later) =
      linksFrom count earlier ++ linksFrom (count + (linksFrom count earlier).length) later := by
  induction earlier generalizing count with
  | nil => rfl
  | cons first rest ih =>
    cases hrecord : first.record? with
    | none => simp only [List.cons_append, linksFrom, hrecord, ih]
    | some o =>
      simp only [List.cons_append, linksFrom, hrecord, ih, List.length_cons]
      rw [Nat.add_right_comm, Nat.add_assoc]

/-- Links of a record come from submissions about it. -/
theorem exists_taken_of_mem_linksFrom {row : LinkRow} (h : row ∈ linksFrom count taken) :
    ∃ t ∈ taken, t.id = row.applicationId ∧ t.record? = some row.origin := by
  induction taken generalizing count with
  | nil => simp [linksFrom] at h
  | cons first rest ih =>
    have hlater : ∀ {count}, row ∈ linksFrom count rest →
        ∃ t ∈ first :: rest, t.id = row.applicationId ∧ t.record? = some row.origin := by
      intro count hrow
      obtain ⟨t, ht, hrow⟩ := ih hrow
      exact ⟨t, List.mem_cons_of_mem _ ht, hrow⟩
    cases hrecord : first.record? with
    | none =>
      simp only [linksFrom, hrecord] at h
      exact hlater h
    | some o =>
      simp only [linksFrom, hrecord] at h
      rcases List.mem_cons.1 h with rfl | hrest
      · exact ⟨first, List.mem_cons_self, rfl, hrecord⟩
      · exact hlater hrest

/-- Every submission about a record has a link. -/
theorem exists_link_of_mem {t : Taken} (ht : t ∈ taken) {o : Origin} (ho : t.record? = some o) (count : Nat) :
    ∃ number, ⟨number, t.id, o⟩ ∈ linksFrom count taken := by
  obtain ⟨earlier, later, rfl⟩ := List.append_of_mem ht
  rw [linksFrom_append]
  simp only [linksFrom, ho]
  exact ⟨_, List.mem_append_right _ List.mem_cons_self⟩

end LinksFrom

namespace Office

variable {office : Office}

/-- The ledger has the links of the submissions, and so have all units that have not been overtaken. -/
def Linked (office : Office) : Prop :=
  office.desk.Has (fun ledger => ledger.tables.links = linksFrom 0 office.taken)
    fun t => t.links = linksFrom 0 office.taken

/-- An office that starts without rows has no links. -/
theorem linked_start : start.Linked := ⟨rfl, by simp [start, Desk.ofStore]⟩

/-- A submission adds its link at the end. -/
theorem Linked.submit (h : office.Linked) (id : String) (s : Submission) (today : Date) :
    (office.take ⟨id, s, today⟩
      { office.desk.store with tables := office.desk.store.tables.submit id s today }).Linked := by
  have hlinks : (office.desk.store.tables.submit id s today).links =
      linksFrom 0 (office.taken ++ [⟨id, s, today⟩]) := by
    rw [linksFrom_append, ← h.store, Tables.submit]
    cases horigin : s.origin <;> simp [linksFrom, Taken.record?, horigin]
  refine ⟨hlinks, fun name w hname hcurrent => ?_⟩
  simp [Desk.overtaken_of_lookup rfl hname] at hcurrent

/-- Every event keeps the links those of the submissions. -/
theorem Linked.step (h : office.Linked) (policy : Policy) (event : Event) : (office.step policy event).Linked := by
  cases event with
  | work op => exact Desk.Has.step h (keeps_links _) policy op
  | submit id s today =>
    by_cases htakes : office.desk.store.Takes id s
    · rw [step_submit office policy htakes]
      exact h.submit id s today
    · obtain ⟨refusal, hrefused⟩ := submit_of_not_takes htakes today
      simp only [Office.step, hrefused]
      exact h

/-- Every run keeps the links those of the submissions. -/
theorem Linked.run (h : office.Linked) (policy : Policy) (events : List Event) :
    (office.run policy events).Linked := by
  induction events generalizing office with
  | nil => exact h
  | cons event rest ih => exact ih (h.step policy event)

/-- A rejection of the application has been committed. -/
def Rejected (office : Office) (id : String) : Prop :=
  ∃ r ∈ Ruling.on id office.desk.committed, r.command.outcome = .rejected

/-- What the ledger has of a submission: a header, which says whether it has been rejected. -/
theorem Accountable.header_of_mem (h : office.Accountable) {taken : Taken} (htaken : taken ∈ office.taken) :
    ∃ header chain, office.desk.store.tables.header? taken.id = some header ∧
      header.application = .ok chain.application ∧
      office.desk.store.view taken.id = .ok (some chain) ∧
      (header.status = .rejected ↔ office.Rejected taken.id) := by
  obtain ⟨chain, hcontents, hreplay⟩ := h.contents_of_mem htaken
  have hreadable := h.consistent.readable
  have hread := hreadable.2.chain?_eq taken.id
  rw [hcontents] at hread
  obtain ⟨header, hheader, happlication, -⟩ := Tables.chain?_eq_some_iff.1 hread
  have hstatus : header.status = chain.application.status :=
    congrArg HeaderRow.status (HeaderRow.application_eq_ok_iff.1 happlication).2
  refine ⟨header, chain, hheader, happlication, ?_, ?_⟩
  · rw [view_of_readable hreadable, hcontents]
  · obtain ⟨hvalid, hfew⟩ := h.taken_fit taken htaken
    have hsound : taken.chain.Sound :=
      Submission.sound_chain (Submission.approvers_of_validate hvalid).1 hfew
    rw [hstatus]
    rcases Chain.rulings_of_replay hreplay with happroved | ⟨approvals, r, hrulings, happroved, hrejected⟩
    · have hform := (Submission.approved_of_replay hsound hfew hreplay happroved).status
      constructor
      · intro hstatus
        rw [hstatus] at hform
        split at hform <;> contradiction
      · intro hoffice
        obtain ⟨r, hr, hrejected⟩ := hoffice
        simp [happroved r hr] at hrejected
    · have hlast : r ∈ Ruling.on taken.id office.desk.committed := by simp [hrulings]
      rw [hrulings] at hreplay
      have hform := Submission.rejected_of_replay hfew hreplay happroved hrejected
      exact iff_of_true hform.status ⟨r, hlast, hrejected⟩

end Office

end SignOff.Ledger
