import SignOff.Proofs.Ledger.Links

/-!
# Looking up records

After any run the ledger answers for a record from the submissions about it that it has taken: the latest of them
with its application as it is now, and whether one of them has not been rejected. A submission is kept under
its table code without the white space around it, and looked up under the code as it is asked for.
-/

namespace SignOff.Ledger

namespace Tables

variable {t : Tables} {origin : Origin}

/-- The links of a record with their headers. -/
theorem mem_linked_iff {row : LinkRow} {header : HeaderRow} :
    (row, header) ∈ t.linked origin ↔
      row ∈ t.links ∧ row.origin = origin ∧ t.header? row.applicationId = some header := by
  simp only [linked, List.mem_filterMap, List.mem_filter, decide_eq_true_eq, Option.map_eq_some_iff,
    Prod.mk.injEq]
  constructor
  · intro h
    obtain ⟨found, ⟨hlink, horigin⟩, found', hheader, rfl, rfl⟩ := h
    exact ⟨hlink, horigin, hheader⟩
  · intro h
    obtain ⟨hlink, horigin, hheader⟩ := h
    exact ⟨row, ⟨hlink, horigin⟩, header, hheader, rfl, rfl⟩

/-- The last link of a record is followed by links of others only. -/
theorem getLast?_linked {before after : List LinkRow} {row : LinkRow} {header : HeaderRow}
    (hlinks : t.links = before ++ row :: after) (horigin : row.origin = origin)
    (hafter : ∀ other ∈ after, other.origin ≠ origin)
    (hheader : t.header? row.applicationId = some header) :
    (t.linked origin).getLast? = some (row, header) := by
  have hnone : after.filter (fun other => other.origin = origin) = [] := by
    rw [List.filter_eq_nil_iff]
    simpa using hafter
  simp [linked, hlinks, List.filter_append, horigin, hnone, hheader]

end Tables

section Open

variable {ledger : Ledger} (hopen : ledger.isOpen = true) (origin : Origin)
include hopen

/-- A record without links has no latest application. -/
theorem latest_eq_none (h : ledger.tables.linked origin = []) : ledger.latest origin = .ok none := by
  simp [latest, openTables, hopen, h, bind, Except.bind, pure, Except.pure]

/-- The latest application of a record is that of its last link. -/
theorem latest_eq_some {row : LinkRow} {header : HeaderRow} {a : Application}
    (h : (ledger.tables.linked origin).getLast? = some (row, header)) (ha : header.application = .ok a) :
    ledger.latest origin = .ok (some (row.link, a)) := by
  simp [latest, openTables, hopen, h, ha, answer, bind, Except.bind, pure, Except.pure]

/-- A record is active when the header of one of its links is not rejected. -/
theorem isActive_eq :
    ledger.isActive origin =
      .ok ((ledger.tables.linked origin).any fun (_, header) => header.status ≠ .rejected) := by
  simp [isActive, openTables, hopen, bind, Except.bind, pure, Except.pure]

end Open

namespace Office

variable {office : Office} {origin : Origin}

/-- What the ledger finds for a record was submitted for it. -/
theorem exists_taken_of_mem_linked (hlinked : office.Linked) {row : LinkRow} {header : HeaderRow}
    (h : (row, header) ∈ office.desk.store.tables.linked origin) :
    ∃ taken ∈ office.taken, taken.record? = some origin ∧
      office.desk.store.tables.header? taken.id = some header := by
  obtain ⟨hlink, rfl, hheader⟩ := Tables.mem_linked_iff.1 h
  rw [hlinked.store] at hlink
  obtain ⟨taken, htaken, hid, hrecord⟩ := exists_taken_of_mem_linksFrom hlink
  exact ⟨taken, htaken, hrecord, hid ▸ hheader⟩

/-- What was submitted for a record is found for it. -/
theorem exists_linked_of_mem (hlinked : office.Linked) {taken : Taken} (htaken : taken ∈ office.taken)
    (hrecord : taken.record? = some origin) {header : HeaderRow}
    (hheader : office.desk.store.tables.header? taken.id = some header) :
    ∃ row, (row, header) ∈ office.desk.store.tables.linked origin := by
  obtain ⟨number, hlink⟩ := exists_link_of_mem htaken hrecord 0
  exact ⟨_, Tables.mem_linked_iff.2 ⟨hlinked.store ▸ hlink, rfl, hheader⟩⟩

/-- Nothing is found for a record that nothing was submitted for. -/
theorem linked_eq_nil (hlinked : office.Linked) (hnone : ∀ taken ∈ office.taken, taken.record? ≠ some origin) :
    office.desk.store.tables.linked origin = [] := by
  apply List.eq_nil_iff_forall_not_mem.2
  intro ⟨row, header⟩ hmem
  obtain ⟨taken, htaken, hrecord, -⟩ := exists_taken_of_mem_linked hlinked hmem
  exact hnone taken htaken hrecord

/-- The last submission about a record is found with its number and its application. -/
theorem Accountable.latest_of_last (h : office.Accountable) (hlinked : office.Linked)
    {earlier later : List Taken} {taken : Taken} (htaken : office.taken = earlier ++ taken :: later)
    (hrecord : taken.record? = some origin) (hlast : ∀ other ∈ later, other.record? ≠ some origin) :
    ∃ chain, office.desk.store.view taken.id = .ok (some chain) ∧
      office.desk.store.latest origin = .ok (some
        (⟨OriginLink.idOf ((earlier.filter fun t => t.submission.origin.isSome).length + 1), taken.id,
          origin.tableCode, origin.key, origin.subSequence⟩, chain.application)) := by
  have hmem : taken ∈ office.taken := htaken ▸ List.mem_append_right _ List.mem_cons_self
  obtain ⟨header, chain, hheader, happlication, hview, -⟩ := h.header_of_mem hmem
  have hlinks : office.desk.store.tables.links = linksFrom 0 earlier ++
      ⟨(linksFrom 0 earlier).length + 1, taken.id, origin⟩ ::
        linksFrom ((linksFrom 0 earlier).length + 1) later := by
    rw [hlinked.store, htaken, linksFrom_append]
    simp only [linksFrom, hrecord, Nat.zero_add]
  have hothers : ∀ row ∈ linksFrom ((linksFrom 0 earlier).length + 1) later, row.origin ≠ origin := by
    intro row hrow heq
    obtain ⟨other, hother, -, horigin⟩ := exists_taken_of_mem_linksFrom hrow
    exact hlast other hother (heq ▸ horigin)
  have hfound := Tables.getLast?_linked hlinks rfl hothers hheader
  refine ⟨chain, hview, ?_⟩
  rw [latest_eq_some h.consistent.readable.1 origin hfound happlication, length_linksFrom]
  rfl

/-- Of the submissions about a record there is a last one, if there is any. -/
theorem exists_last {taken : List Taken} (h : ∃ t ∈ taken, t.record? = some origin) :
    ∃ earlier last later, taken = earlier ++ last :: later ∧ last.record? = some origin ∧
      ∀ other ∈ later, other.record? ≠ some origin := by
  induction taken with
  | nil => simp at h
  | cons first rest ih =>
    by_cases hrest : ∃ t ∈ rest, t.record? = some origin
    · obtain ⟨earlier, last, later, rfl, hlast⟩ := ih hrest
      exact ⟨first :: earlier, last, later, rfl, hlast⟩
    · have hnone : ∀ other ∈ rest, other.record? ≠ some origin := fun other hother heq =>
        hrest ⟨other, hother, heq⟩
      obtain ⟨t, ht, hrecord⟩ := h
      rcases List.mem_cons.1 ht with rfl | ht
      · exact ⟨[], t, rest, rfl, hrecord, hnone⟩
      · exact absurd hrecord (hnone t ht)

/-- Something is found for a record exactly when something was submitted for it. -/
theorem Accountable.latest_eq_none_iff (h : office.Accountable) (hlinked : office.Linked) :
    office.desk.store.latest origin = .ok none ↔ ∀ taken ∈ office.taken, taken.record? ≠ some origin := by
  constructor
  · intro hnone taken htaken hrecord
    obtain ⟨earlier, last, later, hsplit, hlast, hlater⟩ := exists_last ⟨taken, htaken, hrecord⟩
    obtain ⟨chain, -, hlatest⟩ := h.latest_of_last hlinked hsplit hlast hlater
    simp [hnone] at hlatest
  · intro hnone
    exact latest_eq_none h.consistent.readable.1 origin (linked_eq_nil hlinked hnone)

/-- A record is active exactly when some application for it has not been rejected. -/
theorem Accountable.isActive_eq_ok_iff (h : office.Accountable) (hlinked : office.Linked) (origin : Origin) :
    ∃ active, office.desk.store.isActive origin = .ok active ∧ (active = true ↔
      ∃ taken ∈ office.taken, taken.record? = some origin ∧ ¬office.Rejected taken.id) := by
  refine ⟨_, isActive_eq h.consistent.readable.1 origin, ?_⟩
  simp only [List.any_eq_true, Prod.exists, decide_eq_true_eq]
  constructor
  · intro hactive
    obtain ⟨row, header, hmem, hstatus⟩ := hactive
    obtain ⟨taken, htaken, hrecord, hheader⟩ := exists_taken_of_mem_linked hlinked hmem
    obtain ⟨header', -, hheader', -, -, hrejected⟩ := h.header_of_mem htaken
    obtain rfl : header = header' := Option.some.inj (hheader.symm.trans hheader')
    exact ⟨taken, htaken, hrecord, fun hoffice => hstatus (hrejected.2 hoffice)⟩
  · intro hopen
    obtain ⟨taken, htaken, hrecord, hoffice⟩ := hopen
    obtain ⟨header, -, hheader, -, -, hrejected⟩ := h.header_of_mem htaken
    obtain ⟨row, hmem⟩ := exists_linked_of_mem hlinked htaken hrecord hheader
    exact ⟨row, header, hmem, fun hstatus => hoffice (hrejected.1 hstatus)⟩

/-- A table code with white space around it is never kept. -/
theorem record?_ne_of_padded {o : Origin} (h : Text.trim o.tableCode ≠ o.tableCode) (taken : Taken) :
    taken.record? ≠ some o := by
  intro hrecord
  obtain ⟨submitted, -, rfl⟩ := Option.map_eq_some_iff.1 hrecord
  exact h (Text.trim_trim submitted.tableCode)

end Office

/-- What the ledger answers for a record after a run: nothing without a submission about it, else the last one
with its number among all submissions about records and its application as it is read then. The record is active as
long as some application for it has not been rejected, which is what its status says. -/
theorem record_lookups (policy : Policy) (events : List Event) (origin : Origin) :
    let office := Office.start.run policy events
    let ledger := office.desk.store
    (ledger.latest origin = .ok none ↔ ∀ taken ∈ office.taken, taken.record? ≠ some origin) ∧
    (∀ earlier taken later, office.taken = earlier ++ taken :: later → taken.record? = some origin →
      (∀ other ∈ later, other.record? ≠ some origin) →
      ∃ chain, ledger.view taken.id = .ok (some chain) ∧
        ledger.latest origin = .ok (some
          (⟨OriginLink.idOf ((earlier.filter fun t => t.submission.origin.isSome).length + 1), taken.id,
            origin.tableCode, origin.key, origin.subSequence⟩, chain.application))) ∧
    (∃ active, ledger.isActive origin = .ok active ∧ (active = true ↔
      ∃ taken ∈ office.taken, taken.record? = some origin ∧ ¬office.Rejected taken.id)) ∧
    (ledger.isActive origin = .ok false →
      ∀ taken ∈ office.taken, taken.record? = some origin → office.Rejected taken.id) ∧
    ∀ taken ∈ office.taken, ∃ chain, ledger.view taken.id = .ok (some chain) ∧
      (chain.application.status = .rejected ↔ office.Rejected taken.id) := by
  intro office ledger
  have hoffice : office.Accountable := Office.accountable_start.run policy events
  have hlinked : office.Linked := Office.linked_start.run policy events
  obtain ⟨active, hactive, hiff⟩ := hoffice.isActive_eq_ok_iff hlinked origin
  refine ⟨hoffice.latest_eq_none_iff hlinked, ?_, ⟨active, hactive, hiff⟩, ?_, ?_⟩
  · intro earlier taken later htaken hrecord hlast
    exact hoffice.latest_of_last hlinked htaken hrecord hlast
  · intro hfree taken htaken hrecord
    rw [hactive, Except.ok.injEq] at hfree
    by_contra hopen
    exact Bool.false_ne_true (hfree.symm.trans (hiff.2 ⟨taken, htaken, hrecord, hopen⟩))
  · intro taken htaken
    obtain ⟨header, chain, -, happlication, hview, hrejected⟩ := hoffice.header_of_mem htaken
    have hstatus : header.status = chain.application.status :=
      congrArg HeaderRow.status (HeaderRow.application_eq_ok_iff.1 happlication).2
    exact ⟨chain, hview, hstatus ▸ hrejected⟩

/-- Two submissions about one record and one without, of which the first is rejected. -/
theorem record_lookups_of_two_submissions :
    let s (origin : Option Origin) : Submission := ⟨none, none, "kim", none, ["lee"], origin⟩
    let o : Origin := ⟨"PRJ", some "7", none⟩
    let office := Office.start.run ⟨100, "%Y"⟩ [.submit "1" (s (some o)) Date.epoch,
      .submit "2" (s none) Date.epoch, .submit "3" (s (some o)) Date.epoch,
      .work (.decide Date.epoch ⟨"1", "lee", none, some "reject"⟩)]
    office.Rejected "1" ∧ office.desk.store.isActive o = .ok true ∧
      ∃ chain, office.desk.store.view "3" = .ok (some chain) ∧
        office.desk.store.latest o =
          .ok (some (⟨"APF_REL_2", "3", "PRJ", some "7", none⟩, chain.application)) := by
  intro s o office
  have htaken : office.taken = [⟨"1", s (some o), Date.epoch⟩, ⟨"2", s none, Date.epoch⟩] ++
      [⟨"3", s (some o), Date.epoch⟩] := by decide +kernel
  have hon : Ruling.on "3" office.desk.committed = [] := by decide +kernel
  obtain ⟨-, hlast, ⟨active, hactive, hiff⟩, -⟩ := record_lookups ⟨100, "%Y"⟩ _ o
  obtain ⟨chain, hview, hlatest⟩ := hlast _ _ [] htaken (by decide +kernel) (by simp)
  have hnumber : OriginLink.idOf 2 = "APF_REL_2" := by decide +kernel
  have hopen : ¬office.Rejected "3" := by
    intro hrejected
    obtain ⟨r, hr, -⟩ := hrejected
    exact absurd (hon ▸ hr) (by simp)
  refine ⟨⟨⟨"1", ⟨"1", "lee", none, .rejected⟩, "%Y", Date.epoch⟩, by decide +kernel, rfl⟩, ?_, chain, hview, ?_⟩
  · rw [hactive, hiff.2 ⟨⟨"3", s (some o), Date.epoch⟩, by decide +kernel, by decide +kernel, hopen⟩]
  · rw [← hnumber]
    exact hlatest

/-- From its submission on a record is found under its table code without the white space around it, and is
active until the application has been rejected. Under a code with white space around it nothing is ever found,
though it be the code that was submitted. -/
theorem submitted_record_found (policy : Policy) (first rest : List Event) {taken : Taken} {o : Origin}
    (htaken : taken ∈ (Office.start.run policy first).taken) (ho : taken.submission.origin = some o) :
    let office := Office.start.run policy (first ++ rest)
    let kept : Origin := { o with tableCode := Text.trim o.tableCode }
    (∃ found, office.desk.store.latest kept = .ok (some found)) ∧
      (¬office.Rejected taken.id → office.desk.store.isActive kept = .ok true) ∧
      (o ≠ kept → office.desk.store.latest o = .ok none ∧ office.desk.store.isActive o = .ok false) := by
  intro office kept
  have hoffice : office.Accountable := Office.accountable_start.run policy _
  have hlinked : office.Linked := Office.linked_start.run policy _
  have hrun : office = (Office.start.run policy first).run policy rest := List.foldl_append
  have hmem : taken ∈ office.taken := hrun ▸ Office.mem_taken_run policy htaken rest
  have hrecord : taken.record? = some kept := by rw [Taken.record?, ho, Option.map_some]
  refine ⟨?_, ?_, ?_⟩
  · obtain ⟨earlier, last, later, hsplit, hlast, hlater⟩ := Office.exists_last ⟨taken, hmem, hrecord⟩
    obtain ⟨chain, -, hlatest⟩ := hoffice.latest_of_last hlinked hsplit hlast hlater
    exact ⟨_, hlatest⟩
  · intro hopen
    obtain ⟨active, hactive, hiff⟩ := hoffice.isActive_eq_ok_iff hlinked kept
    rw [hactive, hiff.2 ⟨taken, hmem, hrecord, hopen⟩]
  · intro hpadded
    have hcode : Text.trim o.tableCode ≠ o.tableCode := fun heq => hpadded (by simp [kept, heq])
    have hnone : ∀ other ∈ office.taken, other.record? ≠ some o := fun other _ =>
      Office.record?_ne_of_padded hcode other
    refine ⟨(hoffice.latest_eq_none_iff hlinked).2 hnone, ?_⟩
    rw [isActive_eq hoffice.consistent.readable.1, Office.linked_eq_nil hlinked hnone]
    rfl

/-- A record whose application waits for its first decision while another record is submitted. -/
theorem submitted_record_found_of_one_approver :
    let s : Submission := ⟨none, none, "kim", none, ["lee"], some ⟨"PRJ", none, some 1⟩⟩
    let office := Office.start.run ⟨100, "%Y"⟩ ([.submit "7" s Date.epoch] ++ [.submit "8" s Date.epoch])
    (∃ found, office.desk.store.latest ⟨"PRJ", none, some 1⟩ = .ok (some found)) ∧
      office.desk.store.isActive ⟨"PRJ", none, some 1⟩ = .ok true := by
  intro s office
  have htakes : Ledger.empty.Takes "7" s := ⟨by decide +kernel, rfl, rfl, by decide⟩
  have htaken := Office.mem_taken_of_submit ⟨100, "%Y"⟩ htakes Date.epoch []
  obtain ⟨hfound, hactive, -⟩ :=
    submitted_record_found ⟨100, "%Y"⟩ _ [.submit "8" s Date.epoch] htaken (o := ⟨"PRJ", none, some 1⟩) rfl
  have hcode : Text.trim "PRJ" = "PRJ" := by decide +kernel
  rw [hcode] at hfound hactive
  have hcommitted : office.desk.committed = [] := by decide +kernel
  refine ⟨hfound, hactive fun hrejected => ?_⟩
  obtain ⟨r, hr, -⟩ := hrejected
  exact absurd (hcommitted ▸ hr) (by simp)

/-- A record whose application is pending is reported free under the very code it was submitted with. -/
theorem padded_code_reported_free :
    let o : Origin := ⟨"PRJ ", some "7", some 1⟩
    let s : Submission := ⟨none, none, "park", none, ["lee"], some o⟩
    let office := Office.start.run ⟨200, "%Y.%m.%d"⟩ [.submit "1" s Date.epoch]
    ⟨"1", s, Date.epoch⟩ ∈ office.taken ∧ ¬office.Rejected "1" ∧
      office.desk.store.isActive o = .ok false ∧ office.desk.store.latest o = .ok none := by
  intro o s office
  have hcommitted : office.desk.committed = [] := by decide +kernel
  refine ⟨by decide +kernel, ?_, by decide +kernel, by decide +kernel⟩
  intro hrejected
  obtain ⟨r, hr, -⟩ := hrejected
  exact absurd (hcommitted ▸ hr) (by simp)

end SignOff.Ledger
