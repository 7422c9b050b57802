import SignOff.Proofs.Document.Following
import SignOff.Proofs.Ledger.Workflow
import SignOff.Proofs.Store.Patterns

/-!
# Documents carry the decision dates

The document of an application that has been submitted with an approval line follows its chain in every run:
each slot has the date of the step at its place, and nothing else of the document changes. A slot of every
approver, written as submitted, has the date of the step in the same position, as long as the ids are
written without white space around them: the steps have ids without it, so a slot with such an id has no step.
-/

namespace SignOff

open Ledger (Event Office Taken)

namespace Ledger.Office

/-- In every run the document of a submission follows the chain that the ledger shows, which is the
submitted one with decisions. -/
theorem follows_of_mem {policy : Policy} {events : List Event}
    (hformat : ∀ today : Date, (today.format? policy.dateFormat).isSome = true) {taken : Taken}
    (htaken : taken ∈ (start.run policy events).taken) {text : String}
    (htext : taken.submission.document = some text) {value : Json} (hread : Json.read text = .ok value)
    {slots members : List (String × Json)} (hline : Document.line? value = some (slots, members))
    (hbinary : ∀ x, .binary x ∈ value.numbers → (JsonNumber.binary x).ReadsBack) :
    ∃ chain, (start.run policy events).desk.store.view taken.id = .ok (some chain) ∧
      Document.Follows policy.dateFormat text slots members chain ∧
      chain.steps.map Step.approver = taken.submission.approvers.map Text.trim := by
  have hoffice := accountable_start.run policy events
  obtain ⟨chain, hcontents, hreplay⟩ := hoffice.contents_of_mem htaken
  obtain ⟨hvalid, hfew⟩ := hoffice.taken_fit taken htaken
  have hopen : ∀ step ∈ taken.chain.steps, step.isOpen = true := fun _ h => (Submission.of_mem_steps h).1
  have hnodup : (taken.chain.steps.map Step.sequence).Nodup := by
    change ((taken.submission.steps taken.id).map Step.sequence).Nodup
    rw [Submission.sequences_steps hfew]
    exact List.nodup_range'
  have hwithin := Json.readsBack_of_read hread hbinary
  rw [← Document.withLine_of_line? hline] at hwithin
  refine ⟨chain, ?_, ?_, ?_⟩
  · rw [Ledger.view_of_readable hoffice.consistent.readable]
    exact congrArg _ hcontents
  · refine (Document.follows_of_open hopen htext hread hline).replay hwithin hnodup hformat ?_ hreplay
    exact fun r hr => pattern_of_committed policy events r (List.mem_of_mem_filter hr)
  · rw [Chain.steps_map_of_replay Step.approver (fun _ _ => rfl) hreplay]
    exact taken.submission.approvers_steps taken.id

/-- After the first decision on a submission the ledger shows the chain that the decision leaves. -/
theorem view_of_first_decision (policy : Policy) {id : String} {s : Submission} (htakes : Ledger.empty.Takes id s)
    (submitted today : Date) {request : DecisionRequest} {command : Command}
    (hcommand : request.command = .ok command)
    (hid : command.applicationId = id) {record : Record}
    (hdecide : (s.chain id submitted).decide command policy.dateFormat today = .ok record) :
    (start.run policy [.submit id s submitted, .work (.decide today request)]).desk.store.view id =
      .ok (some record.chain) := by
  subst hid
  obtain ⟨office, hoffice⟩ : ∃ office, office = start.run policy [.submit command.applicationId s submitted] :=
    ⟨_, rfl⟩
  have hrun : start.run policy [.submit command.applicationId s submitted, .work (.decide today request)] =
      office.step policy (.work (.decide today request)) := by rw [hoffice]; rfl
  have hreadable : office.desk.store.Readable := hoffice ▸ (accountable_start.run policy _).consistent.readable
  have hchain : office.desk.store.tables.contents command.applicationId =
      some (s.chain command.applicationId submitted) := by
    have hfirst : office = _ := hoffice.trans (step_submit start policy htakes submitted)
    have hcontents := (Ledger.Tables.readable_empty.1.submit htakes.isNew htakes.few submitted).2
    rw [hfirst]
    exact (congrFun hcontents _).trans (Function.update_self _ _ _)
  have hafter := decide_of_contents policy today hreadable hcommand hchain
  simp only [hdecide] at hafter
  obtain ⟨ledger, hserved, hview⟩ := hafter
  have hstore : (office.step policy (.work (.decide today request))).desk.store = ledger := by
    simp only [Office.step, Desk.step, hserved, Desk.answered]
  rw [hrun, hstore, hview]

end Ledger.Office

/-- Whatever happens after a submission whose document has an approval line, the document reads as the
submitted one with each slot as it was, but for the decision date of the step at its place if that step has
been decided, and it is the submitted text itself while no slot has such a step. -/
theorem documents_mirror_steps (policy : Policy) (events : List Event)
    (hformat : ∀ today : Date, (today.format? policy.dateFormat).isSome = true) {taken : Taken}
    (htaken : taken ∈ (Office.start.run policy events).taken) {text : String}
    (htext : taken.submission.document = some text) {value : Json} (hread : Json.read text = .ok value)
    {slots members : List (String × Json)} (hline : Document.line? value = some (slots, members))
    (hbinary : ∀ x, .binary x ∈ value.numbers → (JsonNumber.binary x).ReadsBack) :
    ∃ chain current, (Office.start.run policy events).desk.store.view taken.id = .ok (some chain) ∧
      chain.application.document = some current ∧ value = Document.withLine slots members ∧
      Json.read current =
        .ok (Document.withLine (Document.mirrored policy.dateFormat chain.steps slots) members) ∧
      ((∀ i, Document.slotDate? policy.dateFormat chain.steps slots i = none) → current = text) := by
  obtain ⟨chain, hview, ⟨current, hcurrent, hafter, hsame⟩, -⟩ :=
    Office.follows_of_mem hformat htaken htext hread hline hbinary
  exact ⟨chain, current, hview, hcurrent, (Document.withLine_of_line? hline).symm, hafter, hsame⟩

/-- Every date can be written with dots. -/
theorem Date.isSome_format?_dotted (today : Date) : (today.format? "%Y.%m.%d").isSome = true :=
  (Date.format?_isSome_iff "%Y.%m.%d" today Date.epoch).2 (by decide +kernel)

/-- A document with a slot for each of two approvers, after the first of them has approved. -/
theorem documents_mirror_steps_of_two_slots :
    let slots := [("a", Json.object [("id", .string "lee")]), ("b", .object [("id", .string "kim")])]
    let members := [("approvalLine", Json.object slots),
      ("total", .number (.binary ⟨false, 6755399441055744, -52⟩))]
    let s : Submission := ⟨none, some (Json.object members).write, "park", none, ["lee", "kim"], none⟩
    let office := Office.start.run ⟨100, "%Y.%m.%d"⟩
      [.submit "7" s Date.epoch, .work (.decide Date.epoch ⟨"7", "lee", none, some "approve"⟩)]
    ∃ chain current, office.desk.store.view "7" = .ok (some chain) ∧ chain.application.document = some current ∧
      Json.read current =
        .ok (Document.withLine (Document.mirrored "%Y.%m.%d" chain.steps slots) members) := by
  intro slots members s office
  have hbinary : (JsonNumber.binary ⟨false, 6755399441055744, -52⟩).ReadsBack := by decide +kernel
  have hwithin : Json.Within JsonNumber.ReadsBack Json.greatestDepth (.object members) := by
    refine .object (by decide) ?_
    simp only [members, slots, List.forall_mem_cons]
    refine ⟨.object (by decide) ?_, .number hbinary, by simp⟩
    simpa only [List.forall_mem_cons] using
      ⟨Json.within_singleton "id" "lee", Json.within_singleton "id" "kim", by simp⟩
  have htakes : Ledger.empty.Takes "7" s := ⟨by decide +kernel, rfl, rfl, by decide⟩
  have htaken : ⟨"7", s, Date.epoch⟩ ∈ office.taken :=
    Office.mem_taken_of_submit ⟨100, "%Y.%m.%d"⟩ htakes Date.epoch _
  have hnumbers : ∀ x, .binary x ∈ (Json.object members).numbers → (JsonNumber.binary x).ReadsBack := by
    intro x hx
    have hx : x = ⟨false, 6755399441055744, -52⟩ := by
      simpa [members, slots, Json.numbers, Json.memberNumbers] using hx
    exact hx ▸ hbinary
  obtain ⟨chain, current, hview, hcurrent, -, hread, -⟩ :=
    documents_mirror_steps ⟨100, "%Y.%m.%d"⟩ _ Date.isSome_format?_dotted htaken rfl (Json.read_write hwithin)
      (Document.line?_eq_some_iff.2 ⟨rfl, rfl⟩) hnumbers
  exact ⟨chain, current, hview, hcurrent, hread⟩

/-! ## One slot for each approver -/

namespace Document

/-- What a slot holds as its date. -/
def dateOf? : Json → Option Json
  | .object members => Json.member? dateKey members
  | _ => none

/-- A date that is set is there. -/
theorem dateOf?_dated {slot : Json} {approver : String} (h : slotApprover? slot = some approver) (date : String) :
    dateOf? (dated date slot) = some (.string date) := by
  cases slot with
  | object members => exact Entries.lookup_put_self _ _ _
  | _ => simp [slotApprover?] at h

/-- The place of a slot where each approver has one, in their order. -/
theorem place?_of_approvers {slots : List (String × Json)} {approvers : List String}
    (h : slots.map (fun entry => slotApprover? entry.2) = approvers.map some) {i : Nat} {approver : String}
    (hi : approvers[i]? = some approver) :
    place? slots i = some (approver, (approvers.take i).count approver) := by
  have hslot : slots[i]?.bind (fun entry => slotApprover? entry.2) = some approver := by
    have hentry := congrArg (fun names => names[i]?) h
    simp only [List.getElem?_map, hi, Option.map_some] at hentry
    obtain ⟨entry, hentry, happrover⟩ := Option.map_eq_some_iff.1 hentry
    simp [hentry, happrover]
  have hbefore : slotApprovers (slots.take i) = approvers.take i := by
    have htake := congrArg (fun names => (names.take i).filterMap id) h
    simpa [slotApprovers, ← List.map_take, List.filterMap_map] using htake
  rw [place?, hslot, hbefore, Option.map_some]

/-- A slot without a date has the one that is filled in, if there is one. -/
theorem dateOf?_fill {slots : List (String × Json)} {i : Nat} {place : String × Nat}
    (hplace : place? slots i = some place) (hundated : ∀ entry ∈ slots, dateOf? entry.2 = none)
    (date? : String × Nat → Option String) :
    ∃ entry, (fill date? slots)[i]? = some entry ∧ dateOf? entry.2 = (date? place).map Json.string := by
  obtain ⟨approver, happrover, -⟩ := Option.map_eq_some_iff.1 hplace
  obtain ⟨entry, hentry, happrover⟩ := Option.bind_eq_some_iff.1 happrover
  refine ⟨_, by rw [getElem?_fill, hentry, Option.map_some], ?_⟩
  rw [hplace, Option.bind_some]
  cases date? place with
  | none => exact hundated entry (List.mem_of_getElem? hentry)
  | some date => exact dateOf?_dated happrover date

/-- Where each step has an approver of the list without white space around the id, an approver who is never
written with it has the step in the same position. -/
theorem dateAt?_of_plain (pattern : String) {steps : List Step} {approvers : List String}
    (h : steps.map Step.approver = approvers.map Text.trim) {i : Nat} {approver : String} {s : Step}
    (hi : approvers[i]? = some approver) (hs : steps[i]? = some s)
    (hplain : ∀ j other, j ≤ i → approvers[j]? = some other → Text.trim other = Text.trim approver →
      Text.trim other = other) :
    dateAt? pattern steps (approver, (approvers.take i).count approver) =
      s.decision.bind fun d => d.decidedOn.format? pattern := by
  have htrim : Text.trim approver = approver := hplain i approver (Nat.le_refl i) hi rfl
  have happrover : s.approver = approver := by
    have hname := congrArg (fun names => names[i]?) h
    simp only [List.getElem?_map, hs, hi, Option.map_some, Option.some.injEq, htrim] at hname
    exact hname
  have hcount : (approvers.take i).count approver = ((steps.take i).map Step.approver).count approver := by
    rw [List.map_take, h, ← List.map_take, List.count, List.countP_map]
    apply List.countP_congr
    intro other hother
    obtain ⟨j, hj⟩ := List.mem_iff_getElem?.1 hother
    rw [List.getElem?_take] at hj
    split at hj
    · next hlt =>
      have hother := hplain j other (Nat.le_of_lt hlt) hj
      rw [htrim] at hother
      simp only [Function.comp_apply, beq_iff_eq]
      exact ⟨fun heq => heq ▸ htrim, fun heq => (hother heq).symm.trans heq⟩
    · contradiction
  have hstep := stepAt?_of_getElem? hs
  rw [happrover] at hstep
  rw [dateAt?, hcount, hstep, Option.bind_some]

/-- A slot with white space around its id has no step. -/
theorem dateAt?_of_padded (pattern : String) {steps : List Step} {approvers : List String}
    (h : steps.map Step.approver = approvers.map Text.trim) {approver : String}
    (hpadded : Text.trim approver ≠ approver) (n : Nat) : dateAt? pattern steps (approver, n) = none := by
  have hnone : steps.filter (fun s => s.approver = approver) = [] := by
    rw [List.filter_eq_nil_iff]
    intro s hs happrover
    have hmem := h ▸ List.mem_map_of_mem (f := Step.approver) hs
    obtain ⟨other, -, hother⟩ := List.mem_map.1 hmem
    apply hpadded
    rw [← of_decide_eq_true happrover, ← hother, Text.trim_trim]
  simp [dateAt?, stepAt?, hnone]

end Document

/-- Where the document has a slot without a date for each approver, with the id as it was submitted, a slot has
the decision date of the step in the same position, and none while that step is open, provided that its id
and all those before it that mean the same approver are without white space around them. A slot with white
space around its id never has a date. -/
theorem slots_of_approvers_dated (policy : Policy) (events : List Event)
    (hformat : ∀ today : Date, (today.format? policy.dateFormat).isSome = true) {taken : Taken}
    (htaken : taken ∈ (Office.start.run policy events).taken) {text : String}
    (htext : taken.submission.document = some text) {value : Json} (hread : Json.read text = .ok value)
    {slots members : List (String × Json)} (hline : Document.line? value = some (slots, members))
    (hbinary : ∀ x, .binary x ∈ value.numbers → (JsonNumber.binary x).ReadsBack)
    (hslots : slots.map (fun entry => Document.slotApprover? entry.2) = taken.submission.approvers.map some)
    (hundated : ∀ entry ∈ slots, Document.dateOf? entry.2 = none) :
    ∃ (chain : Chain) (current : String) (now : List (String × Json)),
      (Office.start.run policy events).desk.store.view taken.id = .ok (some chain) ∧
      chain.application.document = some current ∧ Json.read current = .ok (Document.withLine now members) ∧
      now.map Prod.fst = slots.map Prod.fst ∧
      ∀ (i : Nat) (approver : String), taken.submission.approvers[i]? = some approver →
        ∃ (step : Step) (entry : String × Json), chain.steps[i]? = some step ∧ now[i]? = some entry ∧
          (Text.trim approver ≠ approver → Document.dateOf? entry.2 = none) ∧
          ((∀ j other, j ≤ i → taken.submission.approvers[j]? = some other →
              Text.trim other = Text.trim approver → Text.trim other = other) →
            Document.dateOf? entry.2 =
              (step.decision.bind fun d => d.decidedOn.format? policy.dateFormat).map Json.string) := by
  obtain ⟨chain, hview, ⟨current, hcurrent, hafter, -⟩, happrovers⟩ :=
    Office.follows_of_mem hformat htaken htext hread hline hbinary
  refine ⟨chain, current, _, hview, hcurrent, hafter, Document.keys_fill, fun i approver hi => ?_⟩
  obtain ⟨step, hstep⟩ : ∃ step, chain.steps[i]? = some step := by
    have hname := congrArg (fun names => names[i]?) happrovers
    simp only [List.getElem?_map, hi, Option.map_some] at hname
    obtain ⟨step, hstep, -⟩ := Option.map_eq_some_iff.1 hname
    exact ⟨step, hstep⟩
  obtain ⟨entry, hentry, hdate⟩ := Document.dateOf?_fill (Document.place?_of_approvers hslots hi) hundated
    (Document.dateAt? policy.dateFormat chain.steps)
  refine ⟨step, entry, hstep, hentry, fun hpadded => ?_, fun hplain => ?_⟩
  · rw [hdate, Document.dateAt?_of_padded _ happrovers hpadded, Option.map_none]
  · rw [hdate, Document.dateAt?_of_plain _ happrovers hi hstep hplain]

/-- Two approvers with a slot each, the second of them with a blank, after the first one has approved. -/
theorem slots_of_approvers_dated_of_two_approvers :
    let slots := [("a", Json.object [("id", .string "kim")]), ("b", .object [("id", .string "lee ")])]
    let members := [("approvalLine", Json.object slots)]
    let s : Submission := ⟨none, some (Json.object members).write, "park", none, ["kim", "lee "], none⟩
    let office := Office.start.run ⟨100, "%Y.%m.%d"⟩
      [.submit "7" s Date.epoch, .work (.decide Date.epoch ⟨"7", "kim", none, some "approve"⟩)]
    ∃ (chain : Chain) (current : String) (now : List (String × Json)) (first second : String × Json),
      office.desk.store.view "7" = .ok (some chain) ∧ chain.application.document = some current ∧
      Json.read current = .ok (Document.withLine now members) ∧
      now[0]? = some first ∧ Document.dateOf? first.2 = some (.string "1970.01.01") ∧
      now[1]? = some second ∧ Document.dateOf? second.2 = none := by
  intro slots members s office
  have hwithin : Json.Within JsonNumber.ReadsBack Json.greatestDepth (.object members) := by
    refine .object (by decide) ?_
    simp only [members, slots, List.forall_mem_cons]
    refine ⟨.object (by decide) ?_, by simp⟩
    simpa only [List.forall_mem_cons] using
      ⟨Json.within_singleton "id" "kim", Json.within_singleton "id" "lee ", by simp⟩
  have htakes : Ledger.empty.Takes "7" s := ⟨by decide +kernel, rfl, rfl, by decide⟩
  have htaken : ⟨"7", s, Date.epoch⟩ ∈ office.taken :=
    Office.mem_taken_of_submit ⟨100, "%Y.%m.%d"⟩ htakes Date.epoch _
  obtain ⟨chain, current, now, hview, hcurrent, hread, -, hdates⟩ :=
    slots_of_approvers_dated ⟨100, "%Y.%m.%d"⟩ _ Date.isSome_format?_dotted htaken rfl (Json.read_write hwithin)
      (Document.line?_eq_some_iff.2 ⟨rfl, rfl⟩) (by simp [members, slots, Json.numbers, Json.memberNumbers]) rfl
      (by simp only [slots, List.forall_mem_cons]; exact ⟨rfl, rfl, by simp⟩)
  -- The chain is the one that the decision leaves, so its first step has the date of the decision.
  have hdecision : ((s.chain "7" Date.epoch).decide ⟨"7", "kim", none, .approved⟩ "%Y.%m.%d" Date.epoch).map
      (fun record => record.chain.steps[0]?.map Step.decision) =
        .ok (some (some ⟨.approved, Date.epoch, none⟩)) := by decide +kernel
  obtain ⟨record, hdecide, hdecision⟩ := map_eq_ok_iff.1 hdecision
  have hcommand : DecisionRequest.command ⟨"7", "kim", none, some "approve"⟩ =
      .ok ⟨"7", "kim", none, .approved⟩ := by decide +kernel
  have hfirst := Office.view_of_first_decision ⟨100, "%Y.%m.%d"⟩ htakes Date.epoch Date.epoch hcommand rfl hdecide
  obtain rfl : chain = record.chain := by
    rw [hview, Except.ok.injEq, Option.some.injEq] at hfirst
    exact hfirst
  obtain ⟨step, first, hstep, hzero, -, hdated⟩ := hdates 0 "kim" rfl
  obtain ⟨-, second, -, hone, hundated, -⟩ := hdates 1 "lee " rfl
  refine ⟨_, current, now, first, second, hview, hcurrent, hread, hzero, ?_, hone, hundated (by decide +kernel)⟩
  rw [hstep, Option.map_some, Option.some.injEq] at hdecision
  have hrendered : Date.epoch.format? "%Y.%m.%d" = some "1970.01.01" := by decide +kernel
  rw [hdated fun j other hj hother _ => ?_, hdecision]
  · exact congrArg (Option.map Json.string) hrendered
  · obtain rfl : j = 0 := Nat.le_zero.1 hj
    obtain rfl : "kim" = other := Option.some.inj hother
    decide +kernel

/-- The slot of an approver whose id has been submitted with a blank stays without a date when the step is
decided, and a later slot of the same approver gets the date while its own step is open. -/
theorem padded_slot_passed_over :
    let document (last : List (String × Json)) := (Json.object [("approvalLine", .object
      [("a", .object [("id", .string "lee ")]), ("b", .object [("id", .string "kim")]),
        ("c", .object (("id", .string "lee") :: last))])]).write
    let s : Submission := ⟨none, some (document []), "park", none, ["lee ", "kim", "lee"], none⟩
    let office := Office.start.run ⟨100, "%Y.%m.%d"⟩
      [.submit "7" s Date.epoch, .work (.decide Date.epoch ⟨"7", "lee", none, some "approve"⟩)]
    s.validate = .ok () ∧
      ∃ chain, office.desk.store.view "7" = .ok (some chain) ∧
        chain.steps.map Step.isOpen = [false, true, true] ∧
        chain.application.document = some (document [("date", .string "1970.01.01")]) := by
  intro document s office
  have htakes : Ledger.empty.Takes "7" s := ⟨by decide +kernel, rfl, rfl, by decide⟩
  have hdecision : ((s.chain "7" Date.epoch).decide ⟨"7", "lee", none, .approved⟩ "%Y.%m.%d" Date.epoch).map
      (fun record => (record.chain.steps.map Step.isOpen, record.chain.application.document)) =
        .ok ([false, true, true], some (document [("date", .string "1970.01.01")])) := by decide +kernel
  obtain ⟨record, hdecide, hdecision⟩ := map_eq_ok_iff.1 hdecision
  refine ⟨htakes.valid, record.chain, ?_, (Prod.mk.inj hdecision).1, (Prod.mk.inj hdecision).2⟩
  have hcommand : DecisionRequest.command ⟨"7", "lee", none, some "approve"⟩ =
      .ok ⟨"7", "lee", none, .approved⟩ := by decide +kernel
  exact Office.view_of_first_decision ⟨100, "%Y.%m.%d"⟩ htakes Date.epoch Date.epoch hcommand rfl hdecide

end SignOff
