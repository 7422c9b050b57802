import SignOff.Proofs.Approval.Replay
import SignOff.Proofs.Document.Places
import SignOff.Proofs.Json.RoundTrip

/-!
# Documents that follow their chain

A document follows a chain when it reads as the submitted value with the slots as the steps say: each slot
has the decision date of the step at its place, if there is one. A decision keeps that, because the steps it
hits get their date in the document and in the chain alike, and all other steps stay as they are. As long as
no slot has a date, the document has not been written anew.
-/

namespace SignOff

open Json (Within greatestDepth)

namespace Document

/-- The decision date of the step at a place, as the pattern renders it. -/
def dateAt? (pattern : String) (steps : List Step) (place : String × Nat) : Option String :=
  ((stepAt? steps place).bind Step.decision).bind fun d => d.decidedOn.format? pattern

/-- The date that the slot with index `i` is due. -/
def slotDate? (pattern : String) (steps : List Step) (slots : List (String × Json)) (i : Nat) : Option String :=
  (place? slots i).bind (dateAt? pattern steps)

/-- The slots as the steps say. -/
def mirrored (pattern : String) (steps : List Step) (slots : List (String × Json)) : List (String × Json) :=
  fill (dateAt? pattern steps) slots

/-- The members with slots as their line. -/
def withLine (slots members : List (String × Json)) : Json := .object (Entries.put lineKey (.object slots) members)

/-- The document of a chain is the submitted text until a slot is due a date, and reads as the submitted
members with the slots as the steps say. -/
def Follows (pattern text : String) (slots members : List (String × Json)) (chain : Chain) : Prop :=
  ∃ current, chain.application.document = some current ∧
    Json.read current = .ok (withLine (mirrored pattern chain.steps slots) members) ∧
    ((∀ i, slotDate? pattern chain.steps slots i = none) → current = text)

/-! ## The line of a document -/

/-- A document with a line is an object that holds the slots under the key of the line. -/
theorem line?_eq_some_iff {value : Json} {slots members : List (String × Json)} :
    line? value = some (slots, members) ↔
      value = .object members ∧ members.lookup lineKey = some (.object slots) := by
  cases value with
  | object others =>
    simp only [line?, Json.member?, Json.object.injEq]
    constructor
    · intro h
      split at h
      · next found hfound =>
        cases h
        exact ⟨rfl, hfound⟩
      · contradiction
    · rintro ⟨rfl, hslots⟩
      rw [hslots]
  | _ => simp [line?]

/-- A document is its members with its slots as their line. -/
theorem withLine_of_line? {value : Json} {slots members : List (String × Json)}
    (h : line? value = some (slots, members)) : withLine slots members = value := by
  obtain ⟨rfl, hslots⟩ := line?_eq_some_iff.1 h
  rw [withLine, Entries.put_of_lookup hslots]

/-- The approval line that has been put in is found again. -/
theorem line?_withLine (slots members : List (String × Json)) :
    line? (withLine slots members) = some (slots, Entries.put lineKey (.object slots) members) :=
  line?_eq_some_iff.2 ⟨rfl, Entries.lookup_put_self _ _ _⟩

/-- A date in a slot keeps it in the reader's bounds. -/
theorem within_dated {good : JsonNumber → Prop} {depth : Nat} {slot : Json} (h : Within good depth slot)
    (date : String) : Within good depth (dated date slot) := by
  cases h with
  | object hkeys hmembers =>
    refine .object (Entries.nodup_keys_put _ _ hkeys) fun member hmember => ?_
    rcases Entries.mem_put hmember with rfl | hold
    · exact .string date
    · exact hmembers member hold
  | null => exact .null
  | bool b => exact .bool b
  | number hn => exact .number hn
  | string s => exact .string s
  | array hitems => exact .array hitems

/-- Dates in the slots keep a document in the reader's bounds. -/
theorem within_withLine_fill {good : JsonNumber → Prop} {depth : Nat} {slots members : List (String × Json)}
    (h : Within good depth (withLine slots members)) (date? : String × Nat → Option String) :
    Within good depth (withLine (fill date? slots) members) := by
  obtain ⟨rest, hrest⟩ : ∃ rest, rest = Entries.put lineKey (.object slots) members := ⟨_, rfl⟩
  rw [withLine, ← hrest] at h
  cases h with
  | @object depth _ hkeys hmembers =>
    have hput : Entries.put lineKey (.object (fill date? slots)) members =
        Entries.put lineKey (.object (fill date? slots)) rest := by rw [hrest, Entries.put_put]
    rw [withLine, hput]
    refine .object (Entries.nodup_keys_put _ _ hkeys) fun member hmember => ?_
    rcases Entries.mem_put hmember with rfl | hold
    · have hslots : Within good depth (.object slots) :=
        hmembers (lineKey, .object slots) (Entries.mem_of_lookup (hrest ▸ Entries.lookup_put_self _ _ _))
      cases hslots with
      | object hkeys hslots =>
        refine .object (by rw [keys_fill]; exact hkeys) fun entry hentry => ?_
        obtain ⟨i, hi⟩ := List.mem_iff_getElem?.1 hentry
        rw [getElem?_fill] at hi
        obtain ⟨old, hold, rfl⟩ := Option.map_eq_some_iff.1 hi
        have hwithin := hslots old (List.mem_of_getElem? hold)
        split
        · exact within_dated hwithin _
        · exact hwithin
    · exact hmembers member hold

/-! ## A decision -/

section Decide

variable {pattern text current date : String} {slots members : List (String × Json)} {steps : List Step}
  {decided : List Nat} {today : Date}

/-- The document after a decision, if the one before can be read and the date be rendered. -/
theorem followDocument_eq (hread : Json.read current = .ok (withLine slots members))
    (hdate : today.format? pattern = some date) :
    (followDocument pattern (some current) steps decided today).1 =
      if (dateSlots (targets steps decided) date [] slots).2 = 0 then some current
      else some (withLine (dateSlots (targets steps decided) date [] slots).1 members).write := by
  have hpresent : present? (some current) = some current := by
    simp [present?, Option.filter, Json.blank_eq_false_of_read hread]
  unfold followDocument synchronize
  simp only [hpresent, hread, line?_withLine, hdate, Entries.put_put]
  by_cases hempty : (targets steps decided).isEmpty = true
  · have hnone : (dateSlots (targets steps decided) date [] slots).2 = 0 := by
      rw [dateSlots_snd_eq_zero_iff, List.isEmpty_iff.1 hempty]
      simp
    simp [hempty, hnone]
  · by_cases hnone : (dateSlots (targets steps decided) date [] slots).2 = 0 <;>
      simp [hempty, hnone, withLine]

/-- The step at a place is decided if its sequence is among the decided ones, and otherwise stays. -/
theorem stepAt?_decide (steps : List Step) (decided : List Nat) (d : Decision) (place : String × Nat) :
    stepAt? (steps.map fun s => if s.sequence ∈ decided then s.decide d else s) place =
      (stepAt? steps place).map fun s => if s.sequence ∈ decided then s.decide d else s := by
  have happrover : (fun s : Step => decide (s.approver = place.1)) ∘
      (fun s => if s.sequence ∈ decided then s.decide d else s) = fun s => decide (s.approver = place.1) := by
    funext s
    by_cases hs : s.sequence ∈ decided <;> simp [hs]
  rw [stepAt?, stepAt?, List.filter_map, happrover, List.getElem?_map]

/-- After a decision the steps that it hits give its date to their places, the others the date they gave. -/
theorem dateAt?_decide (steps : List Step) (decided : List Nat) {d : Decision} (pattern : String)
    (hdate : d.decidedOn.format? pattern = some date) (place : String × Nat) :
    let after := steps.map fun s => if s.sequence ∈ decided then s.decide d else s
    dateAt? pattern after place =
      (if (place.1, place.2 + 1) ∈ targets after decided then some date else none).or
        (dateAt? pattern steps place) := by
  intro after
  have hstep : stepAt? after place = _ := stepAt?_decide steps decided d place
  cases hplace : stepAt? steps place with
  | none =>
    have hout : (place.1, place.2 + 1) ∉ targets after decided := by
      rw [mem_targets_iff, hstep, hplace]
      simp
    simp [dateAt?, hstep, hplace, hout]
  | some s =>
    rw [hplace, Option.map_some] at hstep
    by_cases hs : s.sequence ∈ decided
    · have hhit : (place.1, place.2 + 1) ∈ targets after decided :=
        mem_targets_iff.2 ⟨_, hstep, by simp [hs]⟩
      simp [dateAt?, hstep, hs, hhit, hdate]
    · have hout : (place.1, place.2 + 1) ∉ targets after decided := by
        rw [mem_targets_iff, hstep]
        simp [hs]
      simp [dateAt?, hstep, hplace, hs, hout]

end Decide

section Follow

variable {pattern text : String} {slots members : List (String × Json)}

/-- A decision leaves a document that follows the chain if the one before did. -/
theorem Follows.decide {chain : Chain} {command : Command} {today : Date} {record : Record}
    (h : Follows pattern text slots members chain)
    (hwithin : Within JsonNumber.ReadsBack greatestDepth (withLine slots members))
    (hnodup : (chain.steps.map Step.sequence).Nodup) (hformat : (today.format? pattern).isSome = true)
    (hdecide : chain.decide command pattern today = .ok record) :
    Follows pattern text slots members record.chain := by
  obtain ⟨current, hcurrent, hread, hsame⟩ := h
  obtain ⟨date, hdate⟩ := Option.isSome_iff_exists.1 hformat
  have hsteps := Chain.steps_of_decide hnodup hdecide
  have hdocument : record.chain.application.document =
      (followDocument pattern (some current) record.chain.steps record.decidedSequences today).1 := by
    obtain ⟨cursor, -, -, rfl⟩ := Chain.decide_eq_ok_iff.1 hdecide
    rw [← hcurrent]
    rfl
  have hdates (place : String × Nat) : dateAt? pattern record.chain.steps place =
      (if (place.1, place.2 + 1) ∈ targets record.chain.steps record.decidedSequences then some date
        else none).or (dateAt? pattern chain.steps place) := by
    rw [hsteps]
    exact dateAt?_decide chain.steps record.decidedSequences (d := command.decision today) pattern hdate place
  rw [followDocument_eq hread hdate] at hdocument
  by_cases hnone : (dateSlots (targets record.chain.steps record.decidedSequences) date []
      (mirrored pattern chain.steps slots)).2 = 0
  · -- No slot is hit, so the steps say of each what they said before.
    have hmissed := dateSlots_snd_eq_zero_iff.1 hnone
    simp only [mirrored, place?_fill] at hmissed
    have hkeep : mirrored pattern record.chain.steps slots = mirrored pattern chain.steps slots :=
      fill_congr fun i place hplace => by simp [hdates, hmissed i place hplace]
    refine ⟨current, by rw [hdocument, if_pos hnone], by rw [hkeep, hread], fun hundated => hsame fun i => ?_⟩
    have hi := hundated i
    cases hplace : place? slots i with
    | none => simp [slotDate?, hplace]
    | some place =>
      simp only [slotDate?, hplace, Option.bind_some, hdates, Option.or_eq_none_iff] at hi ⊢
      exact hi.2
  · have hfilled : (dateSlots (targets record.chain.steps record.decidedSequences) date []
        (mirrored pattern chain.steps slots)).1 = mirrored pattern record.chain.steps slots := by
      rw [dateSlots_fst, mirrored, fill_fill, mirrored]
      exact fill_congr fun _ place _ => (hdates place).symm
    rw [if_neg hnone, hfilled] at hdocument
    refine ⟨_, hdocument, Json.read_write (within_withLine_fill hwithin _), fun hundated => ?_⟩
    -- Some slot is hit, and is due the date of the decision.
    refine absurd (dateSlots_snd_eq_zero_iff.2 fun i place hplace hhit => ?_) hnone
    rw [mirrored, place?_fill] at hplace
    have hi := hundated i
    simp [slotDate?, hplace, hdates, hhit] at hi

/-- Rulings leave a document that follows the chain if the one before did. -/
theorem Follows.replay {chain after : Chain} {rulings : List Ruling}
    (h : Follows pattern text slots members chain)
    (hwithin : Within JsonNumber.ReadsBack greatestDepth (withLine slots members))
    (hnodup : (chain.steps.map Step.sequence).Nodup)
    (hformat : ∀ today : Date, (today.format? pattern).isSome = true)
    (hrulings : ∀ r ∈ rulings, r.pattern = pattern) (hreplay : chain.replay? rulings = some after) :
    Follows pattern text slots members after := by
  refine (Chain.replay?_induction_of_mem
    (P := fun c => Follows pattern text slots members c ∧ (c.steps.map Step.sequence).Nodup)
    (fun c r record hr hfollows hdecide => ?_) ⟨h, hnodup⟩ hreplay).1
  rw [hrulings r hr] at hdecide
  refine ⟨hfollows.1.decide hwithin hfollows.2 (hformat r.today) hdecide, ?_⟩
  rw [Chain.steps_map_of_decide Step.sequence (fun _ _ => rfl) hdecide]
  exact hfollows.2

/-- Open steps give no date. -/
theorem dateAt?_of_open {steps : List Step} (h : ∀ s ∈ steps, s.isOpen = true) (place : String × Nat) :
    dateAt? pattern steps place = none := by
  cases hstep : stepAt? steps place with
  | none => simp [dateAt?, hstep]
  | some s =>
    have hopen := h s (List.mem_of_mem_filter (List.mem_of_getElem? hstep))
    have hdecision : s.decision = none := by simpa [Step.isOpen] using hopen
    simp [dateAt?, hstep, hdecision]

/-- The document of a chain without decisions follows it as it is. -/
theorem follows_of_open {chain : Chain} {value : Json} (hopen : ∀ s ∈ chain.steps, s.isOpen = true)
    (hdocument : chain.application.document = some text) (hread : Json.read text = .ok value)
    (hline : line? value = some (slots, members)) : Follows pattern text slots members chain := by
  refine ⟨text, hdocument, ?_, fun _ => rfl⟩
  rw [mirrored, fill_eq_self fun _ place _ => dateAt?_of_open hopen place, withLine_of_line? hline, hread]

end Follow

end Document

end SignOff
