import SignOff.Proofs.Document.Following

/-!
# What synchronising does to a document

A slot is hit when the step at its place is among the decided ones. Exactly the slots that are hit get the
date, and the rest of the document stays as it is. What becomes of a document is told by the first of these
that fails: it is there, can be read, has a line, some step is decided, the date can be rendered, some slot is
hit. As the places do not depend on the dates, to synchronise in pieces is to synchronise at once.
-/

namespace SignOff.Document

variable {pattern text date : String} {document : Option String} {steps : List Step} {decided : List Nat} {today : Date}
  {slots members : List (String × Json)}

/-- The slot with index `i` is hit: for some `j` it is the `j`-th slot of its approver, and the `j`-th step of
the approver has one of the decided sequences. -/
def Hit (steps : List Step) (decided : List Nat) (slots : List (String × Json)) (i : Nat) : Prop :=
  ∃ place s, place? slots i = some place ∧ stepAt? steps place = some s ∧ s.sequence ∈ decided

/-! ## Slots that are hit -/

/-- A slot is hit exactly when its place is a target. -/
theorem hit_iff {i : Nat} : Hit steps decided slots i ↔
    ((place? slots i).any fun place => (targets steps decided).contains (place.1, place.2 + 1)) = true := by
  unfold Hit
  cases place? slots i with
  | none => simp
  | some place => simp [mem_targets_iff]

instance (i : Nat) : Decidable (Hit steps decided slots i) := decidable_of_iff _ hit_iff.symm

/-- There are targets exactly when some step is decided. -/
theorem targets_eq_nil_iff : targets steps decided = [] ↔ ∀ s ∈ steps, s.sequence ∉ decided := by
  constructor
  · intro hnil s hs hdecided
    obtain ⟨i, hi⟩ := List.mem_iff_getElem?.1 hs
    have hhit := mem_targets_iff.2 ⟨s, stepAt?_of_getElem? hi, hdecided⟩
    rw [hnil] at hhit
    contradiction
  · intro hnone
    rw [targets, List.filterMap_eq_nil_iff]
    rintro ⟨occurrence, s⟩ hentry
    simp [hnone s (List.of_mem_zip hentry).2]

/-- As many slots are dated as there are places that are hit. -/
theorem dateSlots_snd_after (hits : List (String × Nat)) (date : String) (seen : List String)
    (slots : List (String × Json)) :
    (dateSlots hits date seen slots).2 = (List.range slots.length).countP fun i =>
      (placeAfter? seen slots i).any fun place => hits.contains (place.1, place.2 + 1) := by
  induction slots generalizing seen with
  | nil => rfl
  | cons first rest ih =>
    obtain ⟨key, slot⟩ := first
    rw [List.length_cons, List.range_succ_eq_map, List.countP_cons, List.countP_map, placeAfter?_zero]
    simp only [Function.comp_def, Nat.succ_eq_add_one, placeAfter?_succ]
    cases hslot : slotApprover? slot with
    | none => simp [dateSlots, hslot, ih]
    | some approver =>
      by_cases hhit : (approver, seen.count approver + 1) ∈ hits <;> simp [dateSlots, hslot, hhit, ih]

/-- As many slots are dated as are hit. -/
theorem dateSlots_snd (steps : List Step) (decided : List Nat) (date : String) (slots : List (String × Json)) :
    (dateSlots (targets steps decided) date [] slots).2 =
      (List.range slots.length).countP fun i => Hit steps decided slots i := by
  simp only [dateSlots_snd_after, placeAfter?_nil, hit_iff, Bool.decide_eq_true]

/-- Exactly the slots that are hit get the date. -/
theorem dateSlots_fst_eq_mapIdx (steps : List Step) (decided : List Nat) (date : String)
    (slots : List (String × Json)) :
    (dateSlots (targets steps decided) date [] slots).1 = slots.mapIdx fun i slot =>
      if Hit steps decided slots i then (slot.1, dated date slot.2) else slot := by
  apply List.ext_getElem?
  intro i
  rw [getElem?_dateSlots, placeAfter?_nil, List.getElem?_mapIdx]
  simp only [hit_iff]

/-- No slot is dated exactly when none is hit. -/
theorem dateSlots_snd_eq_zero_iff_hit :
    (dateSlots (targets steps decided) date [] slots).2 = 0 ↔ ∀ i, ¬Hit steps decided slots i := by
  rw [dateSlots_snd_eq_zero_iff]
  constructor
  · rintro hnone i ⟨place, s, hplace, hs, hdecided⟩
    exact hnone i place hplace (mem_targets_iff.2 ⟨s, hs, hdecided⟩)
  · intro hnone i place hplace hhit
    obtain ⟨s, hs, hdecided⟩ := mem_targets_iff.1 hhit
    exact hnone i ⟨place, s, hplace, hs, hdecided⟩

/-- Where some slot is hit, some step is decided. -/
theorem exists_decided_of_hit {i : Nat} (h : Hit steps decided slots i) : ∃ s ∈ steps, s.sequence ∈ decided := by
  obtain ⟨place, s, -, hs, hdecided⟩ := h
  exact ⟨s, List.mem_of_mem_filter (List.mem_of_getElem? hs), hdecided⟩

/-! ## Documents with a line -/

/-- The document is a text that reads as the members with the slots as their line. -/
def HasLine (document : Option String) (members slots : List (String × Json)) : Prop :=
  ∃ text, document = some text ∧ Json.read text = .ok (.object members) ∧
    members.lookup lineKey = some (.object slots)

/-- A document with a line is changed where its slots are hit. -/
theorem synchronize_of_hasLine (h : HasLine document members slots) :
    synchronize pattern document steps decided today =
      if ∀ s ∈ steps, s.sequence ∉ decided then .ok .unchanged
      else match today.format? pattern with
        | none => .error (.format pattern)
        | some date =>
          let (slots, entries) := dateSlots (targets steps decided) date [] slots
          if entries = 0 then .ok .unchanged
          else .ok (.updated (withLine slots members).write entries) := by
  obtain ⟨text, rfl, hread, hslots⟩ := h
  have hpresent : present? (some text) = some text := by
    simp [present?, Option.filter, Json.blank_eq_false_of_read hread]
  have hline : line? (.object members) = some (slots, members) := line?_eq_some_iff.2 ⟨rfl, hslots⟩
  have hempty : (targets steps decided).isEmpty = true ↔ ∀ s ∈ steps, s.sequence ∉ decided := by
    rw [List.isEmpty_iff, targets_eq_nil_iff]
  simp only [synchronize, hpresent, hread, hline]
  by_cases hnone : ∀ s ∈ steps, s.sequence ∉ decided
  · rw [if_pos (hempty.2 hnone), if_pos hnone]
  · rw [if_neg (mt hempty.1 hnone), if_neg hnone]
    rfl

/-- Other slots leave the members as they are but for the line. -/
theorem withLine_eq_map (h : HasLine document members slots) (now : List (String × Json)) :
    withLine now members =
      .object (members.map fun member => if member.1 = lineKey then (member.1, .object now) else member) := by
  obtain ⟨text, -, hread, hslots⟩ := h
  have hkey : lineKey ∈ members.map Prod.fst := Entries.lookup_isSome_iff.1 (by rw [hslots]; rfl)
  cases Json.within_of_read hread with
  | object hkeys _ => rw [withLine, Entries.put_eq_map _ hkeys hkey]

/-- With dates in some slots the document is read back, if its numbers are. -/
theorem read_withLine_dateSlots (h : HasLine document members slots) (hits : List (String × Nat)) (date : String)
    (hbinary : ∀ x, .binary x ∈ (Json.object members).numbers → (JsonNumber.binary x).ReadsBack) :
    Json.read (withLine (dateSlots hits date [] slots).1 members).write =
      .ok (withLine (dateSlots hits date [] slots).1 members) := by
  obtain ⟨text, -, hread, hslots⟩ := h
  have hwithin := Json.readsBack_of_read hread hbinary
  rw [← withLine_of_line? (line?_eq_some_iff.2 ⟨rfl, hslots⟩)] at hwithin
  rw [dateSlots_fst]
  exact Json.read_write (within_withLine_fill hwithin _)

/-! ## What becomes of a document -/

/-- The result tells what is to become of a document on a day when the steps of some sequences are decided. -/
structure Synchronized (pattern : String) (document : Option String) (steps : List Step) (decided : List Nat)
    (today : Date) (result : Except Fault Change) : Prop where
  absent : (∀ text, document = some text → Text.blank text = true) → result = .ok .skipped
  unreadable : ∀ text, document = some text → Text.blank text = false →
    (∀ value, Json.read text ≠ .ok value) → result = .error (.unreadable notJson)
  lineless : ∀ text value, document = some text → Json.read text = .ok value →
    (∀ members slots, value = .object members → members.lookup lineKey ≠ some (.object slots)) →
    result = .ok .skipped
  undecided : ∀ members slots, HasLine document members slots → (∀ s ∈ steps, s.sequence ∉ decided) →
    result = .ok .unchanged
  unrendered : ∀ members slots, HasLine document members slots → (∃ s ∈ steps, s.sequence ∈ decided) →
    today.format? pattern = none → result = .error (.format pattern)
  missed : ∀ members slots date, HasLine document members slots → today.format? pattern = some date →
    (∀ i, ¬Hit steps decided slots i) → result = .ok .unchanged
  /-- The slots that are hit get the date, in the place of the old one or last, and all else stays. -/
  dated : ∀ members slots date, HasLine document members slots → today.format? pattern = some date →
    (∃ i, Hit steps decided slots i) →
    let now := slots.mapIdx fun i slot => if Hit steps decided slots i then (slot.1, dated date slot.2) else slot
    let changed := members.map fun member => if member.1 = lineKey then (member.1, .object now) else member
    ∃ after, result = .ok (.updated after ((List.range slots.length).countP fun i => Hit steps decided slots i)) ∧
      after = (Json.object changed).write ∧
      ((∀ x, .binary x ∈ (Json.object members).numbers → (JsonNumber.binary x).ReadsBack) →
        Json.read after = .ok (.object changed))

/-- Synchronising tells of every document what is to become of it: exactly the slots that are hit are dated, and
of the reasons to leave a document as it is the first one counts. -/
theorem synchronize_dates_hits (pattern : String) (document : Option String) (steps : List Step)
    (decided : List Nat) (today : Date) :
    Synchronized pattern document steps decided today (synchronize pattern document steps decided today) := by
  constructor
  case absent =>
    intro hblank
    have habsent : present? document = none := by
      rw [present?, Option.filter_eq_none_iff]
      exact fun text htext => by simp [hblank text htext]
    simp only [synchronize, habsent]
  case unreadable =>
    rintro text rfl hthere hnone
    have hpresent : present? (some text) = some text := by simp [present?, Option.filter, hthere]
    simp only [synchronize, hpresent]
    cases hread : Json.read text with
    | error _ => rfl
    | ok value => exact absurd hread (hnone value)
  case lineless =>
    rintro text value rfl hread hlineless
    have hpresent : present? (some text) = some text := by
      simp [present?, Option.filter, Json.blank_eq_false_of_read hread]
    simp only [synchronize, hpresent, hread]
    cases hline : line? value with
    | none => rfl
    | some found =>
      obtain ⟨hvalue, hslots⟩ := line?_eq_some_iff.1 hline
      exact absurd hslots (hlineless _ _ hvalue)
  case undecided =>
    intro members slots hline hnone
    rw [synchronize_of_hasLine hline, if_pos hnone]
  case unrendered =>
    rintro members slots hline ⟨s, hs, hdecided⟩ hformat
    rw [synchronize_of_hasLine hline, if_neg fun hnone => hnone s hs hdecided, hformat]
  case missed =>
    intro members slots date hline hformat hmissed
    rw [synchronize_of_hasLine hline, hformat]
    simp [dateSlots_snd_eq_zero_iff_hit.2 hmissed]
  case dated =>
    intro members slots date hline hformat hhit now changed
    have hsome : ¬∀ s ∈ steps, s.sequence ∉ decided := by
      obtain ⟨i, hi⟩ := hhit
      obtain ⟨s, hs, hdecided⟩ := exists_decided_of_hit hi
      exact fun hnone => hnone s hs hdecided
    have hentries : (dateSlots (targets steps decided) date [] slots).2 ≠ 0 := by
      rw [ne_eq, dateSlots_snd_eq_zero_iff_hit, not_forall_not]
      exact hhit
    have hnow : withLine (dateSlots (targets steps decided) date [] slots).1 members = .object changed := by
      rw [withLine_eq_map hline, dateSlots_fst_eq_mapIdx]
    refine ⟨(Json.object changed).write, ?_, rfl, fun hbinary => ?_⟩
    · rw [synchronize_of_hasLine hline, if_neg hsome, hformat, ← dateSlots_snd steps decided date, ← hnow]
      simp only [if_neg hentries]
    · rw [← hnow]
      exact read_withLine_dateSlots hline _ _ hbinary

/-- A slot without an approver, one of two slots of an approver, and a sequence that two steps have. -/
theorem synchronize_dates_hits_of_repeated_sequence :
    let slots (date : String) (last : List (String × Json)) : List (String × Json) :=
      [("a", .object [("id", .string "kim")]), ("b", .null),
        ("c", .object [("date", .string date), ("id", .string "lee")]),
        ("d", .object (("id", .string "kim") :: last))]
    let document (date : String) (last : List (String × Json)) : Json :=
      .object [("approvalLine", .object (slots date last)), ("total", .number (.whole 12))]
    let steps : List Step := [⟨"7", 2, "kim", none, false⟩, ⟨"7", 1, "lee", none, false⟩, ⟨"7", 1, "kim", none, true⟩]
    HasLine (some (document "" []).write) [("approvalLine", .object (slots "" [])), ("total", .number (.whole 12))]
        (slots "" []) ∧
      ∃ after, synchronize "%Y.%m.%d" (some (document "" []).write) steps [1] Date.epoch = .ok (.updated after 2) ∧
        Json.read after = .ok (document "1970.01.01" [("date", .string "1970.01.01")]) := by
  intro slots document steps
  have hwithin : Json.Within JsonNumber.ReadsBack Json.greatestDepth (document "" []) := by decide +kernel
  have hline : HasLine (some (document "" []).write) _ (slots "" []) := ⟨_, rfl, Json.read_write hwithin, rfl⟩
  have hhits : ¬Hit steps [1] (slots "" []) 0 ∧ ¬Hit steps [1] (slots "" []) 1 ∧ Hit steps [1] (slots "" []) 2 ∧
      Hit steps [1] (slots "" []) 3 := by decide +kernel
  have hformat : Date.epoch.format? "%Y.%m.%d" = some "1970.01.01" := by decide +kernel
  obtain ⟨after, hupdated, -, hread⟩ := (synchronize_dates_hits "%Y.%m.%d" (some (document "" []).write) steps [1]
    Date.epoch).dated _ _ _ hline hformat ⟨2, hhits.2.2.1⟩
  have hcount : ((List.range (slots "" []).length).countP fun i => Hit steps [1] (slots "" []) i) = 2 := by
    decide +kernel
  refine ⟨hline, after, hcount ▸ hupdated, ?_⟩
  rw [hread (by simp [Json.numbers, Json.memberNumbers, slots])]
  simp [document, slots, lineKey, hhits, dated, Entries.put, dateKey]

/-! ## Synchronising in pieces -/

/-- The document that a change leaves of the one before. -/
def Change.after (before : Option String) : Change → Option String
  | .skipped => before
  | .unchanged => before
  | .updated text _ => some text

/-- The document as synchronising it leaves it. -/
def synchronized (pattern : String) (steps : List Step) (decided : List Nat) (today : Date)
    (document : Option String) : Except Fault (Option String) :=
  (synchronize pattern document steps decided today).map (Change.after document)

/-- The date that synchronising fills in at a place. -/
def due (steps : List Step) (decided : List Nat) (date : String) (place : String × Nat) : Option String :=
  if (place.1, place.2 + 1) ∈ targets steps decided then some date else none

/-- Dating slots is filling in the date where it is due. -/
theorem dateSlots_fst_eq_fill (steps : List Step) (decided : List Nat) (date : String)
    (slots : List (String × Json)) :
    (dateSlots (targets steps decided) date [] slots).1 = fill (due steps decided date) slots :=
  dateSlots_fst _ date slots

/-- A document without a line fares the same whatever is decided: it stays or is refused. -/
theorem synchronized_of_not_hasLine (pattern : String) (steps : List Step) (today : Date)
    (h : ∀ members slots, ¬HasLine document members slots) :
    (∀ decided, synchronized pattern steps decided today document = .ok document) ∨
      ∀ decided, synchronized pattern steps decided today document = .error (.unreadable notJson) := by
  have htold (decided : List Nat) := synchronize_dates_hits pattern document steps decided today
  by_cases hblank : ∀ text, document = some text → Text.blank text = true
  · exact Or.inl fun decided => by rw [synchronized, (htold decided).absent hblank]; rfl
  · obtain ⟨text, hdocument, hthere⟩ : ∃ text, document = some text ∧ Text.blank text = false := by
      simpa using hblank
    cases hread : Json.read text with
    | error _ =>
      refine Or.inr fun decided => ?_
      rw [synchronized, (htold decided).unreadable text hdocument hthere (by simp [hread])]
      rfl
    | ok value =>
      refine Or.inl fun decided => ?_
      rw [synchronized, (htold decided).lineless text value hdocument hread]
      · rfl
      · rintro members slots rfl hslots
        exact h members slots ⟨text, hdocument, hread, hslots⟩

/-- A document stays as it is while no slot is hit. -/
theorem synchronized_of_missed (h : HasLine document members slots) (hformat : today.format? pattern = some date)
    (hmissed : ∀ i, ¬Hit steps decided slots i) :
    synchronized pattern steps decided today document = .ok document := by
  rw [synchronized, (synchronize_dates_hits ..).missed members slots date h hformat hmissed]
  rfl

/-- A document with a slot that is hit is written anew with the dates that are due. -/
theorem synchronized_of_hit (h : HasLine document members slots) (hformat : today.format? pattern = some date)
    (hhit : ∃ i, Hit steps decided slots i) :
    synchronized pattern steps decided today document =
      .ok (some (withLine (fill (due steps decided date) slots) members).write) := by
  obtain ⟨after, hupdated, rfl, -⟩ := (synchronize_dates_hits pattern document steps decided today).dated
    members slots date h hformat hhit
  rw [synchronized, hupdated, withLine_eq_map h, ← dateSlots_fst_eq_fill, dateSlots_fst_eq_mapIdx]
  rfl

/-- With a date that cannot be rendered, all is well only while no step is decided. -/
theorem synchronized_of_unrendered (h : HasLine document members slots) (hformat : today.format? pattern = none) :
    synchronized pattern steps decided today document =
      if ∀ s ∈ steps, s.sequence ∉ decided then .ok document else .error (.format pattern) := by
  rw [synchronized, synchronize_of_hasLine h, hformat]
  split <;> rfl

variable {first second both : List Nat}

/-- A slot is hit by either part exactly when it is hit by both together. -/
theorem hit_or_hit_iff (hboth : ∀ n, n ∈ both ↔ n ∈ first ∨ n ∈ second) {i : Nat} :
    Hit steps both slots i ↔ Hit steps first slots i ∨ Hit steps second slots i := by
  simp only [Hit, hboth, and_or_left, exists_or]

/-- The dates that both parts fill in are those of the one and of the other. -/
theorem due_or_due (hboth : ∀ n, n ∈ both ↔ n ∈ first ∨ n ∈ second) (date : String) (place : String × Nat) :
    (due steps second date place).or (due steps first date place) = due steps both date place := by
  have hiff : (place.1, place.2 + 1) ∈ targets steps both ↔
      (place.1, place.2 + 1) ∈ targets steps first ∨ (place.1, place.2 + 1) ∈ targets steps second := by
    simp only [mem_targets_iff, hboth, and_or_left, exists_or]
  unfold due
  by_cases hfirst : (place.1, place.2 + 1) ∈ targets steps first <;>
    by_cases hsecond : (place.1, place.2 + 1) ∈ targets steps second <;> simp [hiff, hfirst, hsecond]

/-- A document in which dates have been filled in has a line, with the same places. -/
theorem hasLine_fill (h : HasLine document members slots)
    (hbinary : ∀ x, .binary x ∈ (Json.object members).numbers → (JsonNumber.binary x).ReadsBack) :
    HasLine (some (withLine (fill (due steps decided date) slots) members).write)
      (Entries.put lineKey (.object (fill (due steps decided date) slots)) members)
      (fill (due steps decided date) slots) := by
  refine ⟨_, rfl, ?_, Entries.lookup_put_self _ _ _⟩
  have hread := read_withLine_dateSlots h (targets steps decided) date hbinary
  rwa [dateSlots_fst_eq_fill] at hread

/-- Where no slot is hit no date is filled in. -/
theorem fill_due_of_missed (h : ∀ i, ¬Hit steps decided slots i) : fill (due steps decided date) slots = slots := by
  refine fill_eq_self fun i place hplace => if_neg fun htarget => ?_
  obtain ⟨s, hs, hdecided⟩ := mem_targets_iff.1 htarget
  exact h i ⟨place, s, hplace, hs, hdecided⟩

/-- With a date that can be rendered, to date the slots of one part and then of the other is to date both. -/
theorem synchronized_bind_of_hasLine (hboth : ∀ n, n ∈ both ↔ n ∈ first ∨ n ∈ second)
    (hline : HasLine document members slots) (hformat : today.format? pattern = some date)
    (hbinary : ∀ text value, document = some text → Json.read text = .ok value →
      ∀ x, .binary x ∈ value.numbers → (JsonNumber.binary x).ReadsBack) :
    (synchronized pattern steps first today document >>= synchronized pattern steps second today) =
      synchronized pattern steps both today document := by
  have hfills : fill (due steps second date) (fill (due steps first date) slots) =
      fill (due steps both date) slots := by
    rw [fill_fill]
    exact fill_congr fun _ place _ => due_or_due hboth date place
  by_cases hfirst : ∃ i, Hit steps first slots i
  · have hsome : ∃ i, Hit steps both slots i := hfirst.imp fun i hi => (hit_or_hit_iff hboth).2 (Or.inl hi)
    have hreadsBack : ∀ x, .binary x ∈ (Json.object members).numbers → (JsonNumber.binary x).ReadsBack := by
      obtain ⟨text, hdocument, hread, -⟩ := hline
      exact hbinary text _ hdocument hread
    have hagain : HasLine (some (withLine (fill (due steps first date) slots) members).write) _
        (fill (due steps first date) slots) := hasLine_fill hline hreadsBack
    rw [synchronized_of_hit hline hformat hfirst, synchronized_of_hit hline hformat hsome]
    change synchronized pattern steps second today
      (some (withLine (fill (due steps first date) slots) members).write) = _
    by_cases hsecond : ∃ i, Hit steps second (fill (due steps first date) slots) i
    · rw [synchronized_of_hit hagain hformat hsecond, hfills, withLine, Entries.put_put, withLine]
    · rw [not_exists] at hsecond
      rw [fill_due_of_missed hsecond] at hfills
      rw [synchronized_of_missed hagain hformat hsecond, hfills]
  · -- The first part leaves the document as it is, so the second one does all that both do.
    rw [not_exists] at hfirst
    have hsame (i : Nat) : Hit steps both slots i ↔ Hit steps second slots i := by
      rw [hit_or_hit_iff hboth, or_iff_right (hfirst i)]
    rw [fill_due_of_missed hfirst] at hfills
    rw [synchronized_of_missed hline hformat hfirst]
    change synchronized pattern steps second today document = _
    by_cases hsecond : ∃ i, Hit steps second slots i
    · rw [synchronized_of_hit hline hformat hsecond, hfills,
        synchronized_of_hit hline hformat (by simpa only [hsame] using hsecond)]
    · rw [not_exists] at hsecond
      rw [synchronized_of_missed hline hformat hsecond,
        synchronized_of_missed hline hformat (by simpa only [hsame] using hsecond)]

/-- Synchronising with two parts one after the other is synchronising with both together. -/
theorem synchronized_bind (hboth : ∀ n, n ∈ both ↔ n ∈ first ∨ n ∈ second)
    (hbinary : ∀ text value, document = some text → Json.read text = .ok value →
      ∀ x, .binary x ∈ value.numbers → (JsonNumber.binary x).ReadsBack) :
    (synchronized pattern steps first today document >>= synchronized pattern steps second today) =
      synchronized pattern steps both today document := by
  by_cases hline : ∃ members slots, HasLine document members slots
  · obtain ⟨members, slots, hline⟩ := hline
    cases hformat : today.format? pattern with
    | none =>
      have hnone : (∀ s ∈ steps, s.sequence ∉ both) ↔
          (∀ s ∈ steps, s.sequence ∉ first) ∧ ∀ s ∈ steps, s.sequence ∉ second := by
        simp only [hboth, not_or, forall_and]
      rw [synchronized_of_unrendered hline hformat, synchronized_of_unrendered hline hformat]
      by_cases hfirst : ∀ s ∈ steps, s.sequence ∉ first
      · rw [if_pos hfirst]
        change synchronized pattern steps second today document = _
        simp only [synchronized_of_unrendered hline hformat, hnone, and_iff_right hfirst]
      · rw [if_neg hfirst, if_neg fun h => hfirst (hnone.1 h).1]
        rfl
    | some date => exact synchronized_bind_of_hasLine hboth hline hformat hbinary
  · simp only [not_exists] at hline
    rcases synchronized_of_not_hasLine pattern steps today hline with hall | hall
    · rw [hall first, hall both]
      exact hall second
    · rw [hall first, hall both]
      rfl

/-- Dates may be set in pieces: one part of the decided steps and then another one, which may overlap, leave the
very text that both together leave, in either order and also where they are refused; so synchronising once more
leaves the text as it is. -/
theorem synchronized_in_pieces (pattern : String) (steps : List Step) (today : Date) (document : Option String)
    (first second both : List Nat) (hboth : ∀ n, n ∈ both ↔ n ∈ first ∨ n ∈ second)
    (hbinary : ∀ text value, document = some text → Json.read text = .ok value →
      ∀ x, .binary x ∈ value.numbers → (JsonNumber.binary x).ReadsBack) :
    (synchronized pattern steps first today document >>= synchronized pattern steps second today) =
        synchronized pattern steps both today document ∧
      (synchronized pattern steps second today document >>= synchronized pattern steps first today) =
        synchronized pattern steps both today document ∧
      ∀ after, synchronized pattern steps first today document = .ok after →
        synchronized pattern steps first today after = .ok after := by
  refine ⟨synchronized_bind hboth hbinary, synchronized_bind (fun n => (hboth n).trans or_comm) hbinary, ?_⟩
  intro after hafter
  have hagain : (synchronized pattern steps first today document >>= synchronized pattern steps first today) =
      synchronized pattern steps first today document := synchronized_bind (fun _ => or_self_iff.symm) hbinary
  rwa [hafter] at hagain

/-- Two slots whose steps are decided, the one of them twice, in a document with a number that is no whole one. -/
theorem synchronized_in_pieces_of_two_slots :
    let line (date : List (String × Json)) : Json := .object
      [("b", .object (("id", .string "kim") :: date)), ("a", .object (("id", .string "lee") :: date))]
    let document (date : List (String × Json)) : Json :=
      .object [("approvalLine", line date), ("total", .number (.binary ⟨false, 6755399441055744, -52⟩))]
    let steps : List Step := [⟨"7", 1, "lee", none, false⟩, ⟨"7", 2, "kim", none, true⟩]
    let set (decided : List Nat) := synchronized "%Y.%m.%d" steps decided Date.epoch
    (∀ n, n ∈ [1, 2] ↔ n ∈ [1] ∨ n ∈ [2, 1]) ∧
      (set [1] (some (document []).write) >>= set [2, 1]) =
        .ok (some (document [("date", .string "1970.01.01")]).write) := by
  intro line document steps set
  have hbinary : (JsonNumber.binary ⟨false, 6755399441055744, -52⟩).ReadsBack := by decide +kernel
  have hwithin : Json.Within JsonNumber.ReadsBack Json.greatestDepth (document []) := by decide +kernel
  have hboth : ∀ n, n ∈ [1, 2] ↔ n ∈ [1] ∨ n ∈ [2, 1] := by
    intro n
    simp
    omega
  refine ⟨hboth, ?_⟩
  rw [(synchronized_in_pieces "%Y.%m.%d" steps Date.epoch (some (document []).write) [1] [2, 1] [1, 2] hboth
    fun text value htext hread x hx => ?_).1]
  · decide +kernel
  · rw [Option.some.injEq] at htext
    rw [← htext, Json.read_write hwithin, Except.ok.injEq] at hread
    have hx : x = ⟨false, 6755399441055744, -52⟩ := by
      simpa [← hread, document, line, Json.numbers, Json.memberNumbers] using hx
    exact hx ▸ hbinary

end SignOff.Document
