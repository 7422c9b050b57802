import SignOff.Proofs.Approval.Deciding
import SignOff.Proofs.Results
import SignOff.Proofs.Settings.Values
import SignOff.Service

/-!
# Date formats that have been validated

A date pattern is tried on the epoch day before it is used. That speaks for every day, since a pattern can be rendered
exactly when it is written in the grammar of patterns, which does not look at the day. So no decision of a service
with validated settings finds that its date cannot be written, whatever the document, and a pattern that is turned
down could not have been rendered on any day.
-/

namespace SignOff

namespace Pattern

/-- The letters that ask for a number of the date. -/
def numberLetters : List Char := ['Y', 'C', 'y', 'q', 'm', 'd', 'e', 'j', 'w', 'u', 'U', 'W', 'G', 'g', 'V']

/-- The other characters that may stand after a percent sign. -/
def otherLetters : List Char := ['B', 'b', 'h', 'A', 'a', 'D', 'x', 'F', 'v', 't', 'n', '%']

/-- The characters that change the padding of a number. -/
def paddingMarks : List Char := ['-', '_', '0']

/-- The grammar of the patterns that a date alone can answer. -/
inductive Usable : List Char → Prop where
  | nil : Usable []
  | literal {c : Char} {rest : List Char} (hc : c ≠ '%') (hrest : Usable rest) : Usable (c :: rest)
  | specifier {c : Char} {rest : List Char} (hc : c ∈ numberLetters ++ otherLetters) (hrest : Usable rest) :
      Usable ('%' :: c :: rest)
  | padded {mark c : Char} {rest : List Char} (hmark : mark ∈ paddingMarks) (hc : c ∈ numberLetters)
      (hrest : Usable rest) : Usable ('%' :: mark :: c :: rest)

/-- The letters of numbers are those in the list. -/
theorem isSome_numberOf?_iff (c : Char) : (numberOf? c).isSome ↔ c ∈ numberLetters := by
  unfold numberOf?
  split <;> simp_all [numberLetters]

/-- The letters of specifiers are those of numbers and of all others. -/
theorem isSome_specifier?_iff (c : Char) : (specifier? c).isSome ↔ c ∈ numberLetters ++ otherLetters := by
  rw [List.mem_append, ← isSome_numberOf?_iff]
  unfold specifier?
  cases numberOf? c with
  | some number => simp
  | none => simp only; split <;> simp_all [otherLetters]

/-- The marks for padding are those in the list. -/
theorem isSome_paddingOf?_iff (c : Char) : (paddingOf? c).isSome ↔ c ∈ paddingMarks := by
  unfold paddingOf?
  split <;> simp_all [paddingMarks]

/-- No padding mark is a letter of a specifier. -/
theorem not_mem_letters_of_paddingMark {mark : Char} (h : mark ∈ paddingMarks) :
    mark ∉ numberLetters ++ otherLetters := by
  have hnone : (paddingMarks.all fun mark => !(numberLetters ++ otherLetters).contains mark) = true := rfl
  simpa using List.all_eq_true.1 hnone mark h

section Inversion

variable {c mark : Char} {rest : List Char}

/-- A character other than a percent sign is always usable. -/
theorem usable_cons_iff (hc : c ≠ '%') : Usable (c :: rest) ↔ Usable rest := by
  constructor
  · intro h
    cases h with
    | literal _ hrest => exact hrest
    | specifier _ _ | padded _ _ _ => exact absurd rfl hc
  · exact .literal hc

/-- A percent sign at the end is not usable. -/
theorem not_usable_percent : ¬Usable ['%'] := by
  intro h
  cases h with
  | literal hc _ => exact hc rfl

/-- A percent sign without a mark for padding asks for the letter of a specifier. -/
theorem usable_specifier_iff (hc : c ∉ paddingMarks) :
    Usable ('%' :: c :: rest) ↔ c ∈ numberLetters ++ otherLetters ∧ Usable rest := by
  constructor
  · intro h
    cases h with
    | literal hpercent _ => exact absurd rfl hpercent
    | specifier hletter hrest => exact ⟨hletter, hrest⟩
    | padded hmark _ _ => exact absurd hmark hc
  · exact fun ⟨hletter, hrest⟩ => .specifier hletter hrest

/-- A mark for padding at the end is not usable. -/
theorem not_usable_padding (hmark : mark ∈ paddingMarks) : ¬Usable ['%', mark] := by
  intro h
  cases h with
  | literal hpercent _ => exact hpercent rfl
  | specifier hletter _ => exact not_mem_letters_of_paddingMark hmark hletter

/-- A mark for padding asks for the letter of a number. -/
theorem usable_padded_iff (hmark : mark ∈ paddingMarks) :
    Usable ('%' :: mark :: c :: rest) ↔ c ∈ numberLetters ∧ Usable rest := by
  constructor
  · intro h
    cases h with
    | literal hpercent _ => exact absurd rfl hpercent
    | specifier hletter _ => exact absurd hletter (not_mem_letters_of_paddingMark hmark)
    | padded _ hletter hrest => exact ⟨hletter, hrest⟩
  · exact fun ⟨hletter, hrest⟩ => .padded hmark hletter hrest

end Inversion

/-- A pattern falls into pieces exactly when it is written in the grammar. -/
theorem isSome_pieces?_iff (cs : List Char) : (pieces? cs).isSome ↔ Usable cs := by
  fun_induction pieces? cs with
  | case1 => simpa using Usable.nil
  | case2 => simpa using not_usable_percent
  | case3 c rest hpadding ih =>
    have hc : c ∉ paddingMarks := by rw [← isSome_paddingOf?_iff, hpadding]; simp
    rw [usable_specifier_iff hc, ← isSome_specifier?_iff, ← ih]
    cases specifier? c <;> cases pieces? rest <;> simp
  | case4 mark padding hpadding =>
    have hmark : mark ∈ paddingMarks := by rw [← isSome_paddingOf?_iff, hpadding]; rfl
    simpa using not_usable_padding hmark
  | case5 mark padding hpadding letter rest ih =>
    have hmark : mark ∈ paddingMarks := by rw [← isSome_paddingOf?_iff, hpadding]; rfl
    rw [usable_padded_iff hmark, ← isSome_numberOf?_iff, ← ih]
    cases numberOf? letter <;> cases pieces? rest <;> simp
  | case6 c rest hlone hpercent ih =>
    have hc : c ≠ '%' := by
      rintro rfl
      cases rest with
      | nil => exact hlone rfl rfl
      | cons next rest => exact hpercent next rest rfl rfl
    rw [usable_cons_iff hc, ← ih]
    cases pieces? rest <;> simp

end Pattern

/-- A pattern can be rendered for a day exactly when it is written in the grammar. -/
theorem Date.isSome_format?_iff (pattern : String) (day : Date) :
    (day.format? pattern).isSome ↔ Pattern.Usable pattern.toList := by
  rw [Date.format?, Option.isSome_map, Pattern.isSome_pieces?_iff]

/-- The date is missing in the document of a decision because the pattern could not be rendered. -/
def Record.Unrendered (record : Record) : Prop := ∃ pattern, record.report = .failed (.format pattern)

/-- A document is not left without a date for want of the date's text, when the date can be rendered. -/
theorem Document.synchronize_ne_format {pattern : String} {today : Date}
    (hformat : (today.format? pattern).isSome = true) (document : Option String) (steps : List Step)
    (decided : List Nat) (other : String) :
    synchronize pattern document steps decided today ≠ .error (.format other) := by
  obtain ⟨date, hdate⟩ := Option.isSome_iff_exists.1 hformat
  intro h
  simp only [synchronize, hdate] at h
  split at h
  · cases h
  · split at h
    · cases h
    · split at h
      · cases h
      · split at h
        · cases h
        · split at h <;> cases h

section Rendered

variable {pattern : String} {today : Date} (hformat : (today.format? pattern).isSome = true)
include hformat

/-- A decision with a pattern that can be rendered on the day finds no fault in the pattern. -/
theorem Chain.not_unrendered {chain : Chain} {command : Command} {record : Record}
    (h : chain.decide command pattern today = .ok record) : ¬record.Unrendered := by
  obtain ⟨cursor, -, -, rfl⟩ := decide_eq_ok_iff.1 h
  rintro ⟨other, hreport⟩
  change (followDocument _ _ _ _ _).2 = _ at hreport
  unfold followDocument at hreport
  split at hreport
  · cases hreport
  · cases hreport
  · cases hreport
  · next fault hfault =>
    rw [DocumentReport.failed.injEq] at hreport
    exact Document.synchronize_ne_format hformat _ _ _ other (hreport ▸ hfault)

variable {σ υ : Type} [UnitStore σ υ]

/-- Neither does one in a unit of a store, be it of a batch or alone. -/
theorem UnitStore.not_unrendered {s : σ} {u u' : υ} {command : Command} {record : Record}
    (h : recordDecision pattern today s u command = (.ok record, u')) : ¬record.Unrendered := by
  simp only [recordDecision, compute] at h
  rcases hload : load s u command.applicationId with ⟨refusal | chain, loaded⟩
  · simp [hload] at h
  · cases chain with
    | none => simp [hload] at h
    | some chain =>
      cases hdecide : chain.decide command pattern today with
      | error refusal => simp [hload, hdecide] at h
      | ok made =>
        rcases hstore : store s loaded made with ⟨refusal | _, stored⟩
        · simp [hload, hdecide, hstore] at h
        · simp only [hload, hdecide, hstore, Prod.mk.injEq, Except.ok.injEq] at h
          exact h.1 ▸ Chain.not_unrendered hformat hdecide

end Rendered

/-- A service does so on no day, when its pattern can be rendered on every day. -/
theorem Service.not_unrendered {σ υ : Type} [UnitStore σ υ] {policy : Policy} {today : Date}
    (hformat : (today.format? policy.dateFormat).isSome = true) {s s' : σ} {request : DecisionRequest}
    {record : Record} (h : decide policy today s request = (.ok record, s')) : ¬record.Unrendered := by
  unfold decide at h
  split at h
  · cases h
  · next command _ =>
    simp only [UnitStore.inUnit] at h
    cases hopen : UnitStore.openUnit s with
    | error refusal => simp [hopen] at h
    | ok u =>
      rcases hdecision : UnitStore.recordDecision policy.dateFormat today s u command with ⟨refusal | made, u'⟩
      · simp [hopen, hdecision] at h
      · rcases hcommit : UnitStore.commit s u' with ⟨refusal | _, committed⟩
        · simp [hopen, hdecision, hcommit] at h
        · simp only [hopen, hdecision, hcommit, Prod.mk.injEq, Except.ok.injEq] at h
          exact h.1 ▸ UnitStore.not_unrendered hformat hdecision

namespace Settings

/-- What a service with these settings goes by. -/
def policy (s : Settings) : Policy := ⟨s.bulkMaxItems, s.dateFormat⟩

/-- Settings are accepted as they are, and no others are. -/
theorem validate_eq_ok_iff {s t : Settings} : s.validate = .ok t ↔ s.flaw? = none ∧ s = t := by
  unfold validate
  cases s.flaw? <;> simp

/-- Settings are refused exactly for their first flaw. -/
theorem validate_eq_error_iff {s : Settings} {error : SettingsError} :
    s.validate = .error error ↔ ∃ flaw, s.flaw? = some flaw ∧ error = .invalid flaw := by
  unfold validate
  cases s.flaw? <;> simp [eq_comm]

/-- What is loaded would be accepted again. -/
theorem validate_of_load {site : Site} {options : LoadOptions} {s : Settings} (h : load site options = .ok s) :
    s.validate = .ok s := by
  obtain ⟨file, -, h⟩ := bind_eq_ok_iff.1 h
  obtain ⟨environment, -, h⟩ := bind_eq_ok_iff.1 h
  obtain ⟨hflaw, rfl⟩ := validate_eq_ok_iff.1 h
  exact validate_eq_ok_iff.2 ⟨hflaw, rfl⟩

/-- Accepted settings have a pattern that can be rendered for every day. -/
theorem isSome_format?_of_validate {s : Settings} (h : s.validate = .ok s) (day : Date) :
    (day.format? s.dateFormat).isSome = true :=
  ((flaw?_eq_none_iff s).1 (validate_eq_ok_iff.1 h).1 .dateFormat).2 day

/-- The first broken rule is this one, or comes later while this one is kept. -/
theorem check_eq_some_iff {broken : Prop} [Decidable broken] {flaw found : Flaw} {later : Option Flaw} :
    (if broken then some flaw else later) = some found ↔ broken ∧ flaw = found ∨ ¬broken ∧ later = some found := by
  by_cases h : broken <;> simp [h]

/-- A pattern is turned down as unusable when it is not blank and not written in the grammar. -/
theorem of_flaw?_eq_unusable {s : Settings} {pattern : String} (h : s.flaw? = some (.unusableDateFormat pattern)) :
    pattern = s.dateFormat ∧ Text.blank s.dateFormat = false ∧ ¬Pattern.Usable s.dateFormat.toList := by
  simp only [flaw?, check_eq_some_iff, reduceCtorEq, and_false, false_or, or_false, Flaw.unusableDateFormat.injEq]
    at h
  obtain ⟨-, -, -, -, -, -, -, hblank, hunusable, rfl⟩ := h
  refine ⟨rfl, by simpa using hblank, fun husable => ?_⟩
  rw [← Date.isSome_format?_iff _ Date.epoch, ← Option.isNone_eq_false_iff, hunusable] at husable
  contradiction

/-- Settings that are accepted, or loaded from anywhere, have a date format in the grammar of patterns. It can be
rendered for every day, and no decision of a service with these settings fails to date a document on account of
it: not on a chain by itself, not in a unit of any store and not alone in a unit of its own. A format that is
turned down because it cannot be rendered for the one day that is tried cannot be rendered for any. -/
theorem date_format_validated (s : Settings) :
    (∀ day : Date, (day.format? s.dateFormat).isSome ↔ Pattern.Usable s.dateFormat.toList) ∧
    ((s.validate = .ok s ∨ ∃ site options, load site options = .ok s) →
      (∀ day : Date, ∃ text, day.format? s.dateFormat = some text) ∧
      (∀ (chain : Chain) command today record,
        chain.decide command s.dateFormat today = .ok record → ¬record.Unrendered) ∧
      (∀ {σ υ : Type} [UnitStore σ υ] (store : σ) (unit unit' : υ) command today record,
        UnitStore.recordDecision s.dateFormat today store unit command = (.ok record, unit') →
          ¬record.Unrendered) ∧
      ∀ {σ υ : Type} [UnitStore σ υ] (store store' : σ) request today record,
        Service.decide s.policy today store request = (.ok record, store') → ¬record.Unrendered) ∧
    ∀ pattern, s.validate = .error (.invalid (.unusableDateFormat pattern)) →
      pattern = s.dateFormat ∧ Text.blank s.dateFormat = false ∧
        ∀ day : Date, day.format? s.dateFormat = none := by
  refine ⟨Date.isSome_format?_iff _, fun haccepted => ?_, fun pattern hrefused => ?_⟩
  · have hvalid : s.validate = .ok s := by
      rcases haccepted with hvalid | ⟨site, options, hload⟩
      · exact hvalid
      · exact validate_of_load hload
    have hformat := isSome_format?_of_validate hvalid
    refine ⟨fun day => Option.isSome_iff_exists.1 (hformat day), ?_, ?_, ?_⟩
    · exact fun chain command today record h => Chain.not_unrendered (hformat today) h
    · exact fun store unit unit' command today record h => UnitStore.not_unrendered (hformat today) h
    · exact fun store store' request today record h => Service.not_unrendered (hformat today) h
  · obtain ⟨flaw, hflaw, heq⟩ := validate_eq_error_iff.1 hrefused
    cases heq
    obtain ⟨rfl, hblank, hunusable⟩ := of_flaw?_eq_unusable hflaw
    refine ⟨rfl, hblank, fun day => ?_⟩
    rw [← Option.not_isSome_iff_eq_none, Date.isSome_format?_iff]
    exact hunusable

/-- A format with a padded day is written on the last day of the calendar too, and one with the hour cannot be
written on any day. -/
theorem date_format_validated_of_two_formats :
    (∃ text, Date.format? "%-d %B %G" ⟨262142, 12, 31, by decide⟩ = some text) ∧
      ∀ day : Date, day.format? "%H:%M" = none := by
  have haccepted : { default with dateFormat := "%-d %B %G" }.validate =
      .ok { default with dateFormat := "%-d %B %G" } := by decide +kernel
  have hrefused : { default with dateFormat := "%H:%M" }.validate =
      .error (.invalid (.unusableDateFormat "%H:%M")) := by decide +kernel
  exact ⟨((date_format_validated _).2.1 (.inl haccepted)).1 _, ((date_format_validated _).2.2 _ hrefused).2.2⟩

end Settings

end SignOff
