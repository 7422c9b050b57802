import SignOff.Forms
import SignOff.Proofs.Json.Taking
import SignOff.Proofs.Json.Yielding

/-!
# Forms that round-trip

The values of the approval workflow are read back from their texts, as long as their numbers are of the sizes
that the forms have for them, and whatever is read has such numbers. A form can be read from many texts, with its
fields in any order, in an array, without what is null, or with fields it does not know. Writing what has been
read leaves one text of these, which reading and writing again does not change.
-/

namespace SignOff

open Json (Takes Yields Reader takes_string takes_bool takes_integer takes_natural takes_date takes_name takes_none
  takes_some takes_ofText? takes_optional takes_list takes_record bounds_of_yields le_of_yields yields_of_list
  exists_row_of_yields)

/-- How the values of a type are written as JSON and read back. -/
structure Form (α : Type) where
  toJson : α → Json
  read : Reader α
  /-- The numbers of the value are of the sizes that the form has for them. -/
  Fits : α → Prop

namespace Form

variable {α : Type} (form : Form α)

/-- The text of a value. -/
def write (value : α) : String := (form.toJson value).write

/-- The value of a text. -/
def ofText (text : String) : Except Json.Fault α := Json.readWith form.read text.toList

/-- The text of the value of a text. -/
def rewrite (text : String) : Except Json.Fault String := (form.ofText text).map form.write

/-- Values and texts keep to each other. -/
structure RoundTrips : Prop where
  /-- A value is read back from its text. -/
  ofText_write : ∀ value, form.Fits value → form.ofText (form.write value) = .ok value
  /-- Every value of a text can be written and read back. -/
  fits_of_text : ∀ text value, form.ofText text = .ok value → form.Fits value
  /-- A text that has been read and written once is not changed by reading and writing it again. -/
  rewrite_rewrite : ∀ text settled, form.rewrite text = .ok settled → form.rewrite settled = .ok settled

/-- The reader takes the fitting values off their texts, and yields no others. -/
structure Faithful : Prop where
  takes : ∀ value, form.Fits value → Takes form.read (form.toJson value) value
  fits : ∀ value, Yields form.read value → form.Fits value

variable {form}

/-- A reader that takes and yields what fits, in front of any text, makes whole texts round-trip. -/
theorem Faithful.roundTrips (h : form.Faithful) : form.RoundTrips := by
  have hvalue : ∀ value, form.Fits value → form.ofText (form.write value) = .ok value := by
    intro value hfits
    have hread := h.takes value hfits [] Json.breaks_nil
    rw [List.append_nil] at hread
    rw [ofText, write, Json.write, String.toList_ofList, Json.readWith, hread]
    rfl
  have hfits : ∀ text value, form.ofText text = .ok value → form.Fits value := by
    intro text value hread
    obtain ⟨⟨_, rest⟩, hyields, hread⟩ := bind_eq_ok_iff.1 hread
    dsimp only at hread
    split at hread
    · cases hread
      exact h.fits _ ⟨_, _, hyields⟩
    · contradiction
  refine ⟨hvalue, hfits, fun text settled hsettled => ?_⟩
  obtain ⟨value, hread, rfl⟩ := map_eq_ok_iff.1 hsettled
  rw [rewrite, hvalue value (hfits text value hread)]
  rfl

end Form

/-! ## Sizes of numbers -/

/-- A number of 64 bits is read off its numeral. -/
theorem takes_int64 {n : Int} (h : IsInt64 n) : Takes readInt64 (.ofInt n) n :=
  takes_integer ⟨h.1, Int.le_trans h.2 (by decide)⟩ h.1 h.2

/-- The reader of numbers of 64 bits gives no others. -/
theorem isInt64_of_yields {n : Int} (h : Yields readInt64 n) : IsInt64 n := bounds_of_yields h

/-- A number that may be missing. -/
theorem takes_ofInt? {n? : Option Int} (h : ∀ n ∈ n?, IsInt64 n) :
    Takes (Json.readOptional readInt64) (Json.ofInt? n?) n? := by
  cases n? with
  | none => exact takes_none _
  | some n => exact takes_some (takes_int64 (h n rfl)) (by simp [Json.ofInt?, Json.ofInt])

/-- Values of one form in an array. -/
theorem takes_map {α : Type} {read : Reader α} {toJson : α → Json} {values : List α}
    (h : ∀ value ∈ values, Takes read (toJson value) value) :
    Takes (Json.readList read) (.array (values.map toJson)) values :=
  takes_list (List.forall₂_map_left_iff.2 (List.forall₂_same.2 h))

/-! ## Requests, applications and decisions -/

/-- A request to decide is read off its form. -/
theorem DecisionRequest.takes (r : DecisionRequest) : Takes read r.toJson r :=
  takes_record (by decide) (.next (takes_string r.applicationId) <| .next (takes_string r.approver) <|
    .next (takes_ofText? r.opinion) <| .next (takes_ofText? r.outcome) .nil) rfl

namespace Application

/-- An application that fits is read off its form. -/
theorem takes {a : Application} (h : a.Fits) : Takes read a.toJson a :=
  takes_record (by decide) (.next (takes_string a.id) <| .next (takes_ofText? a.title) <|
    .next (takes_ofText? a.document) <| .next (takes_name (Status.ofCapitals?_capitals a.status)) <|
    .next (takes_string a.requester) <| .next (takes_date a.requestedOn) <|
    .next (takes_ofText? a.requesterOpinion) <| .next (takes_int64 h) .nil) rfl

/-- An application that is read fits. -/
theorem fits_of_yields {a : Application} (h : Yields read a) : a.Fits := by
  obtain ⟨row, hrow, rfl⟩ := exists_row_of_yields h
  obtain ⟨-, -, -, -, -, -, -, hversion, -⟩ := hrow
  exact isInt64_of_yields hversion.of_required

end Application

/-- A decision is read off its form. -/
theorem Decision.takes (d : Decision) : Takes read d.toJson d :=
  takes_record (by decide) (.next (takes_name (Outcome.ofCapitals?_capitals d.outcome)) <|
    .next (takes_date d.decidedOn) <| .next (takes_ofText? d.opinion) .nil) rfl

/-! ## Chains -/

namespace Step

/-- A step that fits is read off its form. -/
theorem takes {s : Step} (h : s.Fits) : Takes read s.toJson s := by
  have hdecision : ∀ d ∈ s.decision, Takes Decision.read d.toJson d ∧ d.toJson ≠ .null :=
    fun d _ => ⟨d.takes, by simp [Decision.toJson]⟩
  exact takes_record (by decide) (.next (takes_string s.applicationId) <|
    .next (takes_natural (by decide) h) <| .next (takes_string s.approver) <|
    .next (takes_optional hdecision) <| .next (takes_bool s.isFinal) .nil) rfl

/-- A step that is read fits. -/
theorem fits_of_yields {s : Step} (h : Yields read s) : s.Fits := by
  obtain ⟨row, hrow, rfl⟩ := exists_row_of_yields h
  obtain ⟨-, hsequence, -⟩ := hrow
  exact le_of_yields hsequence.of_required

end Step

namespace Chain

/-- A chain that fits is read off its form. -/
theorem takes {c : Chain} (h : c.Fits) : Takes read c.toJson c :=
  takes_record (by decide) (.next (Application.takes h.1) <|
    .next (takes_map fun s hs => Step.takes (h.2 s hs)) .nil) rfl

/-- A chain that is read fits. -/
theorem fits_of_yields {c : Chain} (h : Yields read c) : c.Fits := by
  obtain ⟨row, hrow, rfl⟩ := exists_row_of_yields h
  obtain ⟨happlication, hsteps, -⟩ := hrow
  exact ⟨Application.fits_of_yields happlication.of_required,
    fun s hs => Step.fits_of_yields (yields_of_list hsteps.of_required s hs)⟩

end Chain

/-! ## Submissions -/

namespace Origin

/-- A number within the record has 64 bits. -/
def Fits (o : Origin) : Prop := ∀ n ∈ o.subSequence, IsInt64 n

/-- An origin that fits is read off its form. -/
theorem takes {o : Origin} (h : o.Fits) : Takes read o.toJson o :=
  takes_record (by decide) (.next (takes_string o.tableCode) <| .next (takes_ofText? o.key) <|
    .next (takes_ofInt? h) .nil) rfl

/-- An origin that is read fits. -/
theorem fits_of_yields {o : Origin} (h : Yields read o) : o.Fits := by
  obtain ⟨row, hrow, rfl⟩ := exists_row_of_yields h
  obtain ⟨-, -, hsubSequence, -⟩ := hrow
  exact fun n hn => isInt64_of_yields (hsubSequence.of_optional n hn)

end Origin

namespace Submission

/-- The number in the origin is of its size. -/
def Fits (s : Submission) : Prop := ∀ o ∈ s.origin, o.Fits

/-- A submission that fits is read off its form. -/
theorem takes {s : Submission} (h : s.Fits) : Takes read s.toJson s := by
  have horigin : ∀ o ∈ s.origin, Takes Origin.read o.toJson o ∧ o.toJson ≠ .null :=
    fun o ho => ⟨Origin.takes (h o ho), by simp [Origin.toJson]⟩
  exact takes_record (by decide) (.next (takes_ofText? s.title) <| .next (takes_ofText? s.document) <|
    .next (takes_string s.requester) <| .next (takes_ofText? s.requesterOpinion) <|
    .next (takes_map fun approver _ => takes_string approver) <| .next (takes_optional horigin) .nil) rfl

/-- A submission that is read fits. -/
theorem fits_of_yields {s : Submission} (h : Yields read s) : s.Fits := by
  obtain ⟨row, hrow, rfl⟩ := exists_row_of_yields h
  obtain ⟨-, -, -, -, -, horigin, -⟩ := hrow
  exact fun o ho => Origin.fits_of_yields (horigin.of_optional o ho)

end Submission

namespace OriginLink

/-- A number within the record has 64 bits. -/
def Fits (l : OriginLink) : Prop := ∀ n ∈ l.subSequence, IsInt64 n

/-- A link that fits is read off its form. -/
theorem takes {l : OriginLink} (h : l.Fits) : Takes read l.toJson l :=
  takes_record (by decide) (.next (takes_string l.id) <| .next (takes_string l.applicationId) <|
    .next (takes_string l.tableCode) <| .next (takes_ofText? l.key) <| .next (takes_ofInt? h) .nil) rfl

/-- A link that is read fits. -/
theorem fits_of_yields {l : OriginLink} (h : Yields read l) : l.Fits := by
  obtain ⟨row, hrow, rfl⟩ := exists_row_of_yields h
  obtain ⟨-, -, -, -, hsubSequence, -⟩ := hrow
  exact fun n hn => isInt64_of_yields (hsubSequence.of_optional n hn)

end OriginLink

/-! ## Answers to batches -/

/-- The result of a batch item is read off its form. -/
theorem BatchResult.takes (r : BatchResult) : Takes read r.toJson r :=
  takes_record (by decide) (.next (takes_string r.applicationId) <| .next (takes_bool r.success) <|
    .next (takes_string r.message) .nil) rfl

namespace BatchSummary

/-- The counts have 64 bits. -/
def Fits (s : BatchSummary) : Prop :=
  s.total ≤ Text.nat64Greatest ∧ s.succeeded ≤ Text.nat64Greatest ∧ s.failed ≤ Text.nat64Greatest

/-- The answer to a batch that fits is read off its form. -/
theorem takes {s : BatchSummary} (h : s.Fits) : Takes read s.toJson s :=
  takes_record (by decide) (.next (takes_natural (Nat.le_refl _) h.1) <|
    .next (takes_natural (Nat.le_refl _) h.2.1) <| .next (takes_natural (Nat.le_refl _) h.2.2) <|
    .next (takes_map fun r _ => r.takes) .nil) rfl

/-- The answer to a batch that is read fits. -/
theorem fits_of_yields {s : BatchSummary} (h : Yields read s) : s.Fits := by
  obtain ⟨row, hrow, rfl⟩ := exists_row_of_yields h
  obtain ⟨htotal, hsucceeded, hfailed, -⟩ := hrow
  exact ⟨le_of_yields htotal.of_required, le_of_yields hsucceeded.of_required,
    le_of_yields hfailed.of_required⟩

end BatchSummary

/-! ## The forms -/

/-- The form of requests. -/
def DecisionRequest.form : Form DecisionRequest := ⟨toJson, read, fun _ => True⟩

/-- The form of applications. -/
def Application.form : Form Application := ⟨toJson, read, Fits⟩

/-- The form of steps. -/
def Step.form : Form Step := ⟨toJson, read, Fits⟩

/-- The form of decisions. -/
def Decision.form : Form Decision := ⟨toJson, read, fun _ => True⟩

/-- The form of chains. -/
def Chain.form : Form Chain := ⟨toJson, read, Fits⟩

/-- The form of submissions. -/
def Submission.form : Form Submission := ⟨toJson, read, Fits⟩

/-- The form of origin links. -/
def OriginLink.form : Form OriginLink := ⟨toJson, read, Fits⟩

/-- The form of answers to batches. -/
def BatchSummary.form : Form BatchSummary := ⟨toJson, read, Fits⟩

/-- The form of log formats. -/
def LogFormat.form : Form LogFormat := ⟨toJson, read, fun _ => True⟩

/-- Requests, applications, steps, decisions, chains with their steps in any order, submissions, origin links,
answers to batches and log formats are read back from their texts, and a text of any of them settles when it is
read and written once. -/
theorem forms_round_trip :
    DecisionRequest.form.RoundTrips ∧ Application.form.RoundTrips ∧ Step.form.RoundTrips ∧
      Decision.form.RoundTrips ∧ Chain.form.RoundTrips ∧ Submission.form.RoundTrips ∧
      OriginLink.form.RoundTrips ∧ BatchSummary.form.RoundTrips ∧ LogFormat.form.RoundTrips := by
  have hrequest : DecisionRequest.form.Faithful := ⟨fun r _ => r.takes, fun _ _ => trivial⟩
  have happlication : Application.form.Faithful := ⟨fun _ => Application.takes, fun _ => Application.fits_of_yields⟩
  have hstep : Step.form.Faithful := ⟨fun _ => Step.takes, fun _ => Step.fits_of_yields⟩
  have hdecision : Decision.form.Faithful := ⟨fun d _ => d.takes, fun _ _ => trivial⟩
  have hchain : Chain.form.Faithful := ⟨fun _ => Chain.takes, fun _ => Chain.fits_of_yields⟩
  have hsubmission : Submission.form.Faithful := ⟨fun _ => Submission.takes, fun _ => Submission.fits_of_yields⟩
  have hlink : OriginLink.form.Faithful := ⟨fun _ => OriginLink.takes, fun _ => OriginLink.fits_of_yields⟩
  have hsummary : BatchSummary.form.Faithful := ⟨fun _ => BatchSummary.takes, fun _ => BatchSummary.fits_of_yields⟩
  have hlog : LogFormat.form.Faithful := ⟨fun f _ => takes_name f.ofName?_name, fun _ _ => trivial⟩
  exact ⟨hrequest.roundTrips, happlication.roundTrips, hstep.roundTrips, hdecision.roundTrips, hchain.roundTrips,
    hsubmission.roundTrips, hlink.roundTrips, hsummary.roundTrips, hlog.roundTrips⟩

/-- A chain with its steps out of order and dates outside of four-digit years is read back, and an array with a
date in the free spelling settles as the object of its value. -/
theorem forms_round_trip_of_distant_dates :
    let early : Decision := ⟨.approved, ⟨-1, 6, 15, by decide⟩, none⟩
    let late : Decision := ⟨.rejected, ⟨10000, 1, 1, by decide⟩, some "\"반려\"\n\x01"⟩
    let chain : Chain := ⟨⟨"7", none, some "\\", .pending, "kim", Date.epoch, none, Text.int64Least⟩,
      [⟨"7", 2, "lee", some late, true⟩, ⟨"7", 1, "lee", some early, false⟩]⟩
    let text := "[ \x7b\"APPROVED\": null\x7d, \" -1 - 6-15 \", null ]"
    chain.Fits ∧ Chain.form.ofText (Chain.form.write chain) = .ok chain ∧
      Decision.form.rewrite text = .ok (Decision.form.write early) ∧
      Decision.form.rewrite (Decision.form.write early) = .ok (Decision.form.write early) := by
  intro early late chain text
  obtain ⟨-, -, -, hdecision, hchain, -⟩ := forms_round_trip
  have hfits : chain.Fits := ⟨(by decide : IsInt64 Text.int64Least), by simp [chain, Step.Fits, Text.nat32Greatest]⟩
  have hsettled : Decision.form.rewrite text = .ok (Decision.form.write early) := by decide +kernel
  exact ⟨hfits, hchain.ofText_write chain hfits, hsettled, hdecision.rewrite_rewrite text _ hsettled⟩

end SignOff
