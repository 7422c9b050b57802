import SignOff.Proofs.Document.Synchronizing
import SignOff.Proofs.Json.Denoted
import SignOff.Proofs.Json.Paths

/-!
# Numbers of a document that is dated

To date a slot the whole document is read and written anew, so every number in it goes through the reader and the
writer. Outside of the dates each numeral stays on its path, written as the reader understands it: it denotes the
same if it is a whole number of 64 bits or a decimal of fifteen digits near one, but a longer one may be altered.
-/

namespace SignOff.Document

open Json (Segment Written)

variable {pattern text after date : String} {document : Option String} {steps : List Step} {decided : List Nat}
  {today : Date} {slots members : List (String × Json)} {path : List Segment} {n : JsonNumber} {entries : Nat}

/-- The path leads into the date of a slot that is hit. -/
def Replaced (steps : List Step) (decided : List Nat) (slots : List (String × Json)) (path : List Segment) : Prop :=
  ∃ i key slot rest, slots[i]? = some (key, slot) ∧ Hit steps decided slots i ∧
    path = .member lineKey :: .member key :: .member dateKey :: rest

/-! ## Paths past the dates -/

/-- A date in a slot leaves the numbers on other paths into the slot. -/
theorem at?_dated {slot : Json} (h : slot.at? path = some (.number n))
    (hpath : ∀ rest, path ≠ .member dateKey :: rest) : (dated date slot).at? path = some (.number n) := by
  cases slot with
  | object entries =>
    cases path with
    | nil => simp [Json.at?] at h
    | cons s path =>
      cases s with
      | item i => exact h
      | member key =>
        have hkey : key ≠ dateKey := by
          rintro rfl
          exact hpath path rfl
        rw [dated, Json.at?, Json.child?, Entries.lookup_put_of_ne hkey]
        exact h
  | _ => exact h

/-- A date that is due at a slot is that of a hit. -/
theorem hit_of_due {i : Nat} {found : String} (h : (place? slots i).bind (due steps decided date) = some found) :
    Hit steps decided slots i := by
  obtain ⟨place, hplace, hdue⟩ := Option.bind_eq_some_iff.1 h
  obtain ⟨s, hs, hdecided⟩ := mem_targets_iff.1 (Option.ite_none_right_eq_some.1 hdue).1
  exact ⟨place, s, hplace, hs, hdecided⟩

/-- Dates in the slots that are hit leave the numbers on all paths that do not lead into them. -/
theorem at?_fill (h : (Json.object slots).at? path = some (.number n))
    (hpath : ∀ i key slot rest, slots[i]? = some (key, slot) → Hit steps decided slots i →
      path ≠ .member key :: .member dateKey :: rest) :
    (Json.object (fill (due steps decided date) slots)).at? path = some (.number n) := by
  cases path with
  | nil => simp [Json.at?] at h
  | cons s path =>
    cases s with
    | item i => exact h
    | member key =>
      obtain ⟨slot, hslot, hrest⟩ := Option.bind_eq_some_iff.1 h
      obtain ⟨i, now, hi, hnow, hlookup⟩ :=
        Entries.exists_lookup_of_keys_eq (@keys_fill (due steps decided date) slots) hslot
      rw [Json.at?, Json.child?, hlookup, Option.bind_some]
      rw [getElem?_fill, hi, Option.map_some, Option.some.injEq] at hnow
      split at hnow
      · next found hdue =>
        obtain rfl := (Prod.mk.inj hnow).2
        exact at?_dated hrest fun rest heq => hpath i key slot rest hi (hit_of_due hdue) (by rw [heq])
      · rw [← (Prod.mk.inj hnow).2]
        exact hrest

/-- A document in which slots are dated has its other numbers on their paths. -/
theorem at?_withLine (hslots : members.lookup lineKey = some (.object slots))
    (h : (Json.object members).at? path = some (.number n)) (hpath : ¬Replaced steps decided slots path) :
    (withLine (fill (due steps decided date) slots) members).at? path = some (.number n) := by
  cases path with
  | nil => simp [Json.at?] at h
  | cons s path =>
    cases s with
    | item i => exact h
    | member key =>
      rw [withLine, Json.at?, Json.child?]
      by_cases hkey : key = lineKey
      · subst hkey
        rw [Entries.lookup_put_self, Option.bind_some]
        rw [Json.at?, Json.child?, hslots, Option.bind_some] at h
        refine at?_fill h fun i key slot rest hi hhit heq => hpath ⟨i, key, slot, rest, hi, hhit, ?_⟩
        rw [heq]
      · rw [Entries.lookup_put_of_ne hkey]
        exact h

/-! ## Documents that are updated -/

/-- A document that is updated has a line, and dates have been filled in. -/
theorem of_updated (h : synchronize pattern document steps decided today = .ok (.updated after entries)) :
    ∃ members slots date, HasLine document members slots ∧
      after = (withLine (fill (due steps decided date) slots) members).write := by
  cases hpresent : present? document with
  | none => simp [synchronize, hpresent] at h
  | some text =>
    cases hread : Json.read text with
    | error _ => simp [synchronize, hpresent, hread] at h
    | ok value =>
      cases hline : line? value with
      | none => simp [synchronize, hpresent, hread, hline] at h
      | some found =>
        obtain ⟨rfl, hslots⟩ := line?_eq_some_iff.1 hline
        have hhas : HasLine document found.2 found.1 :=
          ⟨text, (Option.filter_eq_some_iff.1 hpresent).1, hread, hslots⟩
        rw [synchronize_of_hasLine hhas] at h
        split at h
        · cases h
        split at h
        · cases h
        · next date _ =>
          dsimp only at h
          split at h
          · cases h
          · cases h
            exact ⟨found.2, found.1, date, hhas, by rw [dateSlots_fst_eq_fill]⟩

/-- Every numeral of a document without repeated keys has a path, and synchronising leaves it there, unless the path
leads into a date that is replaced. It is written as the number that the reader makes of it, and denotes the same if it
is a whole number of 64 bits or a decimal of fifteen digits near one. -/
theorem synchronize_keeps_numerals {old : Written} (hold : Json.written text = .ok old)
    (hdistinct : old.distinct = true)
    (h : synchronize pattern (some text) steps decided today = .ok (.updated after entries)) :
    (∀ x ∈ old.numerals, ∃ path, old.numeral? path = some x) ∧
      ∃ members slots new, HasLine (some text) members slots ∧ Json.written after = .ok new ∧
        ∀ path x, old.numeral? path = some x → ¬Replaced steps decided slots path →
          ∃ n, x.value? = some n ∧ new.numeral? path = some n.numeral ∧
            (x.Exact → n.numeral.rational = x.rational) := by
  obtain ⟨members, slots, date, hline, rfl⟩ := of_updated h
  obtain ⟨source, hsource, hread, hslots⟩ := hline
  obtain rfl := Option.some.inj hsource
  have hvalue : old.value? = some (.object members) := by
    obtain ⟨w, hw, hvalue⟩ := Json.read_eq_ok_iff.1 hread
    rw [hold] at hw
    cases hw
    exact hvalue
  have hwithin := Json.within_of_read hread
  rw [← withLine_of_line? (line?_eq_some_iff.2 ⟨rfl, hslots⟩)] at hwithin
  refine ⟨fun x hx => Written.exists_path old hdistinct hx, members, slots, _, ⟨text, rfl, hread, hslots⟩,
    Json.written_write (within_withLine_fill hwithin (due steps decided date)), fun path x hx hpath => ?_⟩
  obtain ⟨n, hn, hat⟩ := Written.at?_of_numeral? hvalue hdistinct hx
  exact ⟨n, hn, Written.numeral?_ofValue (at?_withLine hslots hat hpath),
    fun hexact => Json.Numeral.rational_of_value? hn hexact⟩

/-- An amount with two decimal places is the same after its document has been dated. -/
theorem synchronize_keeps_numerals_of_amount :
    let document (date : List (String × Json)) : Json := .object
      [("approvalLine", .object [("a", .object (("id", .string "lee") :: date))]),
        ("amount", .number (.binary ⟨false, 5429652300748554, -42⟩))]
    let old := Written.ofValue (document [])
    let after := (document [("date", .string "1970.01.01")]).write
    let amount : Json.Numeral := ⟨false, ['1', '2', '3', '4'], ['5', '6'], none⟩
    Json.written (document []).write = .ok old ∧ old.distinct = true ∧
      synchronize "%Y.%m.%d" (some (document []).write) [⟨"7", 1, "lee", none, true⟩] [1] Date.epoch =
        .ok (.updated after 1) ∧
      ∃ new y, Json.written after = .ok new ∧ old.numeral? [.member "amount"] = some amount ∧
        new.numeral? [.member "amount"] = some y ∧ y.rational = amount.rational := by
  intro document old after amount
  have hwithin : Json.Within (fun _ => True) Json.greatestDepth (document []) := by decide +kernel
  have hold : Json.written (document []).write = .ok old := Json.written_write hwithin
  have hdistinct : old.distinct = true := by decide +kernel
  have hupdated : synchronize "%Y.%m.%d" (some (document []).write) [⟨"7", 1, "lee", none, true⟩] [1] Date.epoch =
      .ok (.updated after 1) := by decide +kernel
  have hamount : old.numeral? [.member "amount"] = some amount := by decide +kernel
  obtain ⟨-, members, slots, new, -, hnew, hkept⟩ := synchronize_keeps_numerals hold hdistinct hupdated
  have hpath : ¬Replaced [⟨"7", 1, "lee", none, true⟩] [1] slots [.member "amount"] := by
    rintro ⟨_, _, _, _, -, -, heq⟩
    simp at heq
  obtain ⟨n, -, hn, hsame⟩ := hkept _ _ hamount hpath
  exact ⟨hold, hdistinct, hupdated, new, _, hnew, hamount, hn, hsame (by decide +kernel)⟩

/-- An account number of more than 64 bits is another one after its document has been dated. -/
theorem long_account_altered :
    let document (date : List (String × Json)) (account : JsonNumber) : Json := .object
      [("approvalLine", .object [("a", .object (("id", .string "lee") :: date))]), ("account", .number account)]
    let text := (document [] (.whole 18446744073709551617)).write
    let after := (document [("date", .string "1970.01.01")] (.binary ⟨false, 4503599627370496, 12⟩)).write
    ∃ old new x y, synchronize "%Y.%m.%d" (some text) [⟨"7", 1, "lee", none, true⟩] [1] Date.epoch =
        .ok (.updated after 1) ∧
      Json.written text = .ok old ∧ old.distinct = true ∧ Json.written after = .ok new ∧
      old.numeral? [.member "account"] = some x ∧ new.numeral? [.member "account"] = some y ∧
      (∀ slots, ¬Replaced [⟨"7", 1, "lee", none, true⟩] [1] slots [.member "account"]) ∧
      x.rational = 18446744073709551617 ∧ y.rational = 18446744073709552000 := by
  intro document text after
  have hwithin : Json.Within (fun _ => True) Json.greatestDepth (document [] (.whole 18446744073709551617)) ∧
      Json.Within (fun _ => True) Json.greatestDepth
        (document [("date", .string "1970.01.01")] (.binary ⟨false, 4503599627370496, 12⟩)) := by
    decide +kernel
  have hlong : (JsonNumber.whole 18446744073709551617).numeral.rational = 18446744073709551617 := by
    have hparts : (JsonNumber.whole 18446744073709551617).numeral.negative = false ∧
        (JsonNumber.whole 18446744073709551617).numeral.significand = 18446744073709551617 ∧
        (JsonNumber.whole 18446744073709551617).numeral.power = 0 := by decide +kernel
    simp [Json.Numeral.rational, hparts]
  have hrounded : (JsonNumber.binary ⟨false, 4503599627370496, 12⟩).numeral.rational = 18446744073709552000 := by
    have hparts : (JsonNumber.binary ⟨false, 4503599627370496, 12⟩).numeral.negative = false ∧
        (JsonNumber.binary ⟨false, 4503599627370496, 12⟩).numeral.significand = 18446744073709552 ∧
        (JsonNumber.binary ⟨false, 4503599627370496, 12⟩).numeral.power = 3 := by decide +kernel
    norm_num [Json.Numeral.rational, hparts]
  refine ⟨_, _, _, _, by decide +kernel, Json.written_write hwithin.1, by decide +kernel, Json.written_write hwithin.2,
    Written.numeral?_ofValue rfl, Written.numeral?_ofValue rfl, ?_, hlong, hrounded⟩
  rintro slots ⟨_, _, _, _, -, -, heq⟩
  simp at heq

end SignOff.Document
