import SignOff.Proofs.Toml.Scalars

/-!
# Arrays and tables in texts that go on

Every value is found in each longer text in which its line ends where it did, be it spread over several lines. A
step is taken for an array, a table or an item only along with a character, so as many steps suffice as there are
characters in the value.
-/

namespace SignOff.Toml

variable {α : Type} {cs rest : List Char}

/-- What has been read is read of every longer text that fits, with as many steps as characters are taken. -/
def FoundFrom (scan : Nat → Scan α) (cs : List Char) (a : α) (rest : List Char) : Prop :=
  rest.length < cs.length ∧ ∀ fuel more, cs.length ≤ rest.length + fuel → Fits more cs →
    scan fuel (cs ++ more) = some (a, rest ++ more) ∧ Fits more rest

/-! ## Lines between values -/

/-- Skipping comments and line ends makes no text longer. -/
theorem length_skipLines_le (cs : List Char) : (skipLines cs).length ≤ cs.length := by
  fun_induction skipLines cs with
  | case1 => exact Nat.le_refl _
  | case2 cs ih => exact Nat.le_trans ih (by simp only [List.length_cons]; omega)
  | case3 c cs _ _ ih => exact Nat.le_succ_of_le ih
  | case4 c cs _ _ _ ih => exact Nat.le_succ_of_le (Nat.le_trans ih (length_dropWhile_le _ _))
  | case5 => exact Nat.le_refl _

/-- Characters within a line are skipped alike in a longer text. -/
theorem dropWhile_append {more : List Char} {skips : Char → Bool} (hskips : skips '\n' = false)
    (hfits : Fits more cs) :
    (cs ++ more).dropWhile skips = cs.dropWhile skips ++ more ∧ Fits more (cs.dropWhile skips) := by
  rcases hfits with rfl | hlast
  · rw [List.append_nil, List.append_nil]
    exact ⟨rfl, .inl rfl⟩
  · exact ((Fits.continued hlast).dropWhile hskips).eq_append

/-- White space and the end of a line are skipped. -/
theorem skipLines_blank {c : Char} (hc : (isBlank c || c == '\n') = true) (cs : List Char) :
    skipLines (c :: cs) = skipLines cs := by
  have hreturn : c ≠ '\r' := by rintro rfl; simp [isBlank] at hc
  rw [skipLines.eq_3 _ _ (fun _ h => absurd h hreturn), if_pos hc]

/-- A comment is skipped up to the end of its line. -/
theorem skipLines_comment (cs : List Char) : skipLines ('#' :: cs) = skipLines (cs.dropWhile isPrintable) := by
  rw [skipLines.eq_3 _ _ (fun _ h => absurd h (by decide)), if_neg (by decide)]
  exact if_pos (by decide)

/-- Nothing is skipped in front of any other character. -/
theorem skipLines_other {c : Char} (hc : ¬(isBlank c || c == '\n') = true) (hhash : ¬(c == '#') = true)
    (hreturn : ∀ after, c = '\r' → cs ≠ '\n' :: after) : skipLines (c :: cs) = c :: cs := by
  rw [skipLines.eq_3 _ _ hreturn, if_neg hc, if_neg hhash]

/-- If something stands behind the comments and line ends, the same ones are skipped in a longer text. -/
theorem skipLines_append {more : List Char} (hfits : Fits more cs) (hne : skipLines cs ≠ []) :
    skipLines (cs ++ more) = skipLines cs ++ more ∧ Fits more (skipLines cs) := by
  have hpos {cs : List Char} (h : skipLines cs ≠ []) : cs ≠ [] := by
    rintro rfl
    simp [skipLines] at h
  fun_induction skipLines cs with
  | case1 => exact absurd rfl hne
  | case2 cs ih =>
    have hfits : Fits more (['\r', '\n'] ++ cs) := hfits
    simp only [List.cons_append, skipLines]
    exact ih (hfits.of_append (hpos hne)) hne
  | case3 c cs hreturn hc ih =>
    have hfits : Fits more ([c] ++ cs) := hfits
    rw [List.cons_append, skipLines_blank hc]
    exact ih (hfits.of_append (hpos hne)) hne
  | case4 c cs hreturn hc hhash ih =>
    obtain rfl := eq_of_beq hhash
    obtain ⟨hdrop, hfits⟩ := dropWhile_append (show isPrintable '\n' = false by decide) (hfits.of_cons (by decide))
    rw [List.cons_append, skipLines_comment, hdrop]
    exact ih hfits hne
  | case5 c cs hreturn hc hhash =>
    refine ⟨skipLines_other hc hhash fun after hc heq => ?_, hfits⟩
    cases cs with
    | nil =>
      obtain rfl : more = [] := hfits.resolve_right (by simp [hc])
      cases heq
    | cons d cs => exact hreturn cs hc (by rw [(List.cons.inj heq).1])

/-! ## Values -/

/-- Values, items and members are found by scanners that have so many steps. -/
structure FoundWithin (fuel : Nat) : Prop where
  value : ∀ {depth : Nat} {cs rest : List Char} {value : Toml}, scanValue fuel depth cs = some (value, rest) →
    FoundFrom (fun fuel => scanValue fuel depth) cs value rest
  items : ∀ {depth : Nat} {cs rest : List Char} {items : List Toml}, scanItems fuel depth cs = some (items, rest) →
    FoundFrom (fun fuel => scanItems fuel depth) cs items rest
  members : ∀ {depth : Nat} {cs rest : List Char} {before members : Members},
    scanMembers fuel depth before cs = some (members, rest) →
      FoundFrom (fun fuel => scanMembers fuel depth before) cs members rest

variable {fuel depth : Nat}

/-- One step more is there for one character more. -/
theorem exists_step {n m : Nat} (h : n + 1 ≤ m + fuel) (hlt : m ≤ n) : ∃ steps, fuel = steps + 1 ∧ n ≤ m + steps :=
  ⟨fuel - 1, by omega, by omega⟩

/-- A bracket opens an array, whose items are one level deeper. -/
theorem scanValue_array (hdepth : depth ≠ 0) (cs : List Char) : scanValue (fuel + 1) depth ('[' :: cs) =
    (scanItems fuel (depth - 1) cs).map fun p => (.array p.1, p.2) := by
  simp only [scanValue, hdepth, if_false]

/-- A brace that is closed at once is a table without members. -/
theorem scanValue_empty (hdepth : depth ≠ 0) {after : List Char} (hafter : skipBlank cs = '}' :: after) :
    scanValue (fuel + 1) depth ('{' :: cs) = some (.table .braced [], after) := by
  simp only [scanValue, hdepth, if_false, hafter]

/-- Any other brace opens a table whose members are one level deeper. -/
theorem scanValue_braced (hdepth : depth ≠ 0) {c : Char} {after : List Char} (hafter : skipBlank cs = c :: after)
    (hc : c ≠ '}') : scanValue (fuel + 1) depth ('{' :: cs) =
      (scanMembers fuel (depth - 1) [] (c :: after)).map fun p => (.table .braced p.1, p.2) := by
  simp only [scanValue, hdepth, if_false, hafter]
  split
  · next heq => exact absurd (List.cons.inj heq).1 hc
  · rfl

/-- A value that no bracket and no brace opens is a plain one. -/
theorem scanValue_scalar {c : Char} (hbracket : c ≠ '[') (hbrace : c ≠ '{') (cs : List Char) :
    scanValue (fuel + 1) depth (c :: cs) = scanScalar (c :: cs) := by
  simp only [scanValue]
  split
  · next heq => exact absurd (List.cons.inj heq).1 hbracket
  · next heq => exact absurd (List.cons.inj heq).1 hbrace
  · rfl

/-- There is no value in an empty text. -/
theorem scanValue_nil (fuel depth : Nat) : scanValue fuel depth [] = none := by
  cases fuel <;> rfl

/-- A value is found with one step more than its items or members need. -/
theorem foundFrom_scanValue (h : FoundWithin fuel) {value : Toml}
    (hvalue : scanValue (fuel + 1) depth cs = some (value, rest)) :
    FoundFrom (fun fuel => scanValue fuel depth) cs value rest := by
  simp only [scanValue] at hvalue
  split at hvalue
  · next cs =>
    rw [Option.ite_none_left_eq_some] at hvalue
    obtain ⟨hdepth, hvalue⟩ := hvalue
    obtain ⟨⟨items, after⟩, hitems, heq⟩ := Option.map_eq_some_iff.1 hvalue
    cases heq
    obtain ⟨hlength, hgoes⟩ := h.items hitems
    refine ⟨Nat.lt_succ_of_lt hlength, fun fuel more hfuel hfits => ?_⟩
    obtain ⟨steps, rfl, hsteps⟩ := exists_step hfuel (Nat.le_of_lt hlength)
    obtain ⟨hitems, hfits⟩ := hgoes steps more hsteps (hfits.of_cons (by decide))
    exact ⟨(scanValue_array hdepth _).trans (congrArg (Option.map _) hitems), hfits⟩
  · next cs =>
    rw [Option.ite_none_left_eq_some] at hvalue
    obtain ⟨hdepth, hvalue⟩ := hvalue
    have hblank := length_skipBlank_le cs
    split at hvalue
    · next after hafter =>
      cases hvalue
      rw [hafter, List.length_cons] at hblank
      refine ⟨by rw [List.length_cons]; omega, fun fuel more hfuel hfits => ?_⟩
      obtain ⟨steps, rfl, -⟩ := exists_step hfuel (by omega)
      obtain ⟨hskip, hfits⟩ := skipBlank_append (hfits.of_cons (by decide))
      rw [hafter] at hskip hfits
      exact ⟨scanValue_empty hdepth hskip, hfits.of_cons (by decide)⟩
    · next hbrace =>
      obtain ⟨⟨members, after⟩, hmembers, heq⟩ := Option.map_eq_some_iff.1 hvalue
      cases heq
      obtain ⟨hlength, hgoes⟩ := h.members hmembers
      refine ⟨Nat.lt_succ_of_lt (Nat.lt_of_lt_of_le hlength hblank), fun fuel more hfuel hfits => ?_⟩
      obtain ⟨steps, rfl, hsteps⟩ := exists_step hfuel (Nat.le_of_lt (Nat.lt_of_lt_of_le hlength hblank))
      obtain ⟨hskip, hfits⟩ := skipBlank_append (hfits.of_cons (by decide))
      obtain ⟨hmembers, hfits⟩ := hgoes steps more (Nat.le_trans hblank hsteps) hfits
      cases hcs : skipBlank cs with
      | nil => simp [hcs] at hlength
      | cons c tail =>
        rw [hcs] at hskip hmembers
        have hc : c ≠ '}' := fun hc => hbrace tail (by rw [hcs, hc])
        exact ⟨(scanValue_braced hdepth hskip hc).trans (congrArg (Option.map _) hmembers), hfits⟩
  · next hbracket hbrace =>
    cases cs with
    | nil => cases hvalue
    | cons c cs =>
      obtain ⟨hlength, hgoes⟩ := found_scanScalar hvalue
      refine ⟨hlength, fun fuel more hfuel hfits => ?_⟩
      obtain ⟨hscan, hfits⟩ := hgoes more hfits
      obtain ⟨fuel, rfl⟩ : ∃ k, fuel = k + 1 := ⟨fuel - 1, by omega⟩
      refine ⟨(scanValue_scalar ?_ ?_ _).trans hscan, hfits⟩
      · exact fun hc => hbracket cs (by rw [hc])
      · exact fun hc => hbrace cs (by rw [hc])

/-- The items end at the closing bracket. -/
theorem scanItems_end {after : List Char} (hafter : skipLines cs = ']' :: after) :
    scanItems (fuel + 1) depth cs = some ([], after) := by
  simp only [scanItems, hafter]

/-- What comes after an item: a comma and further items, or the end of the array. -/
def scanItemsEnd (fuel depth : Nat) (item : Toml) : Scan (List Toml)
  | ',' :: rest => (scanItems fuel depth rest).map fun p => (item :: p.1, p.2)
  | ']' :: rest => some ([item], rest)
  | _ => none

/-- Otherwise the items are a first value and what comes after it. -/
theorem scanItems_item {c : Char} {after : List Char} (hafter : skipLines cs = c :: after) (hc : c ≠ ']') :
    scanItems (fuel + 1) depth cs =
      (scanValue fuel depth (c :: after)).bind fun p => scanItemsEnd fuel depth p.1 (skipLines p.2) := by
  simp only [scanItems, hafter]
  split
  · next heq => exact absurd (List.cons.inj heq).1 hc
  · cases scanValue fuel depth (c :: after) with
    | none => rfl
    | some p =>
      simp only [Option.bind_eq_bind, Option.bind_some]
      generalize skipLines p.2 = after
      split
      · next after =>
        rw [scanItemsEnd]
        cases scanItems fuel depth after <;> rfl
      · rfl
      · next hcomma hbracket => rw [scanItemsEnd.eq_3 _ _ _ _ hcomma hbracket]

/-- The lines up to the next character of an array are the same in the longer text. -/
theorem skipLines_cons_append {c : Char} {after more : List Char} (hafter : skipLines cs = c :: after)
    (hfits : Fits more cs) : skipLines (cs ++ more) = c :: (after ++ more) ∧ Fits more (c :: after) := by
  obtain ⟨hskip, hfits⟩ := skipLines_append hfits (by rw [hafter]; exact List.cons_ne_nil _ _)
  rw [hafter] at hskip hfits
  exact ⟨hskip, hfits⟩

/-- Items are found with one step more than their values need. -/
theorem foundFrom_scanItems (h : FoundWithin fuel) {items : List Toml}
    (hitems : scanItems (fuel + 1) depth cs = some (items, rest)) :
    FoundFrom (fun fuel => scanItems fuel depth) cs items rest := by
  have hlines := length_skipLines_le cs
  cases hcs : skipLines cs with
  | nil =>
    simp [scanItems, hcs, scanValue_nil] at hitems
  | cons c after =>
    rw [hcs, List.length_cons] at hlines
    by_cases hc : c = ']'
    · subst hc
      rw [scanItems_end hcs] at hitems
      cases hitems
      refine ⟨by omega, fun fuel more hfuel hfits => ?_⟩
      obtain ⟨steps, rfl⟩ : ∃ steps, fuel = steps + 1 := ⟨fuel - 1, by omega⟩
      obtain ⟨hskip, hfits⟩ := skipLines_cons_append hcs hfits
      exact ⟨scanItems_end hskip, hfits.of_cons (by decide)⟩
    · rw [scanItems_item hcs hc] at hitems
      obtain ⟨⟨item, afterItem⟩, hitem, hend⟩ := Option.bind_eq_some_iff.1 hitems
      obtain ⟨hlength, hgoes⟩ := h.value hitem
      have hlines' := length_skipLines_le afterItem
      cases hafter : skipLines afterItem with
      | nil => simp [hafter, scanItemsEnd] at hend
      | cons d tail =>
        simp only [hafter] at hend
        rw [hafter, List.length_cons] at hlines'
        rw [List.length_cons] at hlength
        -- In the longer text the item and the lines around it are the same.
        have hsame (fuel : Nat) (more : List Char) (hfuel : cs.length ≤ afterItem.length + fuel)
            (hfits : Fits more cs) : Fits more (d :: tail) ∧
              scanItems (fuel + 1) depth (cs ++ more) = scanItemsEnd fuel depth item (d :: (tail ++ more)) := by
          obtain ⟨hskip, hfits⟩ := skipLines_cons_append hcs hfits
          obtain ⟨hitem, hfits⟩ := hgoes fuel more (by rw [List.length_cons]; omega) hfits
          obtain ⟨hskip', hfits⟩ := skipLines_cons_append hafter hfits
          refine ⟨hfits, ?_⟩
          rw [scanItems_item hskip hc, show scanValue fuel depth (c :: (after ++ more)) = _ from hitem,
            Option.bind_some, hskip']
        by_cases hcomma : d = ','
        · subst hcomma
          obtain ⟨⟨items, last⟩, hlater, heq⟩ := Option.map_eq_some_iff.1 hend
          cases heq
          obtain ⟨hlength', hgoes'⟩ := h.items hlater
          refine ⟨by change last.length < cs.length; omega, fun fuel more hfuel hfits => ?_⟩
          have hfuel : cs.length ≤ last.length + fuel := hfuel
          obtain ⟨steps, rfl⟩ : ∃ steps, fuel = steps + 1 := ⟨fuel - 1, by omega⟩
          obtain ⟨hfits, hscan⟩ := hsame steps more (by omega) hfits
          obtain ⟨hlater, hfits⟩ := hgoes' steps more (by omega) (hfits.of_cons (by decide))
          exact ⟨hscan.trans (congrArg (Option.map _) hlater), hfits⟩
        by_cases hbracket : d = ']'
        · subst hbracket
          cases hend
          refine ⟨by omega, fun fuel more hfuel hfits => ?_⟩
          obtain ⟨steps, rfl⟩ : ∃ steps, fuel = steps + 1 := ⟨fuel - 1, by omega⟩
          obtain ⟨hfits, hscan⟩ := hsame steps more (by omega) hfits
          exact ⟨hscan, hfits.of_cons (by decide)⟩
        · simp [scanItemsEnd, hcomma, hbracket] at hend

/-- What comes after a pair in braces: a comma and further pairs, or the end of the table. -/
def scanMembersEnd (fuel depth : Nat) (members : Members) : Scan Members
  | ',' :: rest => scanMembers fuel depth members rest
  | '}' :: rest => some (members, rest)
  | _ => none

/-- A key, an equals sign and a value. -/
def scanPair (fuel depth : Nat) : Scan (KeyPath × Toml) := fun cs =>
  (scanKey greatestDepth cs).bind fun key => (expect ['='] key.2).bind fun rest =>
    (scanValue fuel depth (skipBlank rest)).map fun value => ((key.1, value.1), value.2)

/-- A pair is found with the steps that its value needs. -/
theorem foundFrom_scanPair (h : FoundWithin fuel) {pair : KeyPath × Toml}
    (hpair : scanPair fuel depth cs = some (pair, rest)) :
    FoundFrom (fun fuel => scanPair fuel depth) cs pair rest := by
  obtain ⟨⟨key, afterKey⟩, hkey, hpair⟩ := Option.bind_eq_some_iff.1 hpair
  obtain ⟨beforeValue, hequals, hpair⟩ := Option.bind_eq_some_iff.1 hpair
  obtain ⟨⟨value, afterValue⟩, hvalue, heq⟩ := Option.map_eq_some_iff.1 hpair
  cases heq
  obtain ⟨hlength, hgoes⟩ := found_scanKey hkey
  obtain ⟨hlength', hgoes'⟩ := h.value hvalue
  obtain rfl : afterKey = '=' :: beforeValue := expect_eq_some_iff.1 hequals
  rw [List.length_cons] at hlength
  have hblank := length_skipBlank_le beforeValue
  refine ⟨by change afterValue.length < cs.length; omega, fun fuel more hfuel hfits => ?_⟩
  have hfuel : cs.length ≤ afterValue.length + fuel := hfuel
  obtain ⟨hkey, hfits⟩ := hgoes more hfits
  obtain ⟨hskip, hfits⟩ := skipBlank_append (hfits.of_cons (by decide))
  obtain ⟨hvalue, hfits⟩ := hgoes' fuel more (by omega) hfits
  have hequals : expect ['='] ('=' :: beforeValue ++ more) = some (beforeValue ++ more) :=
    expect_eq_some_iff.2 rfl
  refine ⟨?_, hfits⟩
  simp only [scanPair, hkey, hequals, Option.bind_some, hskip]
  exact congrArg (Option.map _) hvalue

/-- Members are a first pair, put in its place, and what comes after it. -/
theorem scanMembers_succ (before : Members) (cs : List Char) : scanMembers (fuel + 1) depth before cs =
    (scanPair fuel depth cs).bind fun pair => (addAt pair.1.1.last pair.1.2 pair.1.1.steps before).bind fun members =>
      scanMembersEnd fuel depth members (skipBlank pair.2) := by
  simp only [scanMembers, scanPair]
  cases scanKey greatestDepth cs with
  | none => rfl
  | some key =>
    simp only [Option.bind_eq_bind, Option.bind_some]
    cases expect ['='] key.2 with
    | none => rfl
    | some rest =>
      simp only [Option.bind_some]
      cases scanValue fuel depth (skipBlank rest) with
      | none => rfl
      | some value =>
        simp only [Option.bind_some, Option.map_some]
        cases addAt key.1.last value.1 key.1.steps before with
        | none => rfl
        | some members =>
          simp only [Option.bind_some]
          rfl

/-- Members are found with one step more than their pairs need. -/
theorem foundFrom_scanMembers (h : FoundWithin fuel) {before members : Members}
    (hmembers : scanMembers (fuel + 1) depth before cs = some (members, rest)) :
    FoundFrom (fun fuel => scanMembers fuel depth before) cs members rest := by
  rw [scanMembers_succ] at hmembers
  obtain ⟨⟨⟨key, value⟩, afterPair⟩, hpair, hmembers⟩ := Option.bind_eq_some_iff.1 hmembers
  obtain ⟨now, hadd, hend⟩ := Option.bind_eq_some_iff.1 hmembers
  obtain ⟨hlength, hgoes⟩ := foundFrom_scanPair h hpair
  have hblank := length_skipBlank_le afterPair
  cases hafter : skipBlank afterPair with
  | nil => simp [hafter, scanMembersEnd] at hend
  | cons c after =>
    simp only [hafter] at hend
    rw [hafter, List.length_cons] at hblank
    have hsame (fuel : Nat) (more : List Char) (hfuel : cs.length ≤ afterPair.length + fuel)
        (hfits : Fits more cs) : Fits more (c :: after) ∧
          scanMembers (fuel + 1) depth before (cs ++ more) = scanMembersEnd fuel depth now (c :: (after ++ more)) := by
      obtain ⟨hpair, hfits⟩ := hgoes fuel more hfuel hfits
      obtain ⟨hskip, hfits⟩ := skipBlank_append hfits
      rw [hafter] at hskip hfits
      refine ⟨hfits, ?_⟩
      rw [scanMembers_succ, show scanPair fuel depth (cs ++ more) = _ from hpair, Option.bind_some, hadd,
        Option.bind_some, hskip]
      rfl
    by_cases hcomma : c = ','
    · subst hcomma
      have hlater : scanMembers fuel depth now after = some (members, rest) := hend
      obtain ⟨hlength', hgoes'⟩ := h.members hlater
      refine ⟨by omega, fun fuel more hfuel hfits => ?_⟩
      obtain ⟨steps, rfl⟩ : ∃ steps, fuel = steps + 1 := ⟨fuel - 1, by omega⟩
      obtain ⟨hfits, hscan⟩ := hsame steps more (by omega) hfits
      obtain ⟨hlater, hfits⟩ := hgoes' steps more (by omega) (hfits.of_cons (by decide))
      exact ⟨hscan.trans hlater, hfits⟩
    by_cases hbrace : c = '}'
    · subst hbrace
      cases hend
      refine ⟨by omega, fun fuel more hfuel hfits => ?_⟩
      obtain ⟨steps, rfl⟩ : ∃ steps, fuel = steps + 1 := ⟨fuel - 1, by omega⟩
      obtain ⟨hfits, hscan⟩ := hsame steps more (by omega) hfits
      exact ⟨hscan, hfits.of_cons (by decide)⟩
    · simp [scanMembersEnd, hcomma, hbrace] at hend

/-- Values, items and members are found, whatever the steps with which they have been read. -/
theorem foundWithin (fuel : Nat) : FoundWithin fuel := by
  induction fuel with
  | zero => exact ⟨fun h => by simp [scanValue] at h, fun h => by simp [scanItems] at h,
      fun h => by simp [scanMembers] at h⟩
  | succ fuel ih =>
    exact ⟨fun h => foundFrom_scanValue ih h, fun h => foundFrom_scanItems ih h,
      fun h => foundFrom_scanMembers ih h⟩

end SignOff.Toml
