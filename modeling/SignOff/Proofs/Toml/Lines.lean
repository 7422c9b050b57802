import SignOff.Proofs.Toml.Containers

/-!
# Lines of a settings file

A settings file is read line by line, and the lines that have been read of a text stay the same whatever comes after
them. So a text that ends with a line can be read first and the rest after it, and the steps that are counted while
a text is read never run out before it is read to its end.
-/

namespace SignOff.Toml

variable {fuel : Nat} {cs rest more : List Char}

/-! ## The ends of lines -/

/-- A longer text has the same comment in front. -/
theorem skipComment_append (hfits : Fits more cs) :
    skipComment (cs ++ more) = skipComment cs ++ more ∧ Fits more (skipComment cs) := by
  cases cs with
  | nil =>
    obtain rfl : more = [] := hfits.resolve_right (by simp)
    exact ⟨rfl, .inl rfl⟩
  | cons c cs =>
    by_cases hc : c = '#'
    · subst hc
      exact dropWhile_append (by decide) (hfits.of_cons (by decide))
    · have hplain (after : List Char) : skipComment (c :: after) = c :: after := by simp [skipComment, hc]
      rw [List.cons_append, hplain, hplain]
      exact ⟨rfl, hfits⟩

/-- Skipping a comment makes no text longer. -/
theorem length_skipComment_le (cs : List Char) : (skipComment cs).length ≤ cs.length := by
  unfold skipComment
  split
  · exact Nat.le_succ_of_le (length_dropWhile_le _ _)
  · exact Nat.le_refl _

/-- The line ends in a text where it ends in each longer one. -/
theorem newline?_append_of_fits (hfits : Fits more cs) (hcs : cs ≠ []) :
    newline? (cs ++ more) = (newline? cs).map (· ++ more) := by
  match cs, hcs with
  | [c], _ =>
    rcases hfits with rfl | hlast
    · simp only [List.append_nil, Option.map_id']
    · obtain rfl : c = '\n' := by simpa using hlast
      rfl
  | c :: d :: cs, _ => exact newline?_append (by simp) more

/-- A line may end with the text. -/
theorem skipLineEnd_of_nil (hcs : skipComment (skipBlank cs) = []) : skipLineEnd cs = some [] := by
  rw [skipLineEnd, hcs]

/-- Otherwise the end of the line must follow its white space and its comment. -/
theorem skipLineEnd_of_ne (hcs : skipComment (skipBlank cs) ≠ []) :
    skipLineEnd cs = newline? (skipComment (skipBlank cs)) := by
  rw [skipLineEnd]
  split
  · next hnil => exact absurd hnil hcs
  · rfl

/-- What follows the end of a line goes on as the text does, unless the text is at its end. -/
theorem skipLineEnd_append (h : skipLineEnd cs = some rest) (hfits : Fits more cs) :
    skipLineEnd (cs ++ more) = some (rest ++ more) ∧ (rest = [] ∨ Fits more rest) := by
  obtain ⟨hblank, hfits⟩ := skipBlank_append hfits
  obtain ⟨hcomment, hfits⟩ := skipComment_append hfits
  rw [← hblank] at hcomment
  by_cases hcs : skipComment (skipBlank cs) = []
  · rw [skipLineEnd_of_nil hcs] at h
    cases h
    rw [hcs] at hcomment hfits
    obtain rfl : more = [] := hfits.resolve_right (by simp)
    exact ⟨skipLineEnd_of_nil hcomment, .inl rfl⟩
  · rw [skipLineEnd_of_ne hcs] at h
    refine ⟨?_, ?_⟩
    · rw [skipLineEnd_of_ne (by rw [hcomment]; exact List.append_ne_nil_of_left_ne_nil hcs _), hcomment,
        newline?_append_of_fits hfits hcs, h, Option.map_some]
    · obtain ⟨front, -, heq⟩ := newline?_eq_some h
      rw [heq] at hfits
      exact Decidable.or_iff_not_imp_left.2 hfits.of_append

/-- The end of a line leaves no more than its comment has left. -/
theorem length_skipLineEnd_le (h : skipLineEnd cs = some rest) :
    rest.length ≤ (skipComment (skipBlank cs)).length := by
  by_cases hcs : skipComment (skipBlank cs) = []
  · rw [skipLineEnd_of_nil hcs] at h
    cases h
    exact Nat.zero_le _
  · rw [skipLineEnd_of_ne hcs] at h
    exact Nat.le_of_lt (length_newline? h)

/-! ## One line -/

/-- A key between brackets, of which the opening ones have been taken. -/
def scanHeader (closing : List Char) (line : KeyPath → Line) : Scan Line := fun cs =>
  (scanKey greatestDepth cs).bind fun key => (expect closing key.2).map fun rest => (line key.1, rest)

/-- Two brackets open the header of a table in a list of tables. -/
theorem scanLine_repeated (cs : List Char) :
    scanLine fuel ('[' :: '[' :: cs) = scanHeader "]]".toList Line.repeated cs := by
  simp only [scanLine, scanHeader, Option.bind_eq_bind, Option.map_eq_bind]
  rfl

/-- A single bracket opens the header of a table. -/
theorem scanLine_header (hcs : ∀ after, cs ≠ '[' :: after) :
    scanLine fuel ('[' :: cs) = scanHeader "]".toList Line.header cs := by
  rw [scanLine.eq_2 _ _ hcs]
  simp only [scanHeader, Option.bind_eq_bind, Option.map_eq_bind]
  rfl

/-- Every other line is a key with its value. -/
theorem scanLine_pair {c : Char} (hc : c ≠ '[') (cs : List Char) : scanLine fuel (c :: cs) =
    (scanPair fuel greatestDepth (c :: cs)).map fun p => (.pair p.1.1 p.1.2, p.2) := by
  rw [scanLine.eq_3 _ _ (fun _ heq => hc (List.cons.inj heq).1) (fun _ heq => hc (List.cons.inj heq).1)]
  simp only [scanPair, Option.bind_eq_bind, Option.map_eq_bind, Option.bind_assoc]
  rfl

/-- The header of a table is found in every longer text. -/
theorem found_scanHeader {closing : List Char} (hclosing : '\n' ∉ closing) {header : KeyPath → Line} {line : Line}
    (h : scanHeader closing header cs = some (line, rest)) : Found (scanHeader closing header) cs line rest := by
  obtain ⟨⟨key, after⟩, hkey, h⟩ := Option.bind_eq_some_iff.1 h
  obtain ⟨final, hclose, heq⟩ := Option.map_eq_some_iff.1 h
  cases heq
  obtain rfl : after = closing ++ rest := expect_eq_some_iff.1 hclose
  obtain ⟨hlength, hgoes⟩ := found_scanKey hkey
  rw [List.length_append] at hlength
  refine ⟨by omega, fun more hfits => ?_⟩
  obtain ⟨hkey, hfits⟩ := hgoes more hfits
  refine ⟨?_, hfits.of_text hclosing⟩
  have hclose : expect closing (closing ++ rest ++ more) = some (rest ++ more) :=
    expect_eq_some_iff.2 (List.append_assoc _ _ _)
  simp only [scanHeader, hkey, Option.bind_some, hclose]
  rfl

/-- What is read behind the brackets of a header is the line. -/
theorem foundFrom_header {scan : Scan Line} {line : Line} (front : List Char) (hfront : '\n' ∉ front)
    (hreads : ∀ fuel more, Fits more cs → scanLine fuel (front ++ (cs ++ more)) = scan (cs ++ more))
    (h : Found scan cs line rest) : FoundFrom scanLine (front ++ cs) line rest := by
  obtain ⟨hlength, hgoes⟩ := h
  refine ⟨by rw [List.length_append]; omega, fun fuel more _ hfits => ?_⟩
  have hfits : Fits more cs := hfits.of_text hfront
  rw [List.append_assoc, hreads fuel more hfits]
  exact hgoes more hfits

/-- There is no line in an empty text. -/
theorem scanLine_nil (fuel : Nat) : scanLine fuel [] = none := rfl

/-- A line of any kind, with as many steps as it has characters. -/
theorem foundFrom_scanLine {line : Line} (h : scanLine fuel cs = some (line, rest)) :
    FoundFrom scanLine cs line rest := by
  match cs with
  | [] => cases (scanLine_nil fuel).symm.trans h
  | c :: cs =>
    by_cases hc : c = '['
    · subst hc
      by_cases hcs : ∃ after, cs = '[' :: after
      · obtain ⟨cs, rfl⟩ := hcs
        rw [scanLine_repeated] at h
        exact foundFrom_header ['[', '['] (by decide) (fun _ _ _ => scanLine_repeated _)
          (found_scanHeader (by decide) h)
      · have hcs (after : List Char) : cs ≠ '[' :: after := fun heq => hcs ⟨after, heq⟩
        rw [scanLine_header hcs] at h
        refine foundFrom_header ['['] (by decide) (fun fuel more hfits => scanLine_header fun after heq => ?_)
          (found_scanHeader (by decide) h)
        match cs with
        | [] =>
          cases (show scanHeader "]".toList Line.header [] = none from rfl).symm.trans h
        | d :: cs => exact hcs cs (by rw [(List.cons.inj heq).1])
    · rw [scanLine_pair hc] at h
      obtain ⟨pair, hpair, heq⟩ := Option.map_eq_some_iff.1 h
      cases heq
      obtain ⟨hlength, hgoes⟩ := foundFrom_scanPair (foundWithin fuel) hpair
      refine ⟨hlength, fun fuel more hfuel hfits => ?_⟩
      obtain ⟨hpair, hfits⟩ := hgoes fuel more hfuel hfits
      exact ⟨(scanLine_pair hc _).trans (congrArg (Option.map _) hpair), hfits⟩

/-! ## All lines -/

/-- The line that comes next, or none if it says nothing, with what follows its end. -/
def scanEntry (fuel : Nat) (cs : List Char) : Option (List Line × List Char) :=
  if cs.head? = some '#' then (skipLineEnd cs).map ([], ·)
  else match newline? cs with
    | some rest => some ([], rest)
    | none => (scanLine fuel cs).bind fun line => (skipLineEnd line.2).map ([line.1], ·)

/-- An entry that is no comment and not empty is a line and its end. -/
theorem scanEntry_line {c : Char} (hc : c ≠ '#') (hend : newline? (c :: cs) = none) : scanEntry fuel (c :: cs) =
    (scanLine fuel (c :: cs)).bind fun line => (skipLineEnd line.2).map ([line.1], ·) := by
  simp only [scanEntry, List.head?_cons, Option.some.injEq, if_neg hc, hend]

/-- White space alone holds no lines. -/
theorem scanLines_nil (hcs : skipBlank cs = []) : scanLines (fuel + 1) cs = some [] := by
  simp only [scanLines, hcs]

/-- Lines are those of the first entry and those after it. -/
theorem scanLines_cons {c : Char} {after : List Char} (hcs : skipBlank cs = c :: after) : scanLines (fuel + 1) cs =
    (scanEntry fuel (c :: after)).bind fun entry => (scanLines fuel entry.2).map (entry.1 ++ ·) := by
  simp only [scanLines, hcs]
  split
  · next heq => cases heq
  · next heq =>
    obtain ⟨rfl, rfl⟩ := List.cons.inj heq
    simp only [scanEntry, List.head?_cons, if_true]
    cases skipLineEnd ('#' :: after) <;> simp
  · next hcomment =>
    have hc : c ≠ '#' := fun hc => hcomment after (by rw [hc])
    cases hend : newline? (c :: after) with
    | some later => simp [scanEntry, hc, hend]
    | none =>
      rw [scanEntry_line hc hend]
      simp only [Option.bind_eq_bind, Option.bind_assoc, Option.map_eq_bind]
      rfl

/-- The next line is read of every longer text, with as many steps as it has characters. -/
theorem found_scanEntry {c : Char} {entry : List Line} (h : scanEntry fuel (c :: cs) = some (entry, rest)) :
    rest.length < (c :: cs).length ∧ ∀ fuel more, (c :: cs).length ≤ fuel → Fits more (c :: cs) →
      scanEntry fuel (c :: cs ++ more) = some (entry, rest ++ more) ∧ (rest = [] ∨ Fits more rest) := by
  by_cases hc : c = '#'
  · subst hc
    have hcomment (fuel : Nat) (cs : List Char) :
        scanEntry fuel ('#' :: cs) = (skipLineEnd ('#' :: cs)).map ([], ·) := by simp [scanEntry]
    rw [hcomment] at h
    obtain ⟨after, hlineEnd, heq⟩ := Option.map_eq_some_iff.1 h
    cases heq
    refine ⟨?_, fun fuel more _ hfits => ?_⟩
    · have hle := length_skipLineEnd_le hlineEnd
      have hdrop := length_dropWhile_le isPrintable cs
      exact Nat.lt_succ_of_le (Nat.le_trans hle hdrop)
    · obtain ⟨hlineEnd, hfits⟩ := skipLineEnd_append hlineEnd hfits
      exact ⟨(hcomment fuel _).trans (congrArg (Option.map _) hlineEnd), hfits⟩
  cases hend : newline? (c :: cs) with
  | some after =>
    have hblank {fuel : Nat} {cs after : List Char} (hend : newline? (c :: cs) = some after) :
        scanEntry fuel (c :: cs) = some ([], after) := by simp [scanEntry, hc, hend]
    rw [hblank hend] at h
    cases h
    refine ⟨length_newline? hend, fun fuel more _ hfits => ?_⟩
    have hmore : newline? (c :: (cs ++ more)) = some (rest ++ more) := by
      rw [← List.cons_append, newline?_append_of_fits hfits (List.cons_ne_nil _ _), hend, Option.map_some]
    obtain ⟨front, -, heq⟩ := newline?_eq_some hend
    rw [heq] at hfits
    exact ⟨hblank hmore, Decidable.or_iff_not_imp_left.2 hfits.of_append⟩
  | none =>
    rw [scanEntry_line hc hend] at h
    obtain ⟨⟨line, afterLine⟩, hline, h⟩ := Option.bind_eq_some_iff.1 h
    obtain ⟨after, hlineEnd, heq⟩ := Option.map_eq_some_iff.1 h
    cases heq
    obtain ⟨hlength, hgoes⟩ := foundFrom_scanLine hline
    have hle : rest.length ≤ (skipComment (skipBlank afterLine)).length := length_skipLineEnd_le hlineEnd
    have hcomment := length_skipComment_le (skipBlank afterLine)
    have hblank := length_skipBlank_le afterLine
    refine ⟨by omega, fun fuel more hfuel hfits => ?_⟩
    have hend : newline? (c :: (cs ++ more)) = none := by
      rw [← List.cons_append, newline?_append_of_fits hfits (List.cons_ne_nil _ _), hend, Option.map_none]
    obtain ⟨hline, hfits⟩ := hgoes fuel more (by omega) hfits
    obtain ⟨hlineEnd, hfits⟩ := skipLineEnd_append hlineEnd hfits
    refine ⟨?_, hfits⟩
    rw [List.cons_append, scanEntry_line hc hend, ← List.cons_append, hline, Option.bind_some, hlineEnd]
    rfl

/-- More steps than characters are as good as any other number of them. -/
theorem scanEntry_steps {c : Char} {n m : Nat} (hn : (c :: cs).length ≤ n) (hm : (c :: cs).length ≤ m) :
    scanEntry n (c :: cs) = scanEntry m (c :: cs) := by
  have hsame {n m : Nat} (hm : (c :: cs).length ≤ m) {entry : List Line × List Char}
      (h : scanEntry n (c :: cs) = some entry) : scanEntry m (c :: cs) = some entry := by
    have hfound := ((found_scanEntry h).2 m [] hm (.inl rfl)).1
    rwa [List.append_nil, List.append_nil] at hfound
  exact Option.ext fun entry => ⟨hsame hm, hsame hn⟩

/-- All numbers of steps above the number of characters read the same lines. -/
theorem scanLines_steps {n m : Nat} (hn : cs.length < n) (hm : cs.length < m) : scanLines n cs = scanLines m cs := by
  induction n generalizing cs m with
  | zero => exact absurd hn (Nat.not_lt_zero _)
  | succ n ih =>
    obtain ⟨m, rfl⟩ : ∃ k, m = k + 1 := ⟨m - 1, by omega⟩
    have hblank := length_skipBlank_le cs
    cases hcs : skipBlank cs with
    | nil => rw [scanLines_nil hcs, scanLines_nil hcs]
    | cons c after =>
      rw [hcs] at hblank
      rw [scanLines_cons hcs, scanLines_cons hcs, scanEntry_steps (by omega) (by omega : (c :: after).length ≤ m)]
      refine Option.bind_congr fun entry hentry => ?_
      have hlength := (found_scanEntry hentry).1
      rw [ih (by omega) (by omega : entry.2.length < m)]

/-- The lines of a text that say something, with steps enough. -/
def linesOf? (cs : List Char) : Option (List Line) := scanLines (fuelFor cs) cs

/-- With more steps than characters the lines of the text are read. -/
theorem scanLines_eq_linesOf? (hfuel : cs.length < fuel) : scanLines fuel cs = linesOf? cs :=
  scanLines_steps hfuel (by rw [fuelFor]; omega)

/-- A text of white space has no lines. -/
theorem linesOf?_nil (hcs : skipBlank cs = []) : linesOf? cs = some [] := scanLines_nil hcs

/-- The lines of a text are those of its first entry and those of what follows. -/
theorem linesOf?_cons {c : Char} {after : List Char} (hcs : skipBlank cs = c :: after) (hfuel : cs.length ≤ fuel) :
    linesOf? cs = (scanEntry fuel (c :: after)).bind fun entry => (linesOf? entry.2).map (entry.1 ++ ·) := by
  have hblank := length_skipBlank_le cs
  rw [hcs] at hblank
  rw [← scanLines_eq_linesOf? (Nat.lt_succ_of_le hfuel), scanLines_cons hcs]
  refine Option.bind_congr fun entry hentry => ?_
  have hlength := (found_scanEntry hentry).1
  rw [scanLines_eq_linesOf? (by omega)]

/-- A text that ends with a line is read first, and what comes after it as if it stood alone. -/
theorem linesOf?_append {front : List Char} {before : List Line} (h : linesOf? front = some before)
    (hends : front = [] ∨ Fits cs front) : linesOf? (front ++ cs) = (linesOf? cs).map (before ++ ·) := by
  induction hn : front.length using Nat.strongRecOn generalizing front before with
  | ind n ih =>
    rcases hends with rfl | hfits
    · cases h
      simp
    obtain ⟨hskip, hfits⟩ := skipBlank_append hfits
    have hblank := length_skipBlank_le front
    cases hcs : skipBlank front with
    | nil =>
      rw [hcs] at hskip hfits
      obtain rfl : cs = [] := hfits.resolve_right (by simp)
      cases (linesOf?_nil hcs).symm.trans h
      rw [List.append_nil, h]
      rfl
    | cons c after =>
      rw [hcs] at hskip hfits hblank
      rw [linesOf?_cons hcs (Nat.le_refl _)] at h
      obtain ⟨⟨entry, rest⟩, hentry, h⟩ := Option.bind_eq_some_iff.1 h
      obtain ⟨later, hlater, rfl⟩ := Option.map_eq_some_iff.1 h
      obtain ⟨hlength, hgoes⟩ := found_scanEntry hentry
      have hfuel : (c :: after).length ≤ (front ++ cs).length := by rw [List.length_append]; omega
      obtain ⟨hentry, hends⟩ := hgoes (front ++ cs).length cs hfuel hfits
      rw [linesOf?_cons hskip (Nat.le_refl _), show scanEntry _ (c :: after.append cs) = _ from hentry,
        Option.bind_some, ih rest.length (by omega) hlater hends rfl, Option.map_map]
      refine congrArg (Option.map · (linesOf? cs)) (funext fun lines => ?_)
      exact (List.append_assoc _ _ _).symm

/-- A byte order mark is in front of the first line. -/
theorem withoutMark_append {front : List Char} (hends : front.getLast? = some '\n') (cs : List Char) :
    withoutMark (front ++ cs) = withoutMark front ++ cs ∧ (withoutMark front).getLast? = some '\n' := by
  cases front with
  | nil => cases hends
  | cons c front =>
    simp only [List.cons_append, withoutMark]
    split
    · next hmark =>
      refine ⟨rfl, ?_⟩
      cases front with
      | nil =>
        obtain rfl : c = '\n' := by simpa using hends
        exact absurd hmark (by decide)
      | cons d front => rwa [List.getLast?_cons_cons] at hends
    · exact ⟨rfl, hends⟩

end SignOff.Toml
