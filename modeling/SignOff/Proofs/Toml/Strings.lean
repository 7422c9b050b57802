import SignOff.Proofs.Toml.Continuing

/-!
# Strings in texts that go on

A string is closed by a mark, so it is found in every text that goes on after it. Only the marks that close a
string of several lines look at what comes next, and at the end of a line they are all there.
-/

namespace SignOff.Toml

variable {α β : Type} {more cs rest : List Char}

/-- A text can go on with another one: it ends with a line, or nothing is added. -/
def Fits (more cs : List Char) : Prop := more = [] ∨ cs.getLast? = some '\n'

/-- What is left of a text that can go on can go on as well, if it is not empty. -/
theorem Fits.of_append {front : List Char} (h : Fits more (front ++ cs)) (hcs : cs ≠ []) : Fits more cs := by
  refine h.imp_right fun hlast => ?_
  rw [List.getLast?_append, List.getLast?_eq_some_getLast hcs, Option.some_or] at hlast
  rw [List.getLast?_eq_some_getLast hcs, hlast]

/-- A text that can go on still can without a first character that ends no line. -/
theorem Fits.of_cons {c : Char} (h : Fits more (c :: cs)) (hc : c ≠ '\n') : Fits more cs := by
  refine h.imp_right fun hlast => ?_
  cases cs with
  | nil => exact absurd (by simpa using hlast) hc
  | cons d cs => rwa [List.getLast?_cons_cons] at hlast

/-- What has been read takes a part of the text, and is read of every longer text that fits. -/
def Found (scan : Scan α) (cs : List Char) (a : α) (rest : List Char) : Prop :=
  rest.length < cs.length ∧
    ∀ more, Fits more cs → scan (cs ++ more) = some (a, rest ++ more) ∧ Fits more rest

/-- A text that ends with a line is continued by what is put behind it. -/
theorem Fits.continued (h : cs.getLast? = some '\n') : Continued more cs (cs ++ more) :=
  continued_iff.2 ⟨rfl, h⟩

/-- A continued text is the first one with more behind it, which can go on. -/
theorem Continued.eq_append {y : List Char} (h : Continued more cs y) : y = cs ++ more ∧ Fits more cs := by
  obtain ⟨rfl, hlast⟩ := continued_iff.1 h
  exact ⟨rfl, .inr hlast⟩

/-- What ends before the line does is found. -/
theorem found_of_rel {scan : Scan α} {a : α} (h : scan cs = some (a, rest)) (hlength : rest.length < cs.length)
    (hrel : ∀ {more y}, Continued more cs y → Option.Rel (Alike more) (scan cs) (scan y)) :
    Found scan cs a rest := by
  refine ⟨hlength, fun more hfits => ?_⟩
  rcases hfits with rfl | hlast
  · exact ⟨by simpa using h, .inl rfl⟩
  · rcases rel_cases (hrel (continued_iff.2 ⟨rfl, hlast⟩)) with ⟨hnone, -⟩ | ⟨p, ⟨b, after⟩, hp, hq, heq, hrest⟩
    · simp [hnone] at h
    · obtain rfl : p = (a, rest) := Option.some.inj (hp.symm.trans h)
      obtain rfl : a = b := heq
      obtain ⟨rfl, hfits⟩ := hrest.eq_append
      exact ⟨hq, hfits⟩

/-- What is read behind some characters is found in the whole text. -/
theorem Found.behind {scan : Scan α} {scan' : Scan β} {a : α} {g : α → β} (front : List Char)
    (h : Found scan cs a rest)
    (hreads : ∀ more, Fits more (front ++ cs) → scan' (front ++ cs ++ more) = (scan (cs ++ more)).map fun p => (g p.1, p.2)) :
    Found scan' (front ++ cs) (g a) rest := by
  obtain ⟨hlength, hgoes⟩ := h
  refine ⟨by rw [List.length_append]; omega, fun more hfits => ?_⟩
  obtain ⟨hscan, hrest⟩ := hgoes more (hfits.of_append (List.ne_nil_of_length_pos (by omega)))
  exact ⟨by rw [hreads more hfits, hscan]; rfl, hrest⟩

/-- A character and what is read after it. -/
theorem first_of_read {first? : Option Char} {tail? : Option (List Char × List Char)} {inside rest : List Char}
    (h : (do
      let first ← first?
      let (tail, after) ← tail?
      some (first :: tail, after)) = some (inside, rest)) :
    ∃ first tail, first? = some first ∧ tail? = some (tail, rest) ∧ inside = first :: tail := by
  cases first? with
  | none => cases h
  | some first =>
    cases tail? with
    | none => cases h
    | some tail => cases h; exact ⟨_, _, rfl, rfl, rfl⟩

/-- The letter in front of a character number of four digits stands for no character itself. -/
theorem escaped?_u : escaped? 'u' = none := by decide

/-- Nor does the letter in front of one of eight digits. -/
theorem escaped?_U : escaped? 'U' = none := by decide

/-- A letter after a backslash is read as the character that it stands for. -/
theorem quotedTail_escaped {c first : Char} (hc : escaped? c = some first) (cs : List Char) :
    quotedTail ('\\' :: c :: cs) = (quotedTail cs).map fun p => (first :: p.1, p.2) := by
  have hu : c ≠ 'u' := by rintro rfl; cases escaped?_u.symm.trans hc
  have hU : c ≠ 'U' := by rintro rfl; cases escaped?_U.symm.trans hc
  rw [quotedTail.eq_5 _ _ (fun _ _ _ _ _ h => absurd h hu) (fun _ _ _ _ _ _ _ _ _ h => absurd h hU), hc]
  cases quotedTail cs <;> rfl

/-- What is neither the closing mark nor a backslash is read as it stands, or not allowed. -/
theorem quotedTail_other {c : Char} (hmark : c ≠ '"') (hslash : c ≠ '\\') (cs : List Char) : quotedTail (c :: cs) =
    if isPrintable c && c != '\\' then (quotedTail cs).map fun p => (c :: p.1, p.2) else none := by
  rw [quotedTail.eq_6 _ _ hmark (fun _ _ _ _ _ h => absurd h hslash) (fun _ _ _ _ _ _ _ _ _ h => absurd h hslash)
    (fun _ _ h => absurd h hslash)]
  cases quotedTail cs <;> rfl

/-- A character that is allowed in a string is read as it stands. -/
theorem quotedTail_plain {c : Char} (hmark : c ≠ '"') (hc : (isPrintable c && c != '\\') = true) (cs : List Char) :
    quotedTail (c :: cs) = (quotedTail cs).map fun p => (c :: p.1, p.2) := by
  have hslash : c ≠ '\\' := by rintro rfl; simp at hc
  rw [quotedTail_other hmark hslash, if_pos hc]

/-- A string in one line. -/
theorem found_quotedTail {inside : List Char} (h : quotedTail cs = some (inside, rest)) :
    Found quotedTail cs inside rest := by
  fun_induction quotedTail cs generalizing inside rest with
  | case1 => cases h
  | case2 =>
    cases h
    exact ⟨Nat.lt_succ_self _, fun _ hfits => ⟨rfl, hfits.of_cons (by decide)⟩⟩
  | case3 a b c d cs ih =>
    obtain ⟨first, tail, hfirst, htail, rfl⟩ := first_of_read h
    refine (ih htail).behind ['\\', 'u', a, b, c, d] fun more _ => ?_
    simp only [List.cons_append, List.nil_append, quotedTail, hfirst]
    cases quotedTail (cs ++ more) <;> rfl
  | case4 a b c d e f g i cs ih =>
    obtain ⟨first, tail, hfirst, htail, rfl⟩ := first_of_read h
    refine (ih htail).behind ['\\', 'U', a, b, c, d, e, f, g, i] fun more _ => ?_
    simp only [List.cons_append, List.nil_append, quotedTail, hfirst]
    cases quotedTail (cs ++ more) <;> rfl
  | case5 c cs _ _ ih =>
    obtain ⟨first, tail, hfirst, htail, rfl⟩ := first_of_read h
    exact (ih htail).behind ['\\', c] fun more _ => quotedTail_escaped hfirst (cs ++ more)
  | case6 c cs hmark _ _ _ hc ih =>
    obtain ⟨p, hp, heq⟩ := Option.bind_eq_some_iff.1 h
    cases heq
    exact (ih hp).behind [c] fun more _ => quotedTail_plain hmark hc (cs ++ more)
  | case7 => cases h

/-- Between quotation marks a text without marks and backslashes stands for itself, if it can stand there. -/
theorem quotedTail_of_plain {text : List Char} (htext : ∀ c ∈ text, c ≠ '"' ∧ c ≠ '\\') (cs : List Char) :
    quotedTail (text ++ '"' :: cs) = if text.all isPrintable then some (text, cs) else none := by
  induction text with
  | nil => rfl
  | cons c text ih =>
    obtain ⟨⟨hmark, hslash⟩, htext⟩ := List.forall_mem_cons.1 htext
    rw [List.cons_append]
    by_cases hc : isPrintable c = true
    · rw [quotedTail_plain hmark (by simp [hc, hslash]), ih htext]
      simp only [List.all_cons, hc, Bool.true_and]
      split <;> rfl
    · rw [quotedTail_other hmark hslash, if_neg (by simp [hc]), if_neg (by simp [hc])]

/-- No closing brace is among the digits of a character number. -/
theorem notMem_of_hexNumber? {digits : List Char} {first : Char}
    (h : (hexNumber? digits).bind charOf? = some first) : '}' ∉ digits := by
  intro hmem
  have hnone (n : Nat) : digits.foldlM (fun n c => (Text.hexValue? c).map fun d => 16 * n + d) n = none := by
    clear h
    induction digits generalizing n with
    | nil => cases hmem
    | cons d digits ih =>
      rw [List.foldlM_cons]
      rcases List.mem_cons.1 hmem with rfl | hmem
      · rfl
      · cases Text.hexValue? d with
        | none => rfl
        | some => exact ih hmem _
  rw [hexNumber?, hnone] at h
  cases h

/-- Characters without a closing brace are the first ones of what stands before the brace. -/
theorem eq_append_of_brace {taken after front behind : List Char} (hbrace : '}' ∉ taken)
    (h : taken ++ after = front ++ '}' :: behind) :
    ∃ front', front = taken ++ front' ∧ front' ++ '}' :: behind = after := by
  rcases List.append_eq_append_iff.1 h with ⟨between, rfl, rfl⟩ | ⟨between, rfl, hbetween⟩
  · exact ⟨between, rfl, rfl⟩
  · cases between with
    | nil => exact ⟨[], by simp, by simpa using hbetween⟩
    | cons c between =>
      obtain rfl : '}' = c := (List.cons.inj hbetween).1
      exact absurd (List.mem_append_right _ List.mem_cons_self) hbrace

/-- A string ends at its first quotation mark, if a closing brace stands before the mark. -/
theorem quotedTail_brace {front back inside : List Char} (hquote : '"' ∉ front) (hbrace : '}' ∉ front)
    (h : quotedTail (front ++ '}' :: '"' :: back) = some (inside, rest)) : rest = back := by
  generalize hcs : front ++ '}' :: '"' :: back = cs at h
  fun_induction quotedTail cs generalizing front inside with
  | case1 => cases h
  | case2 =>
    have hopens : ['"'] ++ _ = front ++ '}' :: '"' :: back := hcs.symm
    obtain ⟨front', rfl, -⟩ := eq_append_of_brace (by decide) hopens
    exact absurd List.mem_cons_self hquote
  | case3 a b c d cs ih =>
    obtain ⟨first, tail, hfirst, htail, rfl⟩ := first_of_read h
    have hescape : '}' ∉ ['\\', 'u'] ++ [a, b, c, d] :=
      fun hmem => (List.mem_append.1 hmem).elim (by decide) (notMem_of_hexNumber? hfirst)
    obtain ⟨front', rfl, hafter⟩ := eq_append_of_brace hescape hcs.symm
    rw [List.mem_append, not_or] at hquote hbrace
    exact ih hquote.2 hbrace.2 hafter htail
  | case4 a b c d e f g i cs ih =>
    obtain ⟨first, tail, hfirst, htail, rfl⟩ := first_of_read h
    have hescape : '}' ∉ ['\\', 'U'] ++ [a, b, c, d, e, f, g, i] :=
      fun hmem => (List.mem_append.1 hmem).elim (by decide) (notMem_of_hexNumber? hfirst)
    obtain ⟨front', rfl, hafter⟩ := eq_append_of_brace hescape hcs.symm
    rw [List.mem_append, not_or] at hquote hbrace
    exact ih hquote.2 hbrace.2 hafter htail
  | case5 c cs _ _ ih =>
    obtain ⟨first, tail, hfirst, htail, rfl⟩ := first_of_read h
    have hescape : '}' ∉ ['\\', c] := by
      rintro (_ | ⟨_, _ | ⟨_, ⟨⟩⟩⟩)
      cases (show escaped? '}' = none from rfl).symm.trans hfirst
    obtain ⟨front', rfl, hafter⟩ := eq_append_of_brace hescape hcs.symm
    rw [List.mem_append, not_or] at hquote hbrace
    exact ih hquote.2 hbrace.2 hafter htail
  | case6 c cs hmark _ _ _ hc ih =>
    obtain ⟨p, hp, heq⟩ := Option.bind_eq_some_iff.1 h
    cases heq
    cases front with
    | nil =>
      obtain ⟨-, rfl⟩ := List.cons.inj hcs
      cases hp
      rfl
    | cons d front =>
      rw [List.mem_cons, not_or] at hquote hbrace
      exact ih hquote.2 hbrace.2 (List.cons.inj hcs).2 hp
  | case7 => cases h

/-- A verbatim string in one line ends at its closing mark. -/
theorem verbatimTail_eq_some_iff {inside : List Char} : verbatimTail cs = some (inside, rest) ↔
    cs = inside ++ '\'' :: rest ∧ ∀ c ∈ inside, (isPrintable c && c != '\'') = true := by
  constructor
  · intro h
    simp only [verbatimTail] at h
    split at h
    · next after hdrop =>
      cases h
      refine ⟨?_, fun c hc => List.all_eq_true.1 List.all_takeWhile c hc⟩
      rw [← hdrop]
      exact List.prefix_iff_eq_append.1 (List.takeWhile_prefix _) |>.symm
    · cases h
  · rintro ⟨rfl, hinside⟩
    have htake : (inside ++ '\'' :: rest).takeWhile (fun c => isPrintable c && c != '\'') = inside := by
      rw [List.takeWhile_append_of_pos hinside]
      simp
    simp only [verbatimTail, htake, List.drop_left]

/-- A verbatim string in one line. -/
theorem found_verbatimTail {inside : List Char} (h : verbatimTail cs = some (inside, rest)) :
    Found verbatimTail cs inside rest := by
  obtain ⟨rfl, hinside⟩ := verbatimTail_eq_some_iff.1 h
  refine ⟨by simp only [List.length_append, List.length_cons]; omega, fun more hfits => ⟨?_, ?_⟩⟩
  · exact verbatimTail_eq_some_iff.2 ⟨by simp, hinside⟩
  · exact (hfits.of_append (List.cons_ne_nil _ _)).of_cons (by decide)

/-- Characters that stop at the end of a line stop at the same place in a longer text. -/
theorem Continued.takeWhile {x y : List Char} (h : Continued more x y) {p : Char → Bool} (hp : p '\n' = false) :
    y.takeWhile p = x.takeWhile p ∧ (x.takeWhile p).length < x.length := by
  induction h with
  | last => simp [hp]
  | cons c h ih =>
    simp only [List.takeWhile_cons]
    split
    · exact ⟨by rw [ih.1], by simpa using ih.2⟩
    · exact ⟨rfl, by simp⟩

/-- A part of the text that ends before the line does can be taken of the longer text too. -/
theorem Continued.drop {x y : List Char} (h : Continued more x y) {n : Nat} (hn : n < x.length) :
    Continued more (x.drop n) (y.drop n) := by
  induction n generalizing x y with
  | zero => exact h
  | succ n ih =>
    cases h with
    | last => simp at hn
    | cons c h => exact ih h (by simpa using hn)

/-- The marks at the end of a string are all there when the line ends after them. -/
theorem Continued.closingMarks {x y : List Char} {mark : Char} (hmark : mark ≠ '\n') (h : Continued more x y) :
    Alike more (closingMarks mark x) (closingMarks mark y) := by
  obtain ⟨htake, hlt⟩ := h.takeWhile (p := (· == mark)) (by simpa using Ne.symm hmark)
  have hextra : ((x.takeWhile (· == mark)).take 2).length < x.length := by
    rw [List.length_take]
    omega
  simp only [Alike, Toml.closingMarks, htake]
  exact ⟨trivial, h.drop hextra⟩

/-- The marks at the end of a string are the same in a longer text. -/
theorem closingMarks_append {mark : Char} (hmark : mark ≠ '\n') (hfits : Fits more cs) :
    closingMarks mark (cs ++ more) = ((closingMarks mark cs).1, (closingMarks mark cs).2 ++ more) ∧
      Fits more (closingMarks mark cs).2 := by
  rcases hfits with rfl | hlast
  · rw [List.append_nil, List.append_nil]
    exact ⟨rfl, .inl rfl⟩
  · have hlonger : Continued more cs (cs ++ more) := Fits.continued hlast
    obtain ⟨hsame, hrest⟩ := hlonger.closingMarks hmark
    obtain ⟨hrest, hfits⟩ := hrest.eq_append
    exact ⟨Prod.ext hsame.symm hrest, hfits⟩

/-- The marks at the end of a string leave no more than there was. -/
theorem length_closingMarks (mark : Char) (cs : List Char) : (closingMarks mark cs).2.length ≤ cs.length := by
  simp [closingMarks]

/-- Whether a line ends is seen within the line. -/
theorem Continued.endsLine {x y : List Char} (h : Continued more x y) : endsLine y = endsLine x := by
  unfold Toml.endsLine
  generalize hx : Toml.skipBlank x = x', hy : Toml.skipBlank y = y'
  have h : Continued more x' y' := hx ▸ hy ▸ h.skipBlank
  cases h with
  | last => rfl
  | @cons c x y h =>
    by_cases hreturn : c = '\r'
    · subst hreturn
      cases h with
      | last => rfl
      | cons d h => by_cases hd : d = '\n' <;> simp [newline?, hd]
    · by_cases hc : c = '\n' <;> simp [newline?, hc, hreturn]

/-- A backslash ends a line in a longer text exactly when it ends it in the text. -/
theorem endsLine_append (hfits : Fits more cs) : endsLine (cs ++ more) = endsLine cs := by
  rcases hfits with rfl | hlast
  · rw [List.append_nil]
  · exact (Fits.continued hlast).endsLine

/-- The letter in front of a character number ends no line. -/
theorem not_endsLine_of_letter {c : Char} (hc : c = 'u' ∨ c = 'U') (cs : List Char) : endsLine (c :: cs) = false := by
  rcases hc with rfl | rfl <;> simp [endsLine, skipBlank, isBlank, newline?]

variable {skipping : Bool}

/-- After a backslash stands the end of a line, or a letter for some character. -/
theorem linesTail_slash {c : Char} (hu : c ≠ 'u') (hU : c ≠ 'U') (cs : List Char) :
    linesTail skipping ('\\' :: c :: cs) = if endsLine (c :: cs) then linesTail true (c :: cs)
      else (escaped? c).bind fun first => (linesTail false cs).map fun p => (first :: p.1, p.2) := by
  rw [linesTail.eq_5 _ _ _ (fun _ _ _ _ _ h => absurd h hu) (fun _ _ _ _ _ _ _ _ _ h => absurd h hU)]
  cases linesTail false cs <;> rfl

/-- A letter after a backslash is read as the character that it stands for. -/
theorem linesTail_escaped {c first : Char} (hends : endsLine (c :: cs) = false) (hc : escaped? c = some first) :
    linesTail skipping ('\\' :: c :: cs) = (linesTail false cs).map fun p => (first :: p.1, p.2) := by
  have hu : c ≠ 'u' := by rintro rfl; cases escaped?_u.symm.trans hc
  have hU : c ≠ 'U' := by rintro rfl; cases escaped?_U.symm.trans hc
  rw [linesTail_slash hu hU, hends, hc]
  rfl

/-- From a backslash at the end of a line on, characters are skipped. -/
theorem linesTail_lineEnd {c : Char} (hends : endsLine (c :: cs) = true) :
    linesTail skipping ('\\' :: c :: cs) = linesTail true (c :: cs) := by
  have hu : c ≠ 'u' := by rintro rfl; cases (not_endsLine_of_letter (.inl rfl) cs).symm.trans hends
  have hU : c ≠ 'U' := by rintro rfl; cases (not_endsLine_of_letter (.inr rfl) cs).symm.trans hends
  rw [linesTail_slash hu hU, if_pos hends]

/-- Any other character is skipped, read as it stands, or not allowed. -/
theorem linesTail_other {c : Char} (hslash : c ≠ '\\') (hreturn : c ≠ '\r')
    (hmark : ∀ after, c = '"' → cs ≠ '"' :: '"' :: after) : linesTail skipping (c :: cs) =
      if skipping && (isBlank c || c == '\n') then linesTail true cs
      else if isPrintable c && c != '\\' || c == '\n' then (linesTail false cs).map fun p => (c :: p.1, p.2)
      else none := by
  rw [linesTail.eq_7 _ _ _ hmark (fun _ _ _ _ _ h => absurd h hslash)
    (fun _ _ _ _ _ _ _ _ _ h => absurd h hslash) (fun _ _ h => absurd h hslash) (fun _ h => absurd h hreturn)]
  cases linesTail false cs <;> rfl

/-- After a backslash at the end of a line, white space and further line ends are skipped. -/
theorem linesTail_skipped {c : Char} (hc : (isBlank c || c == '\n') = true) :
    linesTail true (c :: cs) = linesTail true cs := by
  have hmark : c ≠ '"' := by rintro rfl; simp [isBlank] at hc
  have hslash : c ≠ '\\' := by rintro rfl; simp [isBlank] at hc
  have hreturn : c ≠ '\r' := by rintro rfl; simp [isBlank] at hc
  rw [linesTail_other hslash hreturn fun _ h => absurd h hmark, Bool.true_and, if_pos hc]

/-- A character that is allowed and not skipped is read as it stands. -/
theorem linesTail_plain {c : Char} (hskips : ¬(skipping && (isBlank c || c == '\n')) = true)
    (hc : (isPrintable c && c != '\\' || c == '\n') = true) (hmark : ∀ after, c = '"' → cs ≠ '"' :: '"' :: after) :
    linesTail skipping (c :: cs) = (linesTail false cs).map fun p => (c :: p.1, p.2) := by
  have hslash : c ≠ '\\' := by rintro rfl; simp at hc
  have hreturn : c ≠ '\r' := by rintro rfl; simp [isPrintable] at hc
  rw [linesTail_other hslash hreturn hmark, if_neg hskips, if_pos hc]

/-- A string of several lines takes three closing marks at least. -/
theorem found_linesTail {inside : List Char} (h : linesTail skipping cs = some (inside, rest)) :
    3 ≤ cs.length ∧ Found (linesTail skipping) cs inside rest := by
  fun_induction linesTail skipping cs generalizing inside rest with
  | case1 => cases h
  | case2 skipping cs =>
    have hmarks : closingMarks '"' cs = (inside, rest) := Option.some.inj h
    refine ⟨by simp, ?_, fun more hfits => ?_⟩
    · have hlength := length_closingMarks '"' cs
      simp only [hmarks] at hlength
      simp only [List.length_cons]
      omega
    · have hfits : Fits more cs := ((hfits.of_cons (by decide)).of_cons (by decide)).of_cons (by decide)
      obtain ⟨happend, hrest⟩ := closingMarks_append (show '"' ≠ '\n' by decide) hfits
      rw [hmarks] at happend hrest
      exact ⟨congrArg some happend, hrest⟩
  | case3 skipping a b c d cs ih =>
    obtain ⟨first, tail, hfirst, htail, rfl⟩ := first_of_read h
    refine ⟨by simp, (ih htail).2.behind ['\\', 'u', a, b, c, d] fun more _ => ?_⟩
    simp only [List.cons_append, List.nil_append, linesTail, hfirst]
    cases linesTail false (cs ++ more) <;> rfl
  | case4 skipping a b c d e f g i cs ih =>
    obtain ⟨first, tail, hfirst, htail, rfl⟩ := first_of_read h
    refine ⟨by simp, (ih htail).2.behind ['\\', 'U', a, b, c, d, e, f, g, i] fun more _ => ?_⟩
    simp only [List.cons_append, List.nil_append, linesTail, hfirst]
    cases linesTail false (cs ++ more) <;> rfl
  | case5 skipping c cs _ _ hends ih =>
    obtain ⟨hthree, hfound⟩ := ih h
    refine ⟨Nat.le_succ_of_le hthree, hfound.behind ['\\'] (g := id) fun more hfits => ?_⟩
    have hfits : Fits more (c :: cs) := hfits.of_cons (by decide)
    rw [List.cons_append, List.nil_append, List.cons_append, List.cons_append]
    rw [linesTail_lineEnd (by rwa [← List.cons_append, endsLine_append hfits])]
    simp
  | case6 skipping c cs _ _ hends ih =>
    obtain ⟨first, tail, hfirst, htail, rfl⟩ := first_of_read h
    obtain ⟨hthree, hfound⟩ := ih htail
    refine ⟨by simp only [List.length_cons]; omega, hfound.behind ['\\', c] fun more hfits => ?_⟩
    have hfits : Fits more (c :: cs) := hfits.of_cons (by decide)
    have hends : endsLine (c :: (cs ++ more)) = false := by
      rwa [← List.cons_append, endsLine_append hfits, ← Bool.not_eq_true]
    exact linesTail_escaped hends hfirst
  | case7 cs ih =>
    obtain ⟨hthree, hfound⟩ := ih h
    refine ⟨by simp only [List.length_cons]; omega, hfound.behind ['\r', '\n'] (g := id) fun more _ => ?_⟩
    simp [linesTail]
  | case8 skipping cs hskips ih =>
    obtain ⟨p, hp, heq⟩ := Option.bind_eq_some_iff.1 h
    cases heq
    obtain ⟨hthree, hfound⟩ := ih hp
    refine ⟨by simp only [List.length_cons]; omega, hfound.behind ['\r', '\n'] fun more _ => ?_⟩
    simp only [List.cons_append, List.nil_append, linesTail, if_neg hskips]
    cases linesTail false (cs ++ more) <;> rfl
  | case9 skipping c cs _ _ _ _ _ hskips ih =>
    obtain ⟨hthree, hfound⟩ := ih h
    obtain ⟨rfl, hc⟩ := Bool.and_eq_true_iff.1 hskips
    refine ⟨Nat.le_succ_of_le hthree, hfound.behind [c] (g := id) fun more _ => ?_⟩
    simp [linesTail_skipped hc]
  | case10 skipping c cs hmark _ _ _ _ hskips hc ih =>
    obtain ⟨p, hp, heq⟩ := Option.bind_eq_some_iff.1 h
    cases heq
    obtain ⟨hthree, hfound⟩ := ih hp
    refine ⟨Nat.le_succ_of_le hthree, hfound.behind [c] fun more _ => linesTail_plain hskips hc ?_⟩
    -- The closing marks are still to come, so what stands behind this character is no other than before.
    intro after hquote heq
    match cs, hthree with
    | d :: e :: cs, _ =>
      obtain ⟨hd, heq⟩ := List.cons.inj heq
      obtain ⟨he, -⟩ := List.cons.inj heq
      exact hmark cs hquote (by rw [hd, he])
  | case11 => cases h

/-- A character of a verbatim string is read as it stands, the end of a line too. -/
theorem verbatimLinesTail_plain {c : Char} (hc : (isPrintable c || c == '\n') = true)
    (hmark : ∀ after, c = '\'' → cs ≠ '\'' :: '\'' :: after) :
    verbatimLinesTail (c :: cs) = (verbatimLinesTail cs).map fun p => (c :: p.1, p.2) := by
  have hreturn : c ≠ '\r' := by rintro rfl; simp [isPrintable] at hc
  rw [verbatimLinesTail.eq_4 _ _ hmark (fun _ h => absurd h hreturn), if_pos hc]
  cases verbatimLinesTail cs <;> rfl

/-- So does a verbatim string of several lines. -/
theorem found_verbatimLinesTail {inside : List Char} (h : verbatimLinesTail cs = some (inside, rest)) :
    3 ≤ cs.length ∧ Found verbatimLinesTail cs inside rest := by
  fun_induction verbatimLinesTail cs generalizing inside rest with
  | case1 => cases h
  | case2 cs =>
    have hmarks : closingMarks '\'' cs = (inside, rest) := Option.some.inj h
    refine ⟨by simp, ?_, fun more hfits => ?_⟩
    · have hlength := length_closingMarks '\'' cs
      simp only [hmarks] at hlength
      simp only [List.length_cons]
      omega
    · have hfits : Fits more cs := ((hfits.of_cons (by decide)).of_cons (by decide)).of_cons (by decide)
      obtain ⟨happend, hrest⟩ := closingMarks_append (show '\'' ≠ '\n' by decide) hfits
      rw [hmarks] at happend hrest
      exact ⟨congrArg some happend, hrest⟩
  | case3 cs ih =>
    obtain ⟨p, hp, heq⟩ := Option.bind_eq_some_iff.1 h
    cases heq
    obtain ⟨hthree, hfound⟩ := ih hp
    refine ⟨by simp only [List.length_cons]; omega, hfound.behind ['\r', '\n'] fun more _ => ?_⟩
    simp only [List.cons_append, List.nil_append, verbatimLinesTail]
    cases verbatimLinesTail (cs ++ more) <;> rfl
  | case4 c cs hmark _ hc ih =>
    obtain ⟨p, hp, heq⟩ := Option.bind_eq_some_iff.1 h
    cases heq
    obtain ⟨hthree, hfound⟩ := ih hp
    refine ⟨Nat.le_succ_of_le hthree, hfound.behind [c] fun more _ => verbatimLinesTail_plain hc ?_⟩
    intro after hquote heq
    match cs, hthree with
    | d :: e :: cs, _ =>
      obtain ⟨hd, heq⟩ := List.cons.inj heq
      obtain ⟨he, -⟩ := List.cons.inj heq
      exact hmark cs hquote (by rw [hd, he])
  | case5 => cases h

/-- What follows the end of a line, where there are two characters at least. -/
theorem newline?_append (hcs : 2 ≤ cs.length) (more : List Char) :
    newline? (cs ++ more) = (newline? cs).map (· ++ more) := by
  match cs, hcs with
  | c :: d :: cs, _ =>
    by_cases hreturn : c = '\r'
    · subst hreturn
      by_cases hd : d = '\n' <;> simp [newline?, hd]
    · by_cases hc : c = '\n' <;> simp [newline?, hc, hreturn]

/-- The end of a line takes something off the front of the text. -/
theorem newline?_eq_some {after : List Char} (h : newline? cs = some after) :
    ∃ front, front ≠ [] ∧ cs = front ++ after := by
  unfold newline? at h
  split at h <;> cases h
  · exact ⟨['\n'], by simp, rfl⟩
  · exact ⟨['\r', '\n'], by simp, rfl⟩

/-- What follows the end of a line is shorter than the text. -/
theorem length_newline? {after : List Char} (h : newline? cs = some after) : after.length < cs.length := by
  obtain ⟨front, hfront, rfl⟩ := newline?_eq_some h
  have hpos := List.length_pos_iff.2 hfront
  rw [List.length_append]
  omega

/-- The line end after three opening marks is left out in the longer text as well. -/
theorem Found.afterLineEnd {scan : Scan α} {a : α} (hthree : 3 ≤ ((newline? cs).getD cs).length)
    (h : Found scan ((newline? cs).getD cs) a rest) :
    Found (fun cs => scan ((newline? cs).getD cs)) cs a rest := by
  obtain ⟨hlength, hgoes⟩ := h
  cases hafter : newline? cs with
  | none =>
    simp only [hafter, Option.getD_none] at hthree hlength hgoes
    refine ⟨hlength, fun more hfits => ?_⟩
    have hmore : newline? (cs ++ more) = none := by rw [newline?_append (by omega), hafter]; rfl
    simpa only [hmore, Option.getD_none] using hgoes more hfits
  | some after =>
    simp only [hafter, Option.getD_some] at hthree hlength hgoes
    have hlt := length_newline? hafter
    refine ⟨by omega, fun more hfits => ?_⟩
    have hmore : newline? (cs ++ more) = some (after ++ more) := by rw [newline?_append (by omega), hafter]; rfl
    obtain ⟨front, -, rfl⟩ := newline?_eq_some hafter
    have hfits : Fits more after := hfits.of_append (List.ne_nil_of_length_pos (by omega))
    simpa only [hmore, Option.getD_some] using hgoes more hfits

/-- One mark at the front does not become three in a longer text. -/
theorem ne_marks_append {mark c : Char} (hmark : mark ≠ '\n') (hcs : cs ≠ []) (hfits : Fits more (c :: cs))
    (hnot : ∀ after, cs ≠ mark :: mark :: after) (after : List Char) : cs ++ more ≠ mark :: mark :: after := by
  match cs, hcs with
  | [d], _ =>
    rcases hfits with rfl | hlast
    · simp
    · obtain rfl : d = '\n' := by simpa using hlast
      exact fun heq => hmark (List.cons.inj heq).1.symm
  | d :: e :: cs, _ =>
    intro heq
    obtain ⟨hd, heq⟩ := List.cons.inj heq
    obtain ⟨he, -⟩ := List.cons.inj heq
    exact hnot cs (by rw [hd, he])

/-- A quotation mark that is not the first of three opens a string in one line. -/
theorem scanText_quoted (h : ∀ after, cs ≠ '"' :: '"' :: after) :
    scanText ('"' :: cs) = (quotedTail cs).map fun p => (String.ofList p.1, p.2) := by
  unfold scanText
  split
  · next heq => exact absurd (List.cons.inj heq).2 (h _)
  · next heq => cases heq
  · next heq => cases heq; rfl
  · next heq => cases heq
  · next hquote _ => exact absurd rfl (hquote cs)

/-- An apostrophe that is not the first of three opens a verbatim string in one line. -/
theorem scanText_verbatim (h : ∀ after, cs ≠ '\'' :: '\'' :: after) :
    scanText ('\'' :: cs) = (verbatimTail cs).map fun p => (String.ofList p.1, p.2) := by
  unfold scanText
  split
  · next heq => cases heq
  · next heq => exact absurd (List.cons.inj heq).2 (h _)
  · next heq => cases heq
  · next heq => cases heq; rfl
  · next hquote => exact absurd rfl (hquote cs)

/-- A string in any of its forms. -/
theorem found_scanText {s : String} (h : scanText cs = some (s, rest)) : Found scanText cs s rest := by
  unfold scanText at h
  split at h
  · next cs =>
    obtain ⟨p, hp, heq⟩ := Option.map_eq_some_iff.1 h
    cases heq
    obtain ⟨hthree, hfound⟩ := found_linesTail hp
    exact (hfound.afterLineEnd hthree).behind ['"', '"', '"'] fun more _ => rfl
  · next cs =>
    obtain ⟨p, hp, heq⟩ := Option.map_eq_some_iff.1 h
    cases heq
    obtain ⟨hthree, hfound⟩ := found_verbatimLinesTail hp
    exact (hfound.afterLineEnd hthree).behind ['\'', '\'', '\''] fun more _ => rfl
  · next cs hnot =>
    obtain ⟨p, hp, heq⟩ := Option.map_eq_some_iff.1 h
    cases heq
    have hcs : cs ≠ [] := by rintro rfl; cases hp
    refine (found_quotedTail hp).behind ['"'] fun more hfits => scanText_quoted ?_
    exact ne_marks_append (by decide) hcs hfits hnot
  · next cs hnot =>
    obtain ⟨p, hp, heq⟩ := Option.map_eq_some_iff.1 h
    cases heq
    have hcs : cs ≠ [] := by rintro rfl; cases hp
    refine (found_verbatimTail hp).behind ['\''] fun more hfits => scanText_verbatim ?_
    exact ne_marks_append (by decide) hcs hfits hnot
  · cases h

end SignOff.Toml
