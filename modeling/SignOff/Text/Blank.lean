/-!
# White space and letter case

Ids, outcomes and settings are compared after cutting white space off both ends, and names of
outcomes, statuses and levels after folding ASCII letters to lower case. White space is the Unicode
property `White_Space`, which is wider than ASCII: the no-break space and the ideographic space are
blank, the zero-width space is not. Folding leaves letters outside ASCII as they are.
-/

namespace SignOff.Text

/-- The characters with the Unicode property `White_Space`. -/
def isBlank (c : Char) : Bool :=
  let n := c.toNat
  (0x09 ≤ n && n ≤ 0x0D) || n == 0x20 || n == 0x85 || n == 0xA0 || n == 0x1680 ||
    (0x2000 ≤ n && n ≤ 0x200A) || n == 0x2028 || n == 0x2029 || n == 0x202F || n == 0x205F ||
    n == 0x3000

/-- The text without its leading white space. -/
def trimStart (cs : List Char) : List Char := cs.dropWhile isBlank

/-- The text without its trailing white space. -/
def trimEnd (cs : List Char) : List Char := (cs.reverse.dropWhile isBlank).reverse

/-- The text without white space at either end. -/
def trimList (cs : List Char) : List Char := trimEnd (trimStart cs)

/-- The text without white space at either end. -/
def trim (s : String) : String := String.ofList (trimList s.toList)

/-- A text of white space only; the empty text is blank too. -/
def blank (s : String) : Bool := s.toList.all isBlank

/-- ASCII letters in lower case, everything else unchanged. -/
def lower (s : String) : String := String.ofList (s.toList.map Char.toLower)

/-- A text that starts with a character that is not blank has no leading white space. -/
theorem trimStart_append_of_not_blank {c : Char} (h : isBlank c = false) (cs : List Char) :
    trimStart (c :: cs) = c :: cs := by
  simp [trimStart, h]

/-- What is left after the leading white space is empty or starts with a character that is not blank. -/
theorem trimStart_head {cs rest : List Char} {c : Char} (h : trimStart cs = c :: rest) :
    isBlank c = false := by
  induction cs with
  | nil => simp [trimStart] at h
  | cons d ds ih =>
    by_cases hd : isBlank d = true
    · exact ih (by simpa [trimStart, hd] using h)
    · simp only [Bool.not_eq_true] at hd
      simp only [trimStart, List.dropWhile_cons, hd] at h
      simp_all

/-- Cutting the leading white space twice is cutting it once. -/
theorem trimStart_trimStart (cs : List Char) : trimStart (trimStart cs) = trimStart cs := by
  cases h : trimStart cs with
  | nil => rfl
  | cons c rest => exact trimStart_append_of_not_blank (trimStart_head h) rest

/-- A text that starts with a character that is not blank does so without its trailing white space. -/
theorem trimEnd_cons {c : Char} (h : isBlank c = false) (cs : List Char) : trimEnd (c :: cs) = c :: trimEnd cs := by
  have hrest : (cs.reverse ++ [c]).dropWhile isBlank = cs.reverse.dropWhile isBlank ++ [c] := by
    rw [List.dropWhile_append]
    split
    · next hempty => simp [List.isEmpty_iff.1 hempty, h]
    · rfl
  rw [trimEnd, List.reverse_cons, hrest, List.reverse_append]
  rfl

/-- Cutting the trailing white space twice is cutting it once. -/
theorem trimEnd_trimEnd (cs : List Char) : trimEnd (trimEnd cs) = trimEnd cs := by
  have hreverse (ds : List Char) : trimEnd ds = (trimStart ds.reverse).reverse := rfl
  rw [hreverse, hreverse, List.reverse_reverse, trimStart_trimStart]

/-- Cutting the white space off both ends twice is cutting it once. -/
theorem trim_trim (s : String) : trim (trim s) = trim s := by
  have hlist (cs : List Char) : trimList (trimList cs) = trimList cs := by
    unfold trimList
    cases hstart : trimStart cs with
    | nil => rfl
    | cons c rest =>
      have hc := trimStart_head hstart
      rw [trimEnd_cons hc, trimStart_append_of_not_blank hc, ← trimEnd_cons hc, trimEnd_trimEnd]
  rw [trim, trim, String.toList_ofList, hlist]

/-- Nothing is left without the leading white space exactly when there is nothing else. -/
theorem trimStart_eq_nil_iff (cs : List Char) : trimStart cs = [] ↔ cs.all isBlank = true := by
  induction cs with
  | nil => simp [trimStart]
  | cons c rest ih =>
    cases h : isBlank c with
    | true =>
      simp only [trimStart, List.dropWhile_cons, List.all_cons, h, if_true, Bool.true_and]
      exact ih
    | false => simp [trimStart, h]

/-- Nothing is left of a text exactly when it is blank. -/
theorem trim_eq_empty_iff (s : String) : trim s = "" ↔ blank s = true := by
  rw [blank, ← trimStart_eq_nil_iff, trim, trimList, String.ofList_eq_empty_iff]
  cases h : trimStart s.toList with
  | nil => exact iff_of_true rfl rfl
  | cons c rest =>
    rw [trimEnd_cons (trimStart_head h)]
    exact iff_of_false (List.cons_ne_nil _ _) (List.cons_ne_nil _ _)

end SignOff.Text
