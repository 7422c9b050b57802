import SignOff.Proofs.Settings.Expressions
import SignOff.Proofs.Settings.Values
import SignOff.Proofs.Toml.Lines
import SignOff.Proofs.Toml.Reworded

/-!
# A variable in the place of the database's address

The value of a variable is put into a settings file before the file is read. Where the file has the variable alone
between quotation marks, a value without quotation marks and backslashes becomes the text of that one setting, and
the rest of the file is read as if the variable's name still stood there. A quotation mark would end the text, a
backslash would begin an escape, and a character that may not stand in a text makes the file unreadable.
-/

namespace SignOff

namespace Toml

variable {cs : List Char}

/-! ## The line with the address -/

/-- A line that gives the address of the database, up to its text. -/
def urlStart : List Char := "url = \"".toList

/-- The line of the address is read as its key with the string behind it. -/
theorem scanPair_url {fuel : Nat} (hmarks : ∀ after, cs ≠ '"' :: '"' :: after) :
    scanPair (fuel + 1) greatestDepth (urlStart ++ cs) =
      (quotedTail cs).map fun p => ((⟨[], "url"⟩, .text (String.ofList p.1)), p.2) := by
  have hkey : scanKey greatestDepth (urlStart ++ cs) = some (⟨[], "url"⟩, '=' :: ' ' :: '"' :: cs) := rfl
  have hequals : expect ['='] ('=' :: ' ' :: '"' :: cs) = some (' ' :: '"' :: cs) := expect_eq_some_iff.2 rfl
  have hblank : skipBlank (' ' :: '"' :: cs) = '"' :: cs := rfl
  simp only [scanPair, hkey, hequals, Option.bind_some, hblank]
  rw [scanValue_scalar (by decide) (by decide), scanScalar_of_mark (by decide), scanText_quoted hmarks,
    Option.map_map, Option.map_map]
  rfl

/-- The line is read up to the end of the text, and the lines after it as if they stood alone. -/
theorem linesOf?_url {indent : List Char} (hindent : ∀ c ∈ indent, isBlank c = true)
    (hmarks : ∀ after, cs ≠ '"' :: '"' :: after) : linesOf? (indent ++ (urlStart ++ cs)) =
      (quotedTail cs).bind fun p => (skipLineEnd p.2).bind fun rest =>
        (linesOf? rest).map (.pair ⟨[], "url"⟩ (.text (String.ofList p.1)) :: ·) := by
  have hskip : skipBlank (indent ++ (urlStart ++ cs)) = 'u' :: ("rl = \"".toList ++ cs) := by
    rw [skipBlank, List.dropWhile_append_of_pos hindent]
    rfl
  rw [linesOf?_cons hskip (Nat.le_succ _), scanEntry_line (by decide) rfl, scanLine_pair (by decide),
    show 'u' :: ("rl = \"".toList ++ cs) = urlStart ++ cs from rfl, scanPair_url hmarks]
  cases quotedTail cs with
  | none => rfl
  | some p =>
    simp only [Option.map_some, Option.bind_some]
    cases skipLineEnd p.2 <;> rfl

/-- A line with a variable between the quotation marks gives some text, and ends where the marks do. -/
theorem lines_of_variable {indent name back : List Char} {lines : List Line}
    (hindent : ∀ c ∈ indent, isBlank c = true) (hquote : '"' ∉ name) (hbrace : '\x7d' ∉ name)
    (h : linesOf? (indent ++ (urlStart ++ (Interpolation.opening ++ (name ++ '\x7d' :: '"' :: back)))) = some lines) :
    ∃ written rest after, skipLineEnd back = some rest ∧ linesOf? rest = some after ∧
      lines = .pair ⟨[], "url"⟩ (.text written) :: after := by
  have hmarks (later : List Char) :
      Interpolation.opening ++ (name ++ '\x7d' :: '"' :: back) ≠ '"' :: '"' :: later :=
    fun heq => absurd (List.cons.inj heq).1 (by decide)
  rw [linesOf?_url hindent hmarks] at h
  obtain ⟨⟨inside, afterText⟩, htext, h⟩ := Option.bind_eq_some_iff.1 h
  obtain ⟨rest, hend, h⟩ := Option.bind_eq_some_iff.1 h
  obtain ⟨after, hafter, rfl⟩ := Option.map_eq_some_iff.1 h
  obtain rfl : afterText = back := by
    rw [← List.append_assoc] at htext
    have hopening {c : Char} (hc : c ∉ Interpolation.opening) (hname : c ∉ name) :
        c ∉ Interpolation.opening ++ name := fun hmem => (List.mem_append.1 hmem).elim hc hname
    exact quotedTail_brace (hopening (by decide) hquote) (hopening (by decide) hbrace) htext
  exact ⟨_, rest, after, hend, hafter, rfl⟩

/-- With a plain text between the marks the line gives that text, if all of it may stand there. -/
theorem linesOf?_plain {indent text back rest : List Char} {after : List Line}
    (hindent : ∀ c ∈ indent, isBlank c = true) (htext : ∀ c ∈ text, c ≠ '"' ∧ c ≠ '\\')
    (hend : skipLineEnd back = some rest) (hafter : linesOf? rest = some after) :
    linesOf? (indent ++ (urlStart ++ (text ++ '"' :: back))) =
      if text.all isPrintable then some (.pair ⟨[], "url"⟩ (.text (String.ofList text)) :: after)
      else none := by
  have hmarks (later : List Char) : text ++ '"' :: back ≠ '"' :: '"' :: later := by
    intro heq
    cases text with
    | nil =>
      rw [(List.cons.inj heq).2] at hend
      cases (show skipLineEnd ('"' :: later) = none from rfl).symm.trans hend
    | cons c text => exact (htext c List.mem_cons_self).1 (List.cons.inj heq).1
  rw [linesOf?_url hindent hmarks, quotedTail_of_plain htext]
  split
  · simp only [Option.bind_some, hend, hafter, Option.map_some]
  · rfl

end Toml

/-! ## The layer of a file with another address -/

/-- A single key is looked up among the members. -/
theorem Toml.find?_key (kind : TableKind) (members : Members) (key : String) :
    (table kind members).find? [key] = members.lookup key := by
  rw [find?]
  cases members.lookup key <;> rfl

namespace Patch

/-- Another address leaves the values of all other settings as they are. -/
theorem value?_of_ne (p : Patch) (url? : Option String) {setting : Setting} (hne : setting ≠ .databaseUrl) :
    value? { p with databaseUrl := url? } setting = p.value? setting := by
  cases setting with
  | databaseUrl => exact absurd rfl hne
  | _ => rfl

variable {kind : TableKind} {members members' : Toml.Members} {text : String}

/-- With another address a file says about the other settings what it said before. -/
theorem fileValue?_reworded (h : Toml.Reworded "url" text ["database"] members members') {setting : Setting}
    (hne : setting ≠ .databaseUrl) :
    fileValue? (.table kind members') setting.ofToml? setting =
      fileValue? (.table kind members) setting.ofToml? setting := by
  unfold fileValue?
  rw [Toml.find?_key, Toml.find?_key]
  cases h with
  | inside hinner h =>
    cases h with
    | here hold =>
      by_cases hgroup : setting.group = "database"
      · have hkey : setting.key ≠ "url" := by
          cases setting with
          | databaseUrl => exact absurd rfl hne
          | _ => decide
        rw [hgroup, Entries.lookup_put_self, hinner]
        simp only [Toml.field?, Entries.lookup_put_of_ne hkey]
      · rw [Entries.lookup_put_of_ne hgroup]

/-- Two files that differ in the text of the address give two texts for it, the second one the new text. -/
theorem fileValue?_url (kind : TableKind) (h : Toml.Reworded "url" text ["database"] members members') :
    (∃ old, fileValue? (.table kind members) Setting.databaseUrl.ofToml? .databaseUrl = some (some old)) ∧
      fileValue? (.table kind members') Setting.databaseUrl.ofToml? .databaseUrl = some (some text) := by
  unfold fileValue?
  rw [Toml.find?_key, Toml.find?_key]
  cases h with
  | inside hinner h =>
    cases h with
    | @here _ old hold =>
      simp only [Setting.group, Setting.key, Entries.lookup_put_self, hinner, Toml.field?, hold]
      exact ⟨⟨old, rfl⟩, rfl⟩

/-- With another address the layer of a file is the same but for the address. -/
theorem ofToml?_reworded (h : Toml.Reworded "url" text ["database"] members members') :
    ofToml? (.table kind members') =
      (ofToml? (.table kind members)).map fun written => { written with databaseUrl := some text } := by
  obtain ⟨⟨old, hold⟩, hnew⟩ := fileValue?_url kind h
  refine Option.ext fun p => ?_
  rw [ofToml?_eq_some_iff, Option.map_eq_some_iff]
  constructor
  · intro hp
    have hurl : p.databaseUrl = some text := Option.some.inj ((hp .databaseUrl).symm.trans hnew)
    refine ⟨{ p with databaseUrl := some old }, ofToml?_eq_some_iff.2 fun setting => ?_, ?_⟩
    · by_cases hsetting : setting = .databaseUrl
      · subst hsetting
        exact hold
      · rw [value?_of_ne p _ hsetting, ← hp setting, fileValue?_reworded h hsetting]
    · rw [← hurl]
  · rintro ⟨written, hwritten, rfl⟩ setting
    by_cases hsetting : setting = .databaseUrl
    · subst hsetting
      exact hnew
    · rw [value?_of_ne written _ hsetting, ← ofToml?_eq_some_iff.1 hwritten setting, fileValue?_reworded h hsetting]

/-- A text that can be expanded is read as what it is expanded to. -/
theorem ofText_of_expand {environment : Environment} {path raw : String} {expanded : List Char}
    (h : Interpolation.expand environment raw.toList = .ok expanded) :
    ofText environment path raw =
      (Toml.read? (String.ofList expanded)).elim (.error (.invalidFile path "no TOML text")) fun file =>
        (ofToml? file).elim (.error (.invalidFile path "a value does not fit its setting")) .ok := by
  simp only [ofText, h, bind, Except.bind]
  cases Toml.read? (String.ofList expanded) with
  | none => rfl
  | some file =>
    simp only [Option.elim_some]
    cases ofToml? file <;> rfl

end Patch

/-! ## The file with the variable -/

namespace Settings

open Toml (isBlank isPrintable linesOf? openSection? withoutMark urlStart)
open Interpolation (Unmarked opening)

/-- A settings file whose section for the database takes the address from a variable, with no other expression. -/
structure VariableUrl where
  /-- The lines before, with the header of the section. -/
  front : List Char
  indent : List Char
  name : String
  /-- What follows the closing quotation mark. -/
  back : List Char
  ends : front.getLast? = some '\n'
  opened : (linesOf? (withoutMark front)).bind openSection? = some ⟨[], "database"⟩
  blank : ∀ c ∈ indent, isBlank c = true
  unquoted : '"' ∉ name.toList
  unclosed : '\x7d' ∉ name.toList
  alone : Unmarked front ∧ Unmarked back

namespace VariableUrl

variable (file : VariableUrl)

/-- The file with these characters between the quotation marks. -/
def textWith (inside : List Char) : List Char :=
  file.front ++ (file.indent ++ (urlStart ++ (inside ++ '"' :: file.back)))

/-- The file as it is written. -/
def text : List Char := file.textWith (opening ++ (file.name.toList ++ ['\x7d']))

/-- Only the value comes in the place of the variable. -/
theorem expand_text {environment : Environment} {value : String} (hset : environment.lookup file.name = some value) :
    Interpolation.expand environment file.text = .ok (file.textWith value.toList) := by
  have hstart : Unmarked (file.indent ++ urlStart) := by
    intro hinfix
    have hdollar : '$' ∈ file.indent ++ urlStart := hinfix.subset (by decide)
    rcases List.mem_append.1 hdollar with hdollar | hdollar
    · exact absurd (file.blank _ hdollar) (by decide)
    · exact absurd hdollar (by decide)
  have hhead (rest : List Char) : (file.indent ++ urlStart ++ rest).head? ≠ some '\x7b' := by
    intro hhead
    cases hindent : file.indent with
    | nil =>
      rw [hindent] at hhead
      cases (show some 'u' = some '\x7b' from hhead)
    | cons c indent =>
      obtain rfl : c = '\x7b' := by simpa [hindent] using hhead
      exact absurd (file.blank '\x7b' (by simp [hindent])) (by decide)
  have hback : Unmarked ('"' :: file.back) := file.alone.2.cons (by
    intro hprefix
    exact absurd (List.cons_prefix_cons.1 hprefix).1 (by decide))
  have htext : file.text = file.front ++ (file.indent ++ urlStart ++ opening ++
      (file.name.toList ++ '\x7d' :: '"' :: file.back)) := by
    simp only [text, textWith, List.append_assoc, List.singleton_append]
  rw [htext, Interpolation.expand_append (Interpolation.expand_of_unmarked file.alone.1)
    (by rw [List.append_assoc]; exact hhead _), Interpolation.expand_first hstart,
    Interpolation.expand_opening_closed file.unclosed, String.ofList_toList, hset]
  simp only [Interpolation.expand_of_unmarked hback, Except.map, textWith, List.append_assoc]

/-- The lines before are the same whatever stands between the marks. -/
theorem exists_read?_textWith : ∃ before, openSection? before = some ⟨[], "database"⟩ ∧
    ∀ inside, Toml.read? (String.ofList (file.textWith inside)) =
      ((linesOf? (file.indent ++ (urlStart ++ (inside ++ '"' :: file.back)))).map (before ++ ·)).bind
        Toml.ofLines := by
  obtain ⟨before, hbefore, hsection⟩ := Option.bind_eq_some_iff.1 file.opened
  refine ⟨before, hsection, fun inside => ?_⟩
  generalize hline : file.indent ++ (urlStart ++ (inside ++ '"' :: file.back)) = line
  obtain ⟨hmark, hends⟩ := Toml.withoutMark_append file.ends line
  have hread : Toml.read? (String.ofList (file.textWith inside)) =
      (linesOf? (withoutMark (file.front ++ line))).bind Toml.ofLines := by
    rw [Toml.read?, String.toList_ofList, textWith, hline]
    rfl
  rw [hread, hmark, Toml.linesOf?_append hbefore (.inr (.inr hends))]

/-- The file as it is written and the file with a plain text in it have the same lines but for the address. -/
theorem exists_lines (hvalid : (Toml.read? (String.ofList file.text)).isSome) :
    ∃ before old after, openSection? before = some ⟨[], "database"⟩ ∧
      Toml.read? (String.ofList file.text) = Toml.ofLines (before ++ .pair ⟨[], "url"⟩ (.text old) :: after) ∧
      ∀ text : List Char, (∀ c ∈ text, c ≠ '"' ∧ c ≠ '\\') → Toml.read? (String.ofList (file.textWith text)) =
        if text.all isPrintable then
          Toml.ofLines (before ++ .pair ⟨[], "url"⟩ (.text (String.ofList text)) :: after)
        else none := by
  obtain ⟨before, hsection, hread⟩ := file.exists_read?_textWith
  have hvariable : opening ++ (file.name.toList ++ ['\x7d']) ++ '"' :: file.back =
      opening ++ (file.name.toList ++ '\x7d' :: '"' :: file.back) := by simp
  have hwritten : Toml.read? (String.ofList file.text) = _ := hread _
  rw [hvariable] at hwritten
  obtain ⟨written, hsome⟩ := Option.isSome_iff_exists.1 (hwritten ▸ hvalid)
  obtain ⟨lines, hlines, -⟩ := Option.bind_eq_some_iff.1 hsome
  obtain ⟨tail, htail, rfl⟩ := Option.map_eq_some_iff.1 hlines
  obtain ⟨old, rest, after, hend, hafter, rfl⟩ :=
    Toml.lines_of_variable file.blank file.unquoted file.unclosed htail
  refine ⟨before, old, after, hsection, by rw [hwritten, htail]; rfl, fun text hplain => ?_⟩
  rw [hread, Toml.linesOf?_plain file.blank hplain hend hafter]
  split <;> rfl

/-- A file with other settings before and after the address. -/
def amongOthers : VariableUrl where
  front := "[server]\nport = 9000\n[database]\n".toList
  indent := "  ".toList
  name := "URL"
  back := " # from the host\ntimeout_secs = 7\n".toList
  ends := by decide +kernel
  opened := by decide +kernel
  blank := List.all_eq_true.1 (by decide +kernel)
  unquoted := by decide +kernel
  unclosed := by decide +kernel
  alone := by unfold Unmarked; decide +kernel

end VariableUrl

end Settings

end SignOff
