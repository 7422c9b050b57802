import SignOff.Operator.Inspect
import SignOff.Proofs.Paths
import SignOff.Proofs.Settings.PlainFile

/-!
# The sources of settings as they are shown

Settings are shown with the words for a layer. The words are found without the loader: of the variables of a setting
the first that is set at all is named, and the file is read once more, as it stands. So the words are those of the
layer that supplies the setting unless the caller does, that variable is blank, or the file says something else
once variables have been put in. That is exact for environments whose values are texts, the only ones there are
here: a variable with other bytes would be named as a source, as a blank one is, and supply nothing.
-/

namespace SignOff

namespace Environment

/-- The first of a setting's variables that is set at all, with its value. -/
def first? (environment : Environment) (setting : Setting) : Option (String × String) :=
  setting.variableNames.findSome? fun name => (environment.lookup name).map fun value => (name, value)

variable {environment : Environment} {setting : Setting}

/-- The first variable that is set has the value it comes with. -/
theorem lookup_of_first? {name value : String} (h : environment.first? setting = some (name, value)) :
    environment.lookup name = some value := by
  obtain ⟨name', -, hvalue⟩ := List.exists_of_findSome?_eq_some h
  obtain ⟨value', hlookup, heq⟩ := Option.map_eq_some_iff.1 hvalue
  cases heq
  exact hlookup

/-- The name of the first variable that is set is found without its value. -/
theorem find?_eq_first? (environment : Environment) (setting : Setting) :
    (setting.variableNames.find? fun name => (environment.lookup name).isSome) =
      (environment.first? setting).map Prod.fst := by
  unfold first?
  induction setting.variableNames with
  | nil => rfl
  | cons name rest ih =>
    rw [List.find?_cons, List.findSome?_cons]
    cases environment.lookup name with
    | none => exact ih
    | some value => rfl

/-- Where no variable is set, none counts. -/
theorem given?_of_first?_eq_none (h : environment.first? setting = none) :
    environment.given? setting = none := by
  cases hgiven : environment.given? setting with
  | none => rfl
  | some given =>
    obtain ⟨hname, hlookup, -⟩ := of_given? hgiven
    have hunset := List.findSome?_eq_none_iff.1 h _ hname
    simp [hlookup] at hunset

/-- The first variable that is set is the one that counts, unless it is blank. -/
theorem given?_of_first? {name value : String} (h : environment.first? setting = some (name, value)) :
    (environment.given? setting).map Prod.fst = some name ↔ Text.blank value = false := by
  constructor
  · intro hname
    obtain ⟨⟨_, value'⟩, hgiven, rfl⟩ := Option.map_eq_some_iff.1 hname
    obtain ⟨-, hlookup, hblank⟩ := of_given? hgiven
    rw [lookup_of_first? h, Option.some.injEq] at hlookup
    exact hlookup ▸ hblank
  · intro hblank
    unfold first? at h
    unfold given?
    generalize setting.variableNames = names at h ⊢
    induction names with
    | nil => simp at h
    | cons other rest ih =>
      rw [List.findSome?_cons] at h ⊢
      cases hlookup : environment.lookup other with
      | none =>
        rw [hlookup] at h
        exact ih h
      | some found =>
        simp only [hlookup, Option.map_some, Option.some.injEq, Prod.mk.injEq] at h
        obtain ⟨rfl, rfl⟩ := h
        have hkept : (some found).filter (fun value => !Text.blank value) = some found :=
          Option.filter_eq_some_iff.2 ⟨rfl, by simp [hblank]⟩
        rw [hkept]
        rfl

end Environment

namespace Operator

open Settings (Layer supplied)

/-- The words for a layer; there are none for what the caller gives. -/
def words? : Layer → Option String
  | .caller => none
  | .variable name => some ("env (" ++ name ++ ")")
  | .file path => some ("file (" ++ path ++ ")")
  | .default => some "default"

/-- Different layers have different words. -/
theorem eq_of_words? {layer layer' : Layer} {words : String} (h : words? layer = some words)
    (h' : words? layer' = some words) : layer = layer' := by
  have hwords := h.trans h'.symm
  clear h h'
  cases layer <;> cases layer' <;> simp [words?, ← String.toList_inj] at hwords ⊢ <;> exact hwords

section Shown

variable (site : Site) (options : LoadOptions) (setting : Setting)

/-- The settings file with its path, if there is one that can be read as it stands. -/
def plainly? : Option (String × Toml) :=
  plainFile? site.files (Settings.path? site.files options.configPath)

/-- The words that are shown for where a setting comes from. -/
def shownSource : String := sourceOf site.environment (plainly? site options) setting

/-- For each layer that has words, they are shown exactly when that layer supplies the setting. -/
def Credits : Prop :=
  ∀ layer words, words? layer = some words →
    (shownSource site options setting = words ↔ (supplied site options setting).1 = layer)

/-- The settings file has the key of the setting as it stands. -/
def Says : Prop :=
  ∃ path file, plainly? site options = some (path, file) ∧ (file.find? [setting.group, setting.key]).isSome = true

/-- The settings file gives a value to the setting. -/
def Gives : Prop :=
  ∃ patch, Settings.filePatch site options = .ok patch ∧ (patch.shown? setting).isSome = true

/-- The settings file, if there is one, holds no expressions, and the section of the setting is a table in it. -/
def Plain : Prop :=
  ∀ path text, Settings.path? site.files options.configPath = some path →
    Settings.fileText site.files path = .ok text → Interpolation.names text.toList = [] ∧
      ∀ file value, Toml.read? text = some file → file.find? [setting.group] = some value →
        ∃ kind members, value = .table kind members

/-- The layer that the words shown are for. -/
def shownLayer : Layer :=
  match site.environment.first? setting with
  | some (name, _) => .variable name
  | none =>
    match plainly? site options with
    | some (path, file) => if (file.find? [setting.group, setting.key]).isSome then .file path else .default
    | none => .default

end Shown

variable {site : Site} {options : LoadOptions} {setting : Setting} {settings : Settings}

/-- The layer that is shown has the words that are shown. -/
theorem words?_shownLayer : words? (shownLayer site options setting) = some (shownSource site options setting) := by
  unfold shownLayer shownSource sourceOf
  rw [Environment.find?_eq_first?]
  cases site.environment.first? setting with
  | some given => rfl
  | none =>
    cases plainly? site options with
    | none => rfl
    | some found =>
      simp only [Option.map_none]
      split <;> rfl

/-- The source shown is right exactly when the layer it is for supplies the setting. -/
theorem credits_iff :
    Credits site options setting ↔ (supplied site options setting).1 = shownLayer site options setting := by
  constructor
  · intro h
    exact (h _ _ words?_shownLayer).1 rfl
  · intro h layer words hwords
    rw [h]
    constructor
    · intro hshown
      exact eq_of_words? words?_shownLayer (hshown ▸ hwords)
    · intro hlayer
      exact Option.some.inj (words?_shownLayer.symm.trans (hlayer ▸ hwords))

/-- What a plain file says is what it gives. -/
theorem says_iff_gives (hload : Settings.load site options = .ok settings) (hplain : Plain site options setting) :
    Says site options setting ↔ Gives site options setting := by
  obtain ⟨patch, -, hpatch, -, -⟩ := Settings.load_eq_ok hload
  have hgives : Gives site options setting ↔ (patch.shown? setting).isSome = true := by
    simp [Gives, hpatch]
  rw [hgives]
  unfold Says plainly?
  cases hpath : Settings.path? site.files options.configPath with
  | none => simp [plainFile?, Settings.shown?_of_path?_eq_none hpath hpatch]
  | some path =>
    obtain ⟨text, htext, htaken⟩ := Settings.filePatch_eq_ok hpath hpatch
    obtain ⟨expanded, file, hexpanded, hfile, hread⟩ := Patch.ofText_eq_ok htaken
    obtain ⟨hnames, hsection⟩ := hplain path text hpath htext
    rw [Interpolation.expand_of_names_eq_nil hnames hexpanded, String.ofList_toList] at hfile
    have hfound : plainFile? site.files (some path) = some (path, file) := by
      simp [plainFile?, htext, Except.toOption, hfile]
    rw [Patch.isSome_shown?_of_ofToml? (hsection file · hfile) hread]
    simp [hfound]

/-- Without a variable that counts the settings file supplies what it gives, and the defaults the rest. -/
theorem supplied_fst (hload : Settings.load site options = .ok settings)
    (hcaller : options.overrides.shown? setting = none) (hgiven : site.environment.given? setting = none) :
    (Gives site options setting → ∃ path, Settings.path? site.files options.configPath = some path ∧
        (supplied site options setting).1 = .file path) ∧
      (¬Gives site options setting → (supplied site options setting).1 = .default) := by
  obtain ⟨patch, -, hpatch, -, -⟩ := Settings.load_eq_ok hload
  have hgives : Gives site options setting ↔ (patch.shown? setting).isSome = true := by
    simp [Gives, hpatch]
  rw [hgives]
  constructor
  · intro hsome
    obtain ⟨value, hvalue⟩ := Option.isSome_iff_exists.1 hsome
    cases hpath : Settings.path? site.files options.configPath with
    | none => simp [Settings.shown?_of_path?_eq_none hpath hpatch] at hvalue
    | some path => exact ⟨path, rfl, by rw [Settings.supplied_of_file hcaller hgiven hpath hpatch hvalue]⟩
  · intro hnone
    rw [Settings.supplied_of_none hcaller hgiven hpatch (Option.not_isSome_iff_eq_none.1 hnone)]

/-- A variable of the setting supplies it exactly when it is the one that counts. -/
theorem supplied_fst_eq_variable_iff (hload : Settings.load site options = .ok settings)
    (hcaller : options.overrides.shown? setting = none) (name : String) :
    (supplied site options setting).1 = .variable name ↔
      (site.environment.given? setting).map Prod.fst = some name := by
  cases hgiven : site.environment.given? setting with
  | none =>
    obtain ⟨hfile, hdefault⟩ := supplied_fst hload hcaller hgiven
    by_cases hgives : Gives site options setting
    · obtain ⟨path, -, hsupplied⟩ := hfile hgives
      simp [hsupplied]
    · simp [hdefault hgives]
  | some given =>
    obtain ⟨-, patch, -, hpatch, -⟩ := Settings.load_eq_ok hload
    obtain ⟨value, -, hsupplied⟩ := Settings.supplied_of_given hcaller hpatch hgiven
    simp [hsupplied]

/-- The file that is read as it stands is the settings file. -/
theorem path_of_plainly? {path : String} {file : Toml} (h : plainly? site options = some (path, file)) :
    Settings.path? site.files options.configPath = some path := by
  obtain ⟨path', hpath, h⟩ := Option.bind_eq_some_iff.1 h
  obtain ⟨text, -, h⟩ := Option.bind_eq_some_iff.1 h
  obtain ⟨file', -, h⟩ := Option.bind_eq_some_iff.1 h
  cases h
  exact hpath

/-- The file is shown for what it says as it stands, if no variable is set. -/
theorem shownLayer_of_first?_eq_none (options : LoadOptions) (hfirst : site.environment.first? setting = none) :
    (Says site options setting → ∃ path, Settings.path? site.files options.configPath = some path ∧
        shownLayer site options setting = .file path) ∧
      (¬Says site options setting → shownLayer site options setting = .default) := by
  unfold shownLayer Says
  rw [hfirst]
  cases hplainly : plainly? site options with
  | none => simp
  | some found =>
    obtain ⟨path, file⟩ := found
    have hpath := path_of_plainly? hplainly
    constructor
    · intro hsays
      obtain ⟨_, _, heq, hfile⟩ := hsays
      cases heq
      exact ⟨path, hpath, by simp only [hfile, if_true]⟩
    · intro hnot
      have hfile : ¬(file.find? [setting.group, setting.key]).isSome = true := fun hfile =>
        hnot ⟨path, file, rfl, hfile⟩
      simp only [if_neg hfile]

/-- A setting is credited to the right layer exactly when the caller does not supply it, the first of its variables
that is set is not blank, and, if none is set, the file as it stands says something exactly when it gives something. -/
theorem credits_iff_of_load (hload : Settings.load site options = .ok settings) :
    Credits site options setting ↔
      options.overrides.shown? setting = none ∧
        (∀ name value, site.environment.first? setting = some (name, value) → Text.blank value = false) ∧
          (site.environment.first? setting = none → (Says site options setting ↔ Gives site options setting)) := by
  rw [credits_iff]
  cases hcaller : options.overrides.shown? setting with
  | some value =>
    rw [Settings.supplied_of_caller hcaller]
    refine iff_of_false (fun hshown => ?_) (by simp)
    have hwords : words? (shownLayer site options setting) = some _ := words?_shownLayer
    simp [← hshown, words?] at hwords
  | none =>
    cases hfirst : site.environment.first? setting with
    | some first =>
      obtain ⟨name, value⟩ := first
      have hshown : shownLayer site options setting = .variable name := by rw [shownLayer, hfirst]
      rw [hshown, supplied_fst_eq_variable_iff hload hcaller, Environment.given?_of_first? hfirst]
      simp
    | none =>
      have hgiven := Environment.given?_of_first?_eq_none hfirst
      obtain ⟨hfile, hdefault⟩ := supplied_fst hload hcaller hgiven
      obtain ⟨hsaid, hunsaid⟩ := shownLayer_of_first?_eq_none options hfirst
      by_cases hsays : Says site options setting <;> by_cases hgives : Gives site options setting
      · obtain ⟨path, hpath, hsupplied⟩ := hfile hgives
        obtain ⟨_, hsame, hshown⟩ := hsaid hsays
        rw [hpath, Option.some.injEq] at hsame
        simp [hsupplied, hshown, hsame, hsays, hgives]
      · obtain ⟨path, -, hshown⟩ := hsaid hsays
        simp [hdefault hgives, hshown, hsays, hgives]
      · obtain ⟨path, -, hsupplied⟩ := hfile hgives
        simp [hsupplied, hunsaid hsays, hsays, hgives]
      · simp [hdefault hgives, hunsaid hsays, hsays, hgives]

/-- The settings are shown with the values that the topmost layers give. Each is credited to the right layer exactly
when the caller does not supply it, the first of its variables that is set is not blank, and, if none is set, the file
says something as it stands exactly when it gives something. The last is so for every file without expressions in
which the section is a table. -/
theorem inspect_sources (hload : Settings.load site options = .ok settings) :
    inspect site options = ⟨0, "\n".intercalate
        ("effective config (source precedence: env > file > default):" :: Setting.all.map fun s =>
          "- " ++ s.group ++ "." ++ s.key ++ " = " ++ (supplied site options s).2 ++ " (source: " ++
            shownSource site options s ++ ")")⟩ ∧
      ∀ setting,
        (Credits site options setting ↔
          options.overrides.shown? setting = none ∧
            (∀ name value, site.environment.first? setting = some (name, value) → Text.blank value = false) ∧
              (site.environment.first? setting = none →
                (Says site options setting ↔ Gives site options setting))) ∧
          (Plain site options setting → (Says site options setting ↔ Gives site options setting)) := by
  constructor
  · simp only [Settings.supplied_snd hload, inspect, hload]
    rfl
  · intro setting
    exact ⟨credits_iff_of_load hload, says_iff_gives hload⟩

/-- A port from a plain file and a log level from the second of two variables. -/
theorem inspect_sources_of_plain_file :
    let site : Site :=
      ⟨⟨[(["itgov.toml"], .file "[server]\nport = 9090\n".toUTF8)]⟩, [("ITGOV_LOG_LEVEL", "debug")]⟩
    Settings.load site {} = .ok { Settings.default with port := 9090, logLevel := "debug" } ∧
      Credits site {} .port ∧ Credits site {} .logLevel := by
  intro site
  have hpath : Settings.path? site.files ({} : LoadOptions).configPath = some "itgov.toml" := by
    simp only [Settings.path?, Files.find?, Files.place?_eq]
    decide +kernel
  have htext : Settings.fileText site.files "itgov.toml" = .ok "[server]\nport = 9090\n" := by
    simp only [Settings.fileText, Files.find?, Files.place?_eq]
    decide +kernel
  have hload : Settings.load site {} = .ok { Settings.default with port := 9090, logLevel := "debug" } := by
    simp only [Settings.load, Settings.filePatch, hpath, htext]
    decide +kernel
  have hfound : ((Toml.read? "[server]\nport = 9090\n").bind (Toml.find? ["server", "port"])).isSome = true := by
    decide +kernel
  obtain ⟨-, hsources⟩ := inspect_sources hload
  have hplain : Plain site {} .port := by
    intro path text hpath' htext'
    obtain rfl := Option.some.inj (hpath.symm.trans hpath')
    obtain rfl := Except.ok.inj (htext.symm.trans htext')
    refine ⟨by decide +kernel, fun file value hfile hvalue => ?_⟩
    have hport : file.find? ["server", "port"] = value.find? ["port"] := by
      rw [show ["server", "port"] = [Setting.port.group] ++ ["port"] from rfl, Toml.find?_append, hvalue]
      rfl
    rw [hfile, Option.bind_some, hport] at hfound
    cases value with
    | table kind members => exact ⟨kind, members, rfl⟩
    | _ => simp [Toml.find?] at hfound
  have hport : site.environment.first? .port = none := by decide +kernel
  have hlogLevel : site.environment.first? .logLevel = some ("ITGOV_LOG_LEVEL", "debug") := by decide +kernel
  have hdebug : Text.blank "debug" = false := by decide +kernel
  refine ⟨hload, (hsources .port).1.2 ⟨rfl, ?_, fun _ => (hsources .port).2 hplain⟩,
    (hsources .logLevel).1.2 ⟨rfl, ?_, ?_⟩⟩
  · simp [hport]
  · simp [hlogLevel, hdebug]
  · simp [hlogLevel]

/-- A blank variable has no say, and yet the default is credited to it. -/
theorem blank_variable_credited :
    let site : Site := ⟨.empty, [("ITGOV_DATABASE_URL", " ")]⟩
    Settings.load site {} = .ok .default ∧ (supplied site {} .databaseUrl).1 = .default ∧
      shownSource site {} .databaseUrl = "env (ITGOV_DATABASE_URL)" ∧ ¬Credits site {} .databaseUrl := by
  intro site
  have hpath : Settings.path? site.files ({} : LoadOptions).configPath = none := by
    simp only [Settings.path?, Files.find?, Files.place?_eq]
    decide +kernel
  have hload : Settings.load site {} = .ok .default := by
    simp only [Settings.load, Settings.filePatch, hpath]
    decide +kernel
  have hsupplied : (supplied site {} .databaseUrl).1 = .default := by
    simp only [supplied, hpath]
    decide +kernel
  have hshown : shownSource site {} .databaseUrl = "env (ITGOV_DATABASE_URL)" := by
    simp only [shownSource, plainly?, hpath]
    decide +kernel
  refine ⟨hload, hsupplied, hshown, fun hcredits => ?_⟩
  have hvariable := (hcredits (.variable "ITGOV_DATABASE_URL") _ rfl).1 hshown
  simp [hsupplied] at hvariable

end Operator

end SignOff
