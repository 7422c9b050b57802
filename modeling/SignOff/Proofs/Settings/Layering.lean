import SignOff.Proofs.Paths
import SignOff.Proofs.Settings.Values

/-!
# Loading layer by layer

Settings are loaded in stages, each of which can fail: the settings file has to be there if the caller insists on
it, it is read, the variables are put into it, it is taken for a layer, the variables of the settings are taken one
by one, and in the end the rules are checked. The first stage that fails tells the error, and when none does every
setting has the value of the topmost layer that gives one.
-/

namespace SignOff.Settings

section Document

variable (site : Site) (options : LoadOptions)

/-- The text of the settings file. -/
def rawText? : Option String := do
  let path ← path? site.files options.configPath
  (fileText site.files path).toOption

/-- The text of the settings file with the variables put in. -/
def expandedText? : Option String := do
  let raw ← rawText? site options
  (Interpolation.expand site.environment raw.toList).toOption.map String.ofList

/-- What the settings file says. -/
def document? : Option Toml := (expandedText? site options).bind Toml.read?

/-- The value of the settings file for a setting. -/
def inDocument? (setting : Setting) : Option setting.Value :=
  (document? site options).bind fun file => Patch.inFile? file setting

/-- The value of the topmost layer that gives one: the caller, the environment, the settings file, the defaults. -/
def topmost (setting : Setting) : setting.Value :=
  ((options.overrides.value? setting).or
    ((site.environment.value? setting).or (inDocument? site options setting))).getD (setting.value .default)

end Document

/-- The stages of loading. -/
inductive Stage where
  /-- The settings file is looked for. -/
  | presence
  /-- Its text is read. -/
  | reading
  /-- Variables are put into the text. -/
  | interpolation
  /-- The text is taken for a layer. -/
  | parsing
  /-- The variables of a setting are taken. -/
  | variable (setting : Setting)
  /-- The rules are checked on what has come out. -/
  | validation

namespace Stage

/-- The stages up to the layer of the settings file. -/
def ofFile : List Stage := [presence, reading, interpolation, parsing]

/-- All stages in order. -/
def all : List Stage := ofFile ++ (Setting.all.map Stage.variable ++ [validation])

/-- The error of a stage. -/
def error? (site : Site) (options : LoadOptions) : Stage → Option SettingsError
  | .presence =>
    if path? site.files options.configPath = none ∧ options.requireFile then
      some (.missingFile (options.configPath.getD usualFile))
    else none
  | .reading => do
    let path ← path? site.files options.configPath
    failure? (fileText site.files path)
  | .interpolation => do
    let raw ← rawText? site options
    failure? (Interpolation.expand site.environment raw.toList)
  | .parsing => do
    let path ← path? site.files options.configPath
    let text ← expandedText? site options
    match Toml.read? text with
    | none => some (.invalidFile path "no TOML text")
    | some file =>
      if Patch.Fits file then none else some (.invalidFile path "a value does not fit its setting")
  | .variable setting => site.environment.error? setting
  | .validation => (ofValues (topmost site options)).flaw?.map .invalid

end Stage

variable {site : Site} {options : LoadOptions}

/-- The layer of the settings file has its values, unless a stage on the way to it fails. -/
theorem filePatch_eq :
    filePatch site options =
      okUnless (Stage.ofFile.findSome? (Stage.error? site options)) (.ofValues (inDocument? site options)) := by
  simp only [Stage.ofFile, findSome?_cons_eq_or, List.findSome?_nil, Option.or_none]
  unfold filePatch
  cases hpath : path? site.files options.configPath with
  | none =>
    have hraw : rawText? site options = none := by simp [rawText?, hpath]
    have hexpanded : expandedText? site options = none := by simp [expandedText?, hraw]
    have hempty : inDocument? site options = fun _ => none := by
      funext setting
      simp [inDocument?, document?, hexpanded]
    simp only [Stage.error?, hpath, hraw, hempty]
    cases options.requireFile <;> rfl
  | some path =>
    have hpresence : Stage.presence.error? site options = none := by simp [Stage.error?, hpath]
    have hreading : Stage.reading.error? site options = failure? (fileText site.files path) := by
      simp [Stage.error?, hpath]
    rw [hpresence, hreading, Option.none_or]
    -- a stage is looked at where those before it have gone well, since only then it has something to work on
    refine bind_eq_okUnless fun raw htext => ?_
    have hraw : rawText? site options = some raw := by simp [rawText?, hpath, htext, Except.toOption]
    have hinterpolation : Stage.interpolation.error? site options =
        failure? (Interpolation.expand site.environment raw.toList) := by simp [Stage.error?, hraw]
    rw [hinterpolation]
    refine bind_eq_okUnless fun expanded hexpand => ?_
    have hexpanded : expandedText? site options = some (String.ofList expanded) := by
      simp [expandedText?, hraw, hexpand, Except.toOption]
    cases hread : Toml.read? (String.ofList expanded) with
    | none => simp [Stage.error?, hpath, hexpanded, hread, okUnless]
    | some file =>
      have hdocument : inDocument? site options = Patch.inFile? file := by
        funext setting
        simp [inDocument?, document?, hexpanded, hread]
      simp only [Stage.error?, hpath, hexpanded, hread, hdocument, Patch.ofToml?_eq, Option.bind_eq_bind,
        Option.bind_some]
      by_cases hfits : Patch.Fits file <;> simp [hfits, okUnless]

/-- Settings are what they should be, unless they break a rule. -/
theorem validate_eq (s : Settings) : s.validate = okUnless (s.flaw?.map .invalid) s := by
  unfold validate
  cases s.flaw? <;> rfl

/-- Every setting is loaded from the topmost layer, unless a stage fails. -/
theorem load_eq :
    load site options =
      okUnless (Stage.all.findSome? (Stage.error? site options)) (ofValues (topmost site options)) := by
  have hmerged : ((default.patched (.ofValues (inDocument? site options))).patched
      (.ofValues site.environment.value?)).patched options.overrides = ofValues (topmost site options) := by
    refine eq_ofValues_iff.2 fun setting => ?_
    simp only [Patch.value_patched, Patch.value?_ofValues, topmost, Option.getD_or]
  have hvariables : (Setting.all.map Stage.variable).findSome? (Stage.error? site options) =
      Setting.all.findSome? site.environment.error? := List.findSome?_map
  -- three computations in a row, each of which is a value unless one of its stages fails
  rw [load, filePatch_eq, Environment.patch_eq]
  simp only [validate_eq, okUnless_bind, hmerged]
  rw [Stage.all, List.findSome?_append, List.findSome?_append, hvariables, List.findSome?_singleton]
  rfl

/-- Loading succeeds when no stage fails, and then every setting has the value of the topmost layer that gives one
and may have it. It fails with the error of the first stage that does. The rules are checked on the values of the
topmost layers only, whatever stands in a layer below. -/
theorem load_layered (site : Site) (options : LoadOptions) :
    (∀ settings, load site options = .ok settings ↔ (∀ stage ∈ Stage.all, stage.error? site options = none) ∧
      ∀ setting : Setting, setting.value settings = topmost site options setting) ∧
    (∀ settings, load site options = .ok settings →
      ∀ setting : Setting, setting.Allows (setting.value settings)) ∧
    (∀ e, load site options = .error e ↔ ∃ earlier stage later, Stage.all = earlier ++ stage :: later ∧
      stage.error? site options = some e ∧ ∀ before ∈ earlier, before.error? site options = none) ∧
    (Stage.validation.error? site options = none ↔
      ∀ setting : Setting, setting.Allows (topmost site options setting)) := by
  have hok (settings : Settings) : load site options = .ok settings ↔
      (∀ stage ∈ Stage.all, stage.error? site options = none) ∧
        ∀ setting : Setting, setting.value settings = topmost site options setting := by
    rw [load_eq, okUnless_eq_ok_iff, List.findSome?_eq_none_iff, eq_comm (b := settings), eq_ofValues_iff]
  have hvalidation : Stage.validation.error? site options = none ↔
      ∀ setting : Setting, setting.Allows (topmost site options setting) := by
    rw [Stage.error?, Option.map_eq_none_iff, flaw?_eq_none_iff]
    simp only [value_ofValues]
  refine ⟨hok, fun settings hload setting => ?_, fun e => ?_, hvalidation⟩
  · obtain ⟨hstages, hvalues⟩ := (hok settings).1 hload
    rw [hvalues setting]
    exact hvalidation.1 (hstages _ (by simp [Stage.all])) setting
  · rw [load_eq, okUnless_eq_error_iff, List.findSome?_eq_some_iff]

/-- A settings file whose port, batch limit and log level break the rules and are replaced, and two variables that make
no sense, of which the one for the port comes first. -/
theorem load_layered_of_replaced_values :
    let text := "[server]\nport = 0\n[workflow]\nbulk_max_items = 0\n[logging]\nlevel = \"loud\"\n"
    let site : Site := ⟨⟨[(["itgov.toml"], .file text.toUTF8)]⟩,
      [("ITGOV_SERVER_PORT", "9000"), ("ITGOV_LOGGING_LEVEL", " "), ("ITGOV_LOG_LEVEL", "debug")]⟩
    let options : LoadOptions := { overrides := { bulkMaxItems := some 3 } }
    let wrong : Site := ⟨.empty, [("ITGOV_LOG_FORMAT", "yaml"), ("ITGOV_SERVER_PORT", "http")]⟩
    (∃ settings, load site options = .ok settings ∧ topmost site options .port = (9000 : Nat) ∧
      topmost site options .bulkMaxItems = (3 : Nat) ∧ topmost site options .logLevel = "debug" ∧
      Stage.validation.error? site options = none) ∧
    ∃ stage : Stage, stage.error? wrong {} = some (.invalidVariable "ITGOV_SERVER_PORT" "http") ∧
      Stage.error? wrong {} (.variable .logFormat) = some (.invalid (.logFormat "yaml")) := by
  intro text site options wrong
  have hpath : path? site.files options.configPath = some "itgov.toml" := by
    simp only [path?, Files.find?, Files.place?_eq]
    decide +kernel
  have htext : fileText site.files "itgov.toml" = .ok text := by
    simp only [fileText, Files.find?, Files.place?_eq]
    decide +kernel
  have hload : load site options =
      .ok { default with port := 9000, bulkMaxItems := 3, logLevel := "debug" } := by
    simp only [load, filePatch, hpath, htext]
    decide +kernel
  have hwrong : load wrong {} = .error (.invalidVariable "ITGOV_SERVER_PORT" "http") := by
    have hnone : path? wrong.files ({} : LoadOptions).configPath = none := by
      simp only [path?, Files.find?, Files.place?_eq]
      decide +kernel
    simp only [load, filePatch, hnone]
    decide +kernel
  obtain ⟨hok, -, -, -⟩ := load_layered site options
  obtain ⟨hstages, hvalues⟩ := (hok _).1 hload
  obtain ⟨-, -, herror, -⟩ := load_layered wrong {}
  obtain ⟨-, stage, -, -, hstage, -⟩ := (herror _).1 hwrong
  exact ⟨⟨_, hload, (hvalues .port).symm, (hvalues .bulkMaxItems).symm, (hvalues .logLevel).symm,
    hstages _ (by simp [Stage.all])⟩, stage, hstage, by decide +kernel⟩

end SignOff.Settings
