import SignOff.Proofs.Results
import SignOff.Settings.Load

/-!
# The values of the single settings

A set of settings is a value of its own type for every setting, a layer is one for some of them, and laid over
others it replaces these. The layer of an environment is what the variables stand for, unless one stands for nothing,
and the layer of a file is what stands in it, unless a value does not fit. The settings break a rule exactly when one
of them has a value that it may not have.
-/

namespace SignOff

namespace Setting

/-- The type of the values of a setting. -/
@[reducible]
def Value : Setting → Type
  | .databaseUrl | .bindAddress | .dateFormat | .logLevel => String
  | .maxConnections | .timeoutSecs | .port | .shutdownSecs | .bulkMaxItems => Nat
  | .logFormat => LogFormat

/-- The value that a setting has. -/
def value (s : Settings) : (setting : Setting) → setting.Value
  | .databaseUrl => s.databaseUrl
  | .maxConnections => s.maxConnections
  | .timeoutSecs => s.timeoutSecs
  | .bindAddress => s.bindAddress
  | .port => s.port
  | .shutdownSecs => s.shutdownSecs
  | .bulkMaxItems => s.bulkMaxItems
  | .dateFormat => s.dateFormat
  | .logLevel => s.logLevel
  | .logFormat => s.logFormat

/-- The value that the text of a variable stands for. -/
def ofVariable? : (setting : Setting) → String → Option setting.Value
  | .databaseUrl, text | .bindAddress, text | .dateFormat, text | .logLevel, text => some text
  | .maxConnections, text => Text.readNat? Text.nat32Greatest text.toList
  | .timeoutSecs, text | .shutdownSecs, text | .bulkMaxItems, text =>
    Text.readNat? Text.nat64Greatest text.toList
  | .port, text => Text.readNat? Settings.greatestPort text.toList
  | .logFormat, text => (Settings.readLogFormat text).toOption

/-- The error about a variable that stands for no value of the setting. -/
def variableError : Setting → (name text : String) → SettingsError
  | .logFormat, _, text => .invalid (.logFormat (Text.lower (Text.trim text)))
  | _, name, text => .invalidVariable name text

/-- The value that stands in a file. -/
def ofToml? : (setting : Setting) → Toml → Option setting.Value
  | .databaseUrl, value | .bindAddress, value | .dateFormat, value | .logLevel, value => value.text?
  | .maxConnections, value => value.natural? Text.nat32Greatest
  | .timeoutSecs, value | .shutdownSecs, value | .bulkMaxItems, value => value.natural? Text.nat64Greatest
  | .port, value => value.natural? Settings.greatestPort
  | .logFormat, value => value.name?.bind LogFormat.ofName?

/-- The values that a setting may have. -/
def Allows : (setting : Setting) → setting.Value → Prop
  | .databaseUrl, url => "sqlite://".toList <+: (Text.trim url).toList ∨
      "sqlite::".toList <+: (Text.trim url).toList ∨ Text.trim url = ":memory:"
  | .timeoutSecs, n => 1 ≤ n ∧ n ≤ 300
  | .bulkMaxItems, n => 1 ≤ n ∧ n ≤ 1000
  | .maxConnections, n | .port, n | .shutdownSecs, n => 0 < n
  | .bindAddress, address => Text.trim address ≠ ""
  | .dateFormat, pattern => Text.trim pattern ≠ "" ∧ ∀ day : Date, (day.format? pattern).isSome
  | .logLevel, level => Text.lower (Text.trim level) ∈ ["trace", "debug", "info", "warn", "error"]
  | .logFormat, _ => True

/-- What holds of the settings one by one holds of all. -/
theorem forall_iff {P : Setting → Prop} :
    (∀ setting, P setting) ↔ P .databaseUrl ∧ P .maxConnections ∧ P .timeoutSecs ∧ P .bindAddress ∧ P .port ∧
      P .shutdownSecs ∧ P .bulkMaxItems ∧ P .dateFormat ∧ P .logLevel ∧ P .logFormat := by
  constructor
  · exact fun h => ⟨h _, h _, h _, h _, h _, h _, h _, h _, h _, h _⟩
  · rintro ⟨_, _, _, _, _, _, _, _, _, _⟩ setting
    cases setting <;> assumption

end Setting

namespace Settings

/-- The settings with these values. -/
def ofValues (values : (setting : Setting) → setting.Value) : Settings where
  databaseUrl := values .databaseUrl
  maxConnections := values .maxConnections
  timeoutSecs := values .timeoutSecs
  bindAddress := values .bindAddress
  port := values .port
  shutdownSecs := values .shutdownSecs
  bulkMaxItems := values .bulkMaxItems
  dateFormat := values .dateFormat
  logLevel := values .logLevel
  logFormat := values .logFormat

/-- Settings are known by their values. -/
theorem eq_ofValues_iff {values : (setting : Setting) → setting.Value} {s : Settings} :
    s = ofValues values ↔ ∀ setting, setting.value s = values setting := by
  rw [Setting.forall_iff]
  cases s
  simp only [ofValues, Setting.value, Settings.mk.injEq]

/-- Settings built from values have these values. -/
theorem value_ofValues (values : (setting : Setting) → setting.Value) (setting : Setting) :
    setting.value (ofValues values) = values setting :=
  eq_ofValues_iff.1 rfl setting

/-- A text means a log format, or is reported in the form in which names are compared. -/
theorem readLogFormat_cases (text : String) : (∃ format, readLogFormat text = .ok format) ∨
    readLogFormat text = .error (.logFormat (Text.lower (Text.trim text))) := by
  simp only [readLogFormat]
  split
  · next format _ => exact Or.inl ⟨format, rfl⟩
  · exact Or.inr rfl

/-- An address is one of a database exactly when it is one that the setting may have. -/
theorem isDatabaseUrl_iff (url : String) : isDatabaseUrl url = true ↔ Setting.databaseUrl.Allows url := by
  simp only [isDatabaseUrl, startsWith, Bool.or_eq_true, List.isPrefixOf_iff_prefix, beq_iff_eq, or_assoc,
    Setting.Allows]

/-- A pattern passes the two rules for it exactly when it is one that the setting may have. -/
theorem dateFormat_iff (pattern : String) : ¬Text.blank pattern = true ∧ ¬(Date.epoch.format? pattern).isNone = true ↔
    Setting.dateFormat.Allows pattern := by
  have hday : (Date.epoch.format? pattern).isSome ↔ ∀ day : Date, (day.format? pattern).isSome :=
    ⟨fun h day => (Date.format?_isSome_iff _ _ _).1 h, fun h => h _⟩
  simp only [Setting.Allows, ne_eq, Text.trim_eq_empty_iff, ← hday, Bool.not_eq_true, Option.isNone_eq_false_iff]

/-- A rule is kept, and so are all rules after it, when none of them is broken. -/
theorem check_eq_none_iff {broken : Prop} [Decidable broken] {flaw : Flaw} {later : Option Flaw} :
    (if broken then some flaw else later) = none ↔ ¬broken ∧ later = none := by
  by_cases h : broken <;> simp [h]

/-- No rule is broken exactly when every setting has a value that it may have. -/
theorem flaw?_eq_none_iff (s : Settings) :
    s.flaw? = none ↔ ∀ setting : Setting, setting.Allows (setting.value s) := by
  have htimeoutSecs : ¬(s.timeoutSecs = 0 ∨ greatestTimeout < s.timeoutSecs) ↔
      Setting.timeoutSecs.Allows s.timeoutSecs := by
    change _ ↔ 1 ≤ s.timeoutSecs ∧ s.timeoutSecs ≤ greatestTimeout
    omega
  have hbulkMaxItems : ¬(s.bulkMaxItems = 0 ∨ greatestBulk < s.bulkMaxItems) ↔
      Setting.bulkMaxItems.Allows s.bulkMaxItems := by
    change _ ↔ 1 ≤ s.bulkMaxItems ∧ s.bulkMaxItems ≤ greatestBulk
    omega
  have hlogLevel : logLevels.contains (Text.lower (Text.trim s.logLevel)) = true ↔
      Setting.logLevel.Allows s.logLevel := List.contains_iff_mem
  rw [Setting.forall_iff]
  simp only [flaw?, check_eq_none_iff, Setting.value, ← isDatabaseUrl_iff, ← dateFormat_iff, ← htimeoutSecs,
    ← hbulkMaxItems, ← hlogLevel]
  simp only [Setting.Allows, Bool.not_eq_true', Bool.not_eq_false, Nat.pos_iff_ne_zero, ne_eq, and_assoc,
    Text.trim_eq_empty_iff]

end Settings

namespace Patch

/-- The value that a layer gives to a setting. -/
def value? (p : Patch) : (setting : Setting) → Option setting.Value
  | .databaseUrl => p.databaseUrl
  | .maxConnections => p.maxConnections
  | .timeoutSecs => p.timeoutSecs
  | .bindAddress => p.bindAddress
  | .port => p.port
  | .shutdownSecs => p.shutdownSecs
  | .bulkMaxItems => p.bulkMaxItems
  | .dateFormat => p.dateFormat
  | .logLevel => p.logLevel
  | .logFormat => p.logFormat

/-- The layer with these values. -/
def ofValues (values : (setting : Setting) → Option setting.Value) : Patch where
  databaseUrl := values .databaseUrl
  maxConnections := values .maxConnections
  timeoutSecs := values .timeoutSecs
  bindAddress := values .bindAddress
  port := values .port
  shutdownSecs := values .shutdownSecs
  bulkMaxItems := values .bulkMaxItems
  dateFormat := values .dateFormat
  logLevel := values .logLevel
  logFormat := values .logFormat

/-- Layers are known by their values. -/
theorem eq_ofValues_iff {values : (setting : Setting) → Option setting.Value} {p : Patch} :
    p = ofValues values ↔ ∀ setting, p.value? setting = values setting := by
  rw [Setting.forall_iff]
  cases p
  simp only [ofValues, value?, Patch.mk.injEq]

/-- A patch built from values has these values. -/
theorem value?_ofValues (values : (setting : Setting) → Option setting.Value) (setting : Setting) :
    (ofValues values).value? setting = values setting :=
  eq_ofValues_iff.1 rfl setting

/-- Under a layer a setting has the value that the layer gives, or else the one before. -/
theorem value_patched (s : Settings) (p : Patch) (setting : Setting) :
    setting.value (s.patched p) = (p.value? setting).getD (setting.value s) := by
  cases setting <;> rfl

end Patch

namespace Environment

/-- The value that an environment gives to a setting. -/
def value? (environment : Environment) (setting : Setting) : Option setting.Value :=
  (environment.text? setting).bind setting.ofVariable?

/-- The error about the variable of a setting. -/
def error? (environment : Environment) (setting : Setting) : Option SettingsError :=
  (environment.given? setting).bind fun given =>
    (setting.ofVariable? given.2).elim (some (setting.variableError given.1 given.2)) fun _ => none

/-- Every text is a value of a setting that takes texts. -/
theorem error?_eq_none (environment : Environment) {setting : Setting}
    (htext : ∀ text, (setting.ofVariable? text).isSome) : environment.error? setting = none := by
  unfold error?
  cases environment.given? setting with
  | none => rfl
  | some given =>
    obtain ⟨value, hvalue⟩ := Option.isSome_iff_exists.1 (htext given.2)
    rw [Option.bind_some, hvalue, Option.elim_some]

/-- A number is read from the variables of a setting, or its text is the error. -/
theorem number?_eq (environment : Environment) (limit : Nat) (setting : Setting) :
    environment.number? limit setting =
      okUnless
        ((environment.given? setting).bind fun given =>
          (Text.readNat? limit given.2.toList).elim (some (.invalidVariable given.1 given.2)) fun _ => none)
        ((environment.text? setting).bind fun text => Text.readNat? limit text.toList) := by
  unfold number? text?
  cases environment.given? setting with
  | none => rfl
  | some given =>
    simp only [Option.map_some, Option.bind_some]
    cases Text.readNat? limit given.2.toList <;> rfl

/-- The log format is read from its variables, or its text is the error. -/
theorem logFormat?_eq (environment : Environment) :
    environment.logFormat? = okUnless (environment.error? .logFormat) (environment.value? .logFormat) := by
  unfold logFormat? error? value? text?
  cases environment.given? .logFormat with
  | none => rfl
  | some given =>
    simp only [Option.map_some, Option.bind_some, Setting.ofVariable?]
    rcases Settings.readLogFormat_cases given.2 with ⟨format, hread⟩ | hread
    · rw [hread]
      rfl
    · rw [hread]
      rfl

/-- The layer of an environment is what the variables stand for, unless one stands for nothing. -/
theorem patch_eq (environment : Environment) :
    environment.patch = okUnless (Setting.all.findSome? environment.error?) (.ofValues environment.value?) := by
  have hmaxConnections : environment.number? Text.nat32Greatest .maxConnections =
      okUnless (environment.error? .maxConnections) (environment.value? .maxConnections) := environment.number?_eq _ _
  have htimeoutSecs : environment.number? Text.nat64Greatest .timeoutSecs =
      okUnless (environment.error? .timeoutSecs) (environment.value? .timeoutSecs) := environment.number?_eq _ _
  have hport : environment.number? Settings.greatestPort .port =
      okUnless (environment.error? .port) (environment.value? .port) := environment.number?_eq _ _
  have hshutdownSecs : environment.number? Text.nat64Greatest .shutdownSecs =
      okUnless (environment.error? .shutdownSecs) (environment.value? .shutdownSecs) := environment.number?_eq _ _
  have hbulkMaxItems : environment.number? Text.nat64Greatest .bulkMaxItems =
      okUnless (environment.error? .bulkMaxItems) (environment.value? .bulkMaxItems) := environment.number?_eq _ _
  have hpure (p : Patch) : (pure p : Except SettingsError Patch) = okUnless none p := rfl
  rw [patch, hmaxConnections, htimeoutSecs, hport, hshutdownSecs, hbulkMaxItems, logFormat?_eq]
  simp only [hpure, okUnless_bind]
  -- every text is a value, so the other settings have no errors
  congr 1
  · have hdatabaseUrl : environment.error? .databaseUrl = none := environment.error?_eq_none fun _ => rfl
    have hbindAddress : environment.error? .bindAddress = none := environment.error?_eq_none fun _ => rfl
    have hdateFormat : environment.error? .dateFormat = none := environment.error?_eq_none fun _ => rfl
    have hlogLevel : environment.error? .logLevel = none := environment.error?_eq_none fun _ => rfl
    simp only [Setting.all, findSome?_cons_eq_or, List.findSome?_nil, hdatabaseUrl, hbindAddress, hdateFormat,
      hlogLevel, Option.none_or]
  · rw [Patch.eq_ofValues_iff]
    intro setting
    cases setting with
    | databaseUrl | bindAddress | dateFormat | logLevel => exact (Option.bind_fun_some _).symm
    | _ => rfl

end Environment

namespace Patch

/-- The value that stands in a file for a setting. -/
def inFile? (file : Toml) (setting : Setting) : Option setting.Value :=
  (fileValue? file setting.ofToml? setting).join

/-- Every value in a file fits its setting. -/
def Fits (file : Toml) : Prop := ∀ setting ∈ Setting.all, (fileValue? file setting.ofToml? setting).isSome

instance (file : Toml) : Decidable (Fits file) := inferInstanceAs (Decidable (∀ _ ∈ _, _))

variable {file : Toml}

/-- A file gives a layer when it gives all of its values. -/
theorem ofToml?_eq_some_iff {p : Patch} :
    ofToml? file = some p ↔
      ∀ setting : Setting, fileValue? file setting.ofToml? setting = some (p.value? setting) := by
  simp only [ofToml?, Option.bind_eq_bind, Option.bind_eq_some_iff, Option.pure_def, Option.some.injEq]
  constructor
  · rintro ⟨_, hdatabaseUrl, _, hmaxConnections, _, htimeoutSecs, _, hbindAddress, _, hport, _, hshutdownSecs, _,
      hbulkMaxItems, _, hdateFormat, _, hlogLevel, _, hlogFormat, rfl⟩
    exact Setting.forall_iff.2 ⟨hdatabaseUrl, hmaxConnections, htimeoutSecs, hbindAddress, hport, hshutdownSecs,
      hbulkMaxItems, hdateFormat, hlogLevel, hlogFormat⟩
  · intro h
    exact ⟨_, h .databaseUrl, _, h .maxConnections, _, h .timeoutSecs, _, h .bindAddress, _, h .port, _,
      h .shutdownSecs, _, h .bulkMaxItems, _, h .dateFormat, _, h .logLevel, _, h .logFormat, rfl⟩

/-- The layer of a file is what stands in it, if all of it fits. -/
theorem ofToml?_eq (file : Toml) : ofToml? file = if Fits file then some (.ofValues (inFile? file)) else none := by
  split
  · next hfits =>
    refine ofToml?_eq_some_iff.2 fun setting => ?_
    obtain ⟨value?, hvalue⟩ := Option.isSome_iff_exists.1 (hfits setting setting.mem_all)
    rw [value?_ofValues, inFile?, hvalue, Option.join_some]
  · next hfits =>
    rw [Option.eq_none_iff_forall_ne_some]
    intro p hp
    refine hfits fun setting _ => ?_
    rw [ofToml?_eq_some_iff.1 hp setting, Option.isSome_some]

end Patch

end SignOff
