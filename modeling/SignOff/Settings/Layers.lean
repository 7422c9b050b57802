import SignOff.Settings.Interpolation
import SignOff.Settings.Patch
import SignOff.Settings.Setting
import SignOff.Toml.Reader

/-!
# Settings from the environment and from files

Each of the two gives a layer. In the environment a variable of white space only counts as not set,
and every other value is taken as it is. In a file the values have to be of their setting's kind:
whole numbers within its range, texts, and the exact name of a log format. What a file says beyond
the settings does not matter.
-/

namespace SignOff

/-- The greatest port number. -/
def Settings.greatestPort : Nat := 65535

namespace Environment

/-- The first of a setting's variables that is set to more than white space, with its value. -/
def given? (environment : Environment) (setting : Setting) : Option (String × String) :=
  setting.variableNames.findSome? fun name =>
    ((environment.lookup name).filter fun value => !Text.blank value).map fun value => (name, value)

/-- The text that a setting gets. -/
def text? (environment : Environment) (setting : Setting) : Option String :=
  (environment.given? setting).map Prod.snd

/-- The number up to `limit` that a setting gets. -/
def number? (environment : Environment) (limit : Nat) (setting : Setting) :
    Except SettingsError (Option Nat) :=
  match environment.given? setting with
  | none => .ok none
  | some (name, value) =>
    match Text.readNat? limit value.toList with
    | some n => .ok (some n)
    | none => .error (.invalidVariable name value)

/-- The log format that the environment sets. -/
def logFormat? (environment : Environment) : Except SettingsError (Option LogFormat) :=
  match environment.text? .logFormat with
  | none => .ok none
  | some name =>
    match Settings.readLogFormat name with
    | .ok format => .ok (some format)
    | .error flaw => .error (.invalid flaw)

/-- The layer of the environment. The first variable that makes no sense is the error. -/
def patch (environment : Environment) : Except SettingsError Patch := do
  let maxConnections ← environment.number? Text.nat32Greatest .maxConnections
  let timeoutSecs ← environment.number? Text.nat64Greatest .timeoutSecs
  let port ← environment.number? Settings.greatestPort .port
  let shutdownSecs ← environment.number? Text.nat64Greatest .shutdownSecs
  let bulkMaxItems ← environment.number? Text.nat64Greatest .bulkMaxItems
  let logFormat ← environment.logFormat?
  return {
    databaseUrl := environment.text? .databaseUrl
    maxConnections := maxConnections
    timeoutSecs := timeoutSecs
    bindAddress := environment.text? .bindAddress
    port := port
    shutdownSecs := shutdownSecs
    bulkMaxItems := bulkMaxItems
    dateFormat := environment.text? .dateFormat
    logLevel := environment.text? .logLevel
    logFormat := logFormat }

end Environment

namespace Patch

/-- The value that a file gives to a setting, if `read` makes sense of it. -/
def fileValue? {α : Type} (file : Toml) (read : Toml → Option α) (setting : Setting) :
    Option (Option α) :=
  match file.find? [setting.group] with
  | none => some none
  | some group =>
    match group.field? (Setting.keysOf setting.group) setting.key with
    | none => none
    | some none => some none
    | some (some value) => (read value).map some

/-- The layer of a file, if all its settings make sense. -/
def ofToml? (file : Toml) : Option Patch := do
  let number (limit : Nat) := fileValue? file (Toml.natural? limit)
  let text := fileValue? file Toml.text?
  return {
    databaseUrl := ← text .databaseUrl
    maxConnections := ← number Text.nat32Greatest .maxConnections
    timeoutSecs := ← number Text.nat64Greatest .timeoutSecs
    bindAddress := ← text .bindAddress
    port := ← number Settings.greatestPort .port
    shutdownSecs := ← number Text.nat64Greatest .shutdownSecs
    bulkMaxItems := ← number Text.nat64Greatest .bulkMaxItems
    dateFormat := ← text .dateFormat
    logLevel := ← text .logLevel
    logFormat := ← fileValue? file (fun value => value.name?.bind LogFormat.ofName?) .logFormat }

/-- The layer of the file at `path` with the text `raw`: variables are put in before it is read. -/
def ofText (environment : Environment) (path raw : String) : Except SettingsError Patch := do
  let text := String.ofList (← Interpolation.expand environment raw.toList)
  match Toml.read? text with
  | none => .error (.invalidFile path "no TOML text")
  | some file =>
    match ofToml? file with
    | some patch => .ok patch
    | none => .error (.invalidFile path "a value does not fit its setting")

end Patch

end SignOff
