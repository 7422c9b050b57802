import SignOff.Document

/-!
# Settings

The ten settings of the service with their defaults, and the rules that a complete set of them has to
keep. The rules are checked in a fixed order and the first one broken is reported. A date pattern is
tried on one day only: whether it can be rendered does not depend on the day.
-/

namespace SignOff

/-- The form of log lines. -/
inductive LogFormat where
  | compact
  | pretty
  | json
deriving DecidableEq, Repr

/-- The name of a log format. -/
def LogFormat.name : LogFormat → String
  | .compact => "compact"
  | .pretty => "pretty"
  | .json => "json"

/-- The log format with this very name. -/
def LogFormat.ofName? (s : String) : Option LogFormat :=
  if s = "compact" then some .compact
  else if s = "pretty" then some .pretty
  else if s = "json" then some .json
  else none

theorem LogFormat.ofName?_name (f : LogFormat) : ofName? f.name = some f := by cases f <;> rfl

/-- A complete set of settings. -/
structure Settings where
  databaseUrl : String
  maxConnections : Nat
  timeoutSecs : Nat
  bindAddress : String
  port : Nat
  shutdownSecs : Nat
  bulkMaxItems : Nat
  dateFormat : String
  logLevel : String
  logFormat : LogFormat
deriving DecidableEq, Repr

namespace Settings

/-- The settings that hold where nothing else is said. -/
def default : Settings :=
  { databaseUrl := "sqlite://itgov.db"
    maxConnections := 5
    timeoutSecs := 30
    bindAddress := "127.0.0.1"
    port := 8080
    shutdownSecs := 15
    bulkMaxItems := 200
    dateFormat := Document.defaultPattern
    logLevel := "info"
    logFormat := .compact }

/-- The greatest time-out in seconds. -/
def greatestTimeout : Nat := 300

/-- The greatest number of items that a batch may be allowed to have. -/
def greatestBulk : Nat := 1000

/-- A broken rule. -/
inductive Flaw where
  | databaseUrl
  | maxConnections
  | timeoutSecs
  | bindAddress
  | port
  | shutdownSecs
  | bulkMaxItems
  | blankDateFormat
  | unusableDateFormat (pattern : String)
  | logLevel
  | logFormat (name : String)
deriving DecidableEq, Repr

/-- The wording of a broken rule. -/
def Flaw.message : Flaw → String
  | .databaseUrl =>
    "database.url must be a sqlite URL (`sqlite://...`, `sqlite::...`, or `:memory:`)"
  | .maxConnections => "database.max_connections must be greater than zero"
  | .timeoutSecs => "database.timeout_secs must be in range 1..=300"
  | .bindAddress => "server.bind_address must not be empty"
  | .port => "server.port must be greater than zero"
  | .shutdownSecs => "server.graceful_shutdown_secs must be greater than zero"
  | .bulkMaxItems => "workflow.bulk_max_items must be in range 1..=1000"
  | .blankDateFormat => "workflow.document_date_format must not be empty"
  | .unusableDateFormat pattern =>
    "workflow.document_date_format `" ++ pattern ++ "` must use date-only strftime specifiers"
  | .logLevel => "logging.level must be one of trace|debug|info|warn|error"
  | .logFormat name =>
    "unsupported log format `" ++ name ++ "` (expected compact|pretty|json)"

/-- The log format that a name means; white space around it and letter case do not matter. -/
def readLogFormat (s : String) : Except Flaw LogFormat :=
  let name := Text.lower (Text.trim s)
  match LogFormat.ofName? name with
  | some format => .ok format
  | none => .error (.logFormat name)

/-- The text starts with another one. -/
def startsWith (start s : String) : Bool := start.toList.isPrefixOf s.toList

/-- The address of a database in a file or in memory. -/
def isDatabaseUrl (url : String) : Bool :=
  let url := Text.trim url
  startsWith "sqlite://" url || startsWith "sqlite::" url || url == ":memory:"

/-- The names of the log levels. -/
def logLevels : List String := ["trace", "debug", "info", "warn", "error"]

/-- The first rule that the settings break. -/
def flaw? (s : Settings) : Option Flaw :=
  if !isDatabaseUrl s.databaseUrl then some .databaseUrl
  else if s.maxConnections = 0 then some .maxConnections
  else if s.timeoutSecs = 0 ∨ greatestTimeout < s.timeoutSecs then some .timeoutSecs
  else if Text.blank s.bindAddress then some .bindAddress
  else if s.port = 0 then some .port
  else if s.shutdownSecs = 0 then some .shutdownSecs
  else if s.bulkMaxItems = 0 ∨ greatestBulk < s.bulkMaxItems then some .bulkMaxItems
  else if Text.blank s.dateFormat then some .blankDateFormat
  else if (Date.epoch.format? s.dateFormat).isNone then some (.unusableDateFormat s.dateFormat)
  else if !logLevels.contains (Text.lower (Text.trim s.logLevel)) then some .logLevel
  else none

end Settings

/-- Why settings cannot be loaded. -/
inductive SettingsError where
  | unreadableFile (path reason : String)
  | invalidFile (path reason : String)
  | missingFile (path : String)
  | missingVariable (name : String)
  | openInterpolation
  | invalidVariable (name value : String)
  | invalid (flaw : Settings.Flaw)
deriving DecidableEq, Repr

/-- The wording of a load error. -/
def SettingsError.message : SettingsError → String
  | .unreadableFile path reason => "could not read config file `" ++ path ++ "`: " ++ reason
  | .invalidFile path reason => "could not parse config file `" ++ path ++ "`: " ++ reason
  | .missingFile path => "required config file was not found: `" ++ path ++ "`"
  | .missingVariable name => "environment variable interpolation failed for `" ++ name ++ "`"
  | .openInterpolation => "unterminated environment interpolation expression"
  | .invalidVariable name value =>
    "invalid environment override for `" ++ name ++ "`: `" ++ value ++ "`"
  | .invalid flaw => "configuration validation failed: " ++ flaw.message

/-- Settings that keep all rules. -/
def Settings.validate (s : Settings) : Except SettingsError Settings :=
  match s.flaw? with
  | some flaw => .error (.invalid flaw)
  | none => .ok s

end SignOff
