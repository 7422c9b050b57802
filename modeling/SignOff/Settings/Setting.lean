import SignOff.Settings.Basic
import SignOff.Text.Numeral

/-!
# The single settings

Every setting has a place in the settings file, a section and a key, and one or more environment
variables, of which the first one set to more than white space counts.
-/

namespace SignOff

/-- The settings by name. -/
inductive Setting where
  | databaseUrl
  | maxConnections
  | timeoutSecs
  | bindAddress
  | port
  | shutdownSecs
  | bulkMaxItems
  | dateFormat
  | logLevel
  | logFormat
deriving DecidableEq, Repr

namespace Setting

/-- All settings in the order in which they are read and shown. -/
def all : List Setting :=
  [.databaseUrl, .maxConnections, .timeoutSecs, .bindAddress, .port, .shutdownSecs, .bulkMaxItems,
    .dateFormat, .logLevel, .logFormat]

/-- Every setting is among them. -/
theorem mem_all (s : Setting) : s ∈ all := by cases s <;> decide

/-- The section of the settings file. -/
def group : Setting → String
  | .databaseUrl => "database"
  | .maxConnections => "database"
  | .timeoutSecs => "database"
  | .bindAddress => "server"
  | .port => "server"
  | .shutdownSecs => "server"
  | .bulkMaxItems => "workflow"
  | .dateFormat => "workflow"
  | .logLevel => "logging"
  | .logFormat => "logging"

/-- The key within the section. -/
def key : Setting → String
  | .databaseUrl => "url"
  | .maxConnections => "max_connections"
  | .timeoutSecs => "timeout_secs"
  | .bindAddress => "bind_address"
  | .port => "port"
  | .shutdownSecs => "graceful_shutdown_secs"
  | .bulkMaxItems => "bulk_max_items"
  | .dateFormat => "document_date_format"
  | .logLevel => "level"
  | .logFormat => "format"

/-- The keys of a section in order. -/
def keysOf (group : String) : List String := (all.filter fun s => s.group = group).map key

/-- The environment variables, the one that counts most first. -/
def variableNames : Setting → List String
  | .databaseUrl => ["ITGOV_DATABASE_URL"]
  | .maxConnections => ["ITGOV_DATABASE_MAX_CONNECTIONS"]
  | .timeoutSecs => ["ITGOV_DATABASE_TIMEOUT_SECS"]
  | .bindAddress => ["ITGOV_SERVER_BIND_ADDRESS"]
  | .port => ["ITGOV_SERVER_PORT"]
  | .shutdownSecs => ["ITGOV_SERVER_GRACEFUL_SHUTDOWN_SECS"]
  | .bulkMaxItems => ["ITGOV_WORKFLOW_BULK_MAX_ITEMS"]
  | .dateFormat => ["ITGOV_WORKFLOW_DOCUMENT_DATE_FORMAT"]
  | .logLevel => ["ITGOV_LOGGING_LEVEL", "ITGOV_LOG_LEVEL"]
  | .logFormat => ["ITGOV_LOGGING_FORMAT", "ITGOV_LOG_FORMAT"]

/-- The value of a setting as it is shown. -/
def shown (settings : Settings) : Setting → String
  | .databaseUrl => settings.databaseUrl
  | .maxConnections => Text.decimal settings.maxConnections
  | .timeoutSecs => Text.decimal settings.timeoutSecs
  | .bindAddress => settings.bindAddress
  | .port => Text.decimal settings.port
  | .shutdownSecs => Text.decimal settings.shutdownSecs
  | .bulkMaxItems => Text.decimal settings.bulkMaxItems
  | .dateFormat => settings.dateFormat
  | .logLevel => settings.logLevel
  | .logFormat => settings.logFormat.name

end Setting

end SignOff
