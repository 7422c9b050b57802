import SignOff.Database.Connection
import SignOff.Http.Answer
import SignOff.Settings.Load

/-!
# Starting the server

The server loads its settings, connects to its database and brings that up to date, and takes requests
only when all of this has gone well.
-/

namespace SignOff.Http

/-- Why the server does not start. -/
inductive StartFault where
  | settings (error : SettingsError)
  | connection (fault : Database.Fault)
  | migration (fault : Database.Fault)

/-- The wording of a fault at the start. -/
def StartFault.message : StartFault → String
  | .settings error => error.message
  | .connection fault => "database connection failed: " ++ fault.message
  | .migration fault => "database migration failed: while executing migrations: " ++ fault.message

/-- A server that takes requests. -/
structure Server where
  settings : Settings
  ledger : Ledger

namespace Server

/-- What the service of a server goes by. -/
def policy (server : Server) : Policy := ⟨server.settings.bulkMaxItems, server.settings.dateFormat⟩

/-- The server once it has started, and the files after that. Its ledger is empty, for all that a
database file says is which migrations have been carried out. -/
def start (site : Site) (options : LoadOptions) : Except StartFault (Server × Files) := do
  let settings ← (Settings.load site options).mapError .settings
  let (connection, files) ←
    (Database.Connection.open? site.files settings.databaseUrl).mapError .connection
  let files ← (connection.migrate files).mapError .migration
  return (⟨settings, .empty⟩, files)

end Server

end SignOff.Http
