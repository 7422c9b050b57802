import SignOff.Operator.Reply

/-!
# Migrating the database

Brings the tables of the database up to date and tells how many migrations that took.
-/

namespace SignOff.Operator

/-- Connects to the database and carries out what is pending; gives the number of migrations. -/
def migrateDatabase (files : Files) (url : String) : Except (Failure × String) Nat × Files :=
  match Database.Connection.open? files url with
  | .error fault => (.error (.connection, fault.message), files)
  | .ok (connection, files) =>
    match connection.migrate files with
    | .error fault => (.error (.migration, "while executing migrations: " ++ fault.message), files)
    | .ok migrated => (.ok connection.pending.length, migrated)

/-- The command that migrates the database; the files are those after it. -/
def migrate (site : Site) (options : LoadOptions) : Reply × Files :=
  match Settings.load site options with
  | .error e => (.failed "migrate" .settings ("configuration issue: " ++ e.message), site.files)
  | .ok settings =>
    match migrateDatabase site.files settings.databaseUrl with
    | (.error (failure, message), files) => (.failed "migrate" failure message, files)
    | (.ok count, files) =>
      (.success "migrate" ("applied " ++ Text.decimal count ++ " pending migration(s)"), files)

end SignOff.Operator
