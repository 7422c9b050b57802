import SignOff.Operator.Reply

/-!
# Checking readiness

Three checks, each of which needs the one before it: the settings load, the database can be reached,
and no migration is pending. The command ends with the number of the first check that fails.
-/

namespace SignOff.Operator

/-- How a check went. -/
inductive CheckStatus where
  | passed
  | failed
  | skipped
deriving DecidableEq, Repr

/-- The name of a status in the JSON report. -/
def CheckStatus.name : CheckStatus → String
  | .passed => "pass"
  | .failed => "fail"
  | .skipped => "skipped"

/-- The mark of a status in the plain report. -/
def CheckStatus.mark : CheckStatus → String
  | .passed => "ok"
  | .failed => "fail"
  | .skipped => "skip"

/-- What is checked. -/
inductive Subject where
  | settings
  | connection
  | migrations
deriving DecidableEq, Repr

/-- The name of a subject in reports. -/
def Subject.name : Subject → String
  | .settings => "config_validation"
  | .connection => "database_connectivity"
  | .migrations => "schema_migrations"

/-- What it means that the check of a subject fails. -/
def Subject.failure : Subject → Failure
  | .settings => .settings
  | .connection => .connection
  | .migrations => .migration

/-- A check with its result. -/
structure Check where
  subject : Subject
  status : CheckStatus
  details : String
deriving DecidableEq, Repr

/-- Whole numbers in brackets. -/
def bracketed (ns : List Nat) : String := "[" ++ ", ".intercalate (ns.map Text.decimal) ++ "]"

/-- The checks that need the database, and the files after connecting to it. -/
def databaseChecks (files : Files) (url : String) : List Check × Files :=
  match Database.Connection.open? files url with
  | .error fault =>
    ([⟨.connection, .failed, "failed to connect to database: " ++ fault.message⟩,
      ⟨.migrations, .skipped, "skipped because the database is unreachable"⟩], files)
  | .ok (connection, files) =>
    let schema : Check :=
      if connection.pending.isEmpty then ⟨.migrations, .passed, "schema is up to date"⟩
      else ⟨.migrations, .failed,
        "pending migrations " ++ bracketed connection.pending ++ "; run `itgov migrate`"⟩
    ([⟨.connection, .passed, "connected using `" ++ url ++ "`"⟩, schema], files)

/-- All checks, and the files after them. -/
def checks (site : Site) (options : LoadOptions) : List Check × Files :=
  match Settings.load site options with
  | .error e =>
    let reason := "skipped because configuration did not load"
    ([⟨.settings, .failed, e.message⟩, ⟨.connection, .skipped, reason⟩, ⟨.migrations, .skipped, reason⟩],
      site.files)
  | .ok settings =>
    let loaded := "configuration loaded; bulk decisions capped at " ++
      Text.decimal settings.bulkMaxItems ++ " items"
    let (rest, files) := databaseChecks site.files settings.databaseUrl
    (⟨.settings, .passed, loaded⟩ :: rest, files)

/-- All checks have passed. -/
def allPassed (checks : List Check) : Bool := checks.all fun c => c.status = .passed

/-- The sentence that sums up the checks. -/
def summaryOf (checks : List Check) : String :=
  if allPassed checks then "doctor: all readiness checks passed"
  else "doctor: one or more readiness checks failed"

/-- The number of the first check that has failed. -/
def exitCodeOf (checks : List Check) : Nat :=
  match checks.find? fun c => c.status = .failed with
  | some check => check.subject.failure.exitCode
  | none => 0

/-- The report as lines of text. -/
def plainReport (checks : List Check) : String :=
  "\n".intercalate (summaryOf checks :: checks.map fun c =>
    "- [" ++ c.status.mark ++ "] " ++ c.subject.name ++ ": " ++ c.details)

/-- The report as a JSON text. -/
def jsonReport (checks : List Check) : String :=
  let overall : CheckStatus := if allPassed checks then .passed else .failed
  (Json.object [("overall_status", .string overall.name), ("summary", .string (summaryOf checks)),
    ("checks", .array (checks.map fun c => Json.object [("name", .string c.subject.name),
      ("status", .string c.status.name), ("details", .string c.details)]))]).writeIndented

/-- The command that checks readiness; the files are those after it. -/
def doctor (site : Site) (options : LoadOptions) (asJson : Bool) : Reply × Files :=
  let (results, files) := checks site options
  (⟨exitCodeOf results, if asJson then jsonReport results else plainReport results⟩, files)

end SignOff.Operator
