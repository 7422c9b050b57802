import SignOff.Database.Connection
import SignOff.Json.Writer
import SignOff.Settings.Load

/-!
# Replies to an operator

A command prints a text and ends with a number that tells how it went: zero, or the first thing that
went wrong. A command that changes something prints a JSON object of four members.
-/

namespace SignOff.Operator

/-- What a command prints and the number it ends with. -/
structure Reply where
  exitCode : Nat
  output : String
deriving DecidableEq, Repr

/-- What can go wrong, from the settings on. -/
inductive Failure where
  | settings
  | connection
  | migration
deriving DecidableEq, Repr

/-- The number that a failed command ends with. -/
def Failure.exitCode : Failure → Nat
  | .settings => 2
  | .connection => 4
  | .migration => 5

/-- The name of what went wrong in replies. -/
def Failure.name : Failure → String
  | .settings => "config_validation"
  | .connection => "db_connectivity"
  | .migration => "migration"

namespace Reply

/-- The object that tells how a command went. -/
def payload (command status : String) (failure : Option Failure) (message : String) : String :=
  (Json.object [("command", .string command), ("status", .string status),
    ("error_class", Json.ofText? (failure.map Failure.name)), ("message", .string message)]).write

/-- The reply of a command that went well. -/
def success (command message : String) : Reply := ⟨0, payload command "ok" none message⟩

/-- The reply of a command that failed. -/
def failed (command : String) (failure : Failure) (message : String) : Reply :=
  ⟨failure.exitCode, payload command "error" (some failure) message⟩

end Reply

end SignOff.Operator
