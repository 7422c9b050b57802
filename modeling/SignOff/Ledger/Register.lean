import SignOff.Ledger.Tables
import SignOff.Store.UnitStore

/-!
# The ledger

The ledger takes submissions, answers questions about applications and lets decisions be made in
units of work. A unit works on a copy of the tables, which a commit puts in their place, so a unit
with an outdated copy is not to be committed. A ledger that has been closed refuses whatever needs
its tables.
-/

namespace SignOff

/-- Tables that can be closed. -/
structure Ledger where
  tables : Ledger.Tables
  isOpen : Bool
deriving DecidableEq

namespace Ledger

/-- An open ledger without rows. -/
def empty : Ledger := ⟨Tables.empty, true⟩

/-- The ledger, closed. -/
def close (ledger : Ledger) : Ledger := { ledger with isOpen := false }

/-- What the library that holds the tables says once they are closed. -/
def closedReason : String := "attempted to acquire a connection on a closed pool"

/-- The refusal of everything that needs the tables of a closed ledger. -/
def closedRefusal : Refusal := .persistence ("database error: " ++ closedReason)

/-- The refusal on account of an unreadable row. -/
def Fault.refusal (fault : Fault) : Refusal := .persistence ("decode error: " ++ fault.message)

/-- A reading of the tables as an answer to a caller. -/
def answer {α : Type} : Except Fault α → Except Refusal α
  | .ok a => .ok a
  | .error fault => .error fault.refusal

/-- The tables of an open ledger. -/
def openTables (ledger : Ledger) : Except Refusal Tables :=
  if ledger.isOpen then .ok ledger.tables else .error closedRefusal

instance : UnitStore Ledger Tables where
  openUnit := openTables
  load _ unit id := (answer (unit.chain? id), unit)
  store _ unit record := unit.store record
  commit ledger unit := (.ok (), { ledger with tables := unit })

/-- The refusal of a row that breaks a rule of the tables. -/
def constraintRefusal (code : Nat) (rule : String) : Refusal :=
  .persistence ("database error: error returned from database: (code: " ++ Text.decimal code ++ ") " ++
    rule)

/-- Takes a submission as the application `id`, which has to be new.

Steps are numbered in 32 bits, so the numbers of a submission with too many approvers come round to
zero, which no row takes. -/
def submit (ledger : Ledger) (id : String) (s : Submission) (today : Date) :
    Except Refusal Unit × Ledger :=
  match s.validate, ledger.openTables with
  | .error refusal, _ => (.error refusal, ledger)
  | .ok (), .error refusal => (.error refusal, ledger)
  | .ok (), .ok tables =>
    if (tables.header? id).isSome then
      (.error (constraintRefusal 1555 "UNIQUE constraint failed: application.id"), ledger)
    else if (s.steps id).any fun step => step.sequence = 0 then
      (.error (constraintRefusal 275 "CHECK constraint failed: sequence >= 1"), ledger)
    else (.ok (), { ledger with tables := tables.submit id s today })

/-- The chain of an application. -/
def view (ledger : Ledger) (id : String) : Except Refusal (Option Chain) := do
  answer ((← ledger.openTables).chain? id)

/-- The chains of the applications that there are, in the order of their ids. -/
def views (ledger : Ledger) : List String → Except Refusal (List Chain)
  | [] => .ok []
  | id :: rest => do
    let chain ← ledger.view id
    return chain.toList ++ (← views ledger rest)

/-- The latest application for a record, with its link. -/
def latest (ledger : Ledger) (origin : Origin) : Except Refusal (Option (OriginLink × Application)) := do
  match ((← ledger.openTables).linked origin).getLast? with
  | none => return none
  | some (link, header) => return some (link.link, ← answer header.application)

/-- Some application for a record is pending or approved. -/
def isActive (ledger : Ledger) (origin : Origin) : Except Refusal Bool := do
  return ((← ledger.openTables).linked origin).any fun (_, header) => header.status ≠ .rejected

end Ledger

end SignOff
