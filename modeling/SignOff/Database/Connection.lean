import SignOff.Database.Address
import SignOff.Files

/-!
# Connecting to a database

A database file is empty or says which migrations have been carried out. Connecting makes the file
where there is none, as long as its directory is there. A database in memory starts empty and is
gone with its connection.
-/

namespace SignOff.Database

/-- Why a database cannot be used. -/
inductive Fault where
  | configuration (reason : String)
  | cannotOpen
  | notDatabase
  | readOnly
deriving DecidableEq, Repr

/-- The wording of a fault. -/
def Fault.message : Fault → String
  | .configuration reason => "error with configuration: " ++ reason
  | .cannotOpen => "error returned from database: (code: 14) unable to open database file"
  | .notDatabase => "error returned from database: (code: 26) file is not a database"
  | .readOnly => "error returned from database: (code: 8) attempt to write a readonly database"

/-- The numbers of the migrations that lead to the tables in use. -/
def migrations : List Nat := [1]

/-- The contents of a database file after all migrations. -/
def migratedFile : ByteArray :=
  ("sign-off ledger\n" ++ String.join (migrations.map fun n => Text.decimal n ++ "\n")).toUTF8

/-- The migrations that a database file says have been carried out. -/
def applied? (bytes : ByteArray) : Option (List Nat) :=
  if bytes.size = 0 then some []
  else if bytes == migratedFile then some migrations
  else none

/-- A database in use. -/
structure Connection where
  /-- The place of its file, or nothing in memory. -/
  place : Option (List String)
  applied : List Nat
  readOnly : Bool
deriving DecidableEq, Repr

namespace Connection

/-- Connects to the database in the file at a place. -/
def toFile (files : Files) (place : List String) (readOnly : Bool) : Except Fault (Connection × Files) :=
  match files.at? place with
  | some .directory => .error .cannotOpen
  | some (.file bytes) =>
    match applied? bytes with
    | some applied => .ok (⟨some place, applied, readOnly⟩, files)
    | none => .error .notDatabase
  | none =>
    if readOnly then .error .cannotOpen
    else .ok (⟨some place, [], readOnly⟩, files.put place (.file .empty))

/-- Connects to the database that a URL names. -/
def open? (files : Files) (url : String) : Except Fault (Connection × Files) :=
  match Address.ofUrl url with
  | .error reason => .error (.configuration reason)
  | .ok ⟨none, readOnly⟩ => .ok (⟨none, [], readOnly⟩, files)
  | .ok ⟨some file, readOnly⟩ =>
    match files.place? file with
    | none => .error .cannotOpen
    | some place => toFile files place readOnly

/-- The migrations that are still to be carried out. -/
def pending (c : Connection) : List Nat := migrations.filter fun n => !c.applied.contains n

/-- The files after all migrations have been carried out. -/
def migrate (c : Connection) (files : Files) : Except Fault Files :=
  if c.pending.isEmpty then .ok files
  else
    match c.place with
    | none => .ok files
    | some place =>
      if c.readOnly then .error .readOnly else .ok (files.put place (.file migratedFile))

end Connection

end SignOff.Database
