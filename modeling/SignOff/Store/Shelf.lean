import SignOff.Entries
import SignOff.Store.UnitStore

/-!
# A store of chains in memory

Chains are kept whole under the id of their application. A unit sets its writes aside and remembers
the version at which it first met each chain. A commit fails when a chain that the unit has written
is no longer at that version, and otherwise replaces the chains that the unit has written.
-/

namespace SignOff

/-- Chains by the id of their application. -/
structure Shelf where
  chains : List (String × Chain)
deriving DecidableEq

/-- A unit of work on a shelf. -/
structure Shelf.Session where
  /-- The chains that the unit has written. -/
  staged : List (String × Chain)
  /-- The version at which the unit first met an application. -/
  bases : List (String × Int)
deriving DecidableEq

namespace Shelf

/-- A shelf without chains. -/
def empty : Shelf := ⟨[]⟩

/-- The chain of an application. -/
def get? (shelf : Shelf) (id : String) : Option Chain := shelf.chains.lookup id

/-- The shelf with a chain in place of what was there for its application. -/
def insert (shelf : Shelf) (chain : Chain) : Shelf :=
  ⟨Entries.put chain.application.id chain shelf.chains⟩

/-- The chain as the unit sees it; meeting it for the first time fixes its base version. -/
def load (shelf : Shelf) (unit : Session) (id : String) : Option Chain × Session :=
  match unit.staged.lookup id with
  | some chain => (some chain, unit)
  | none =>
    match shelf.get? id with
    | none => (none, unit)
    | some chain =>
      (some chain, { unit with bases := Entries.putNew id chain.application.version unit.bases })

/-- The version that the unit sees. -/
def version? (shelf : Shelf) (unit : Session) (id : String) : Option Int :=
  ((unit.staged.lookup id).or (shelf.get? id)).map fun chain => chain.application.version

/-- Sets a record aside, if it was made on the version that the unit sees. -/
def store (shelf : Shelf) (unit : Session) (record : Record) : Except Refusal Unit × Session :=
  let id := record.chain.application.id
  if version? shelf unit id = some record.expectedVersion then
    (.ok (),
      { staged := Entries.put id record.chain unit.staged
        bases := Entries.putNew id record.expectedVersion unit.bases })
  else (.error (.concurrentModification id), unit)

/-- The first application that the unit has written and somebody else has moved on. -/
def conflict? (shelf : Shelf) (unit : Session) : Option String :=
  (unit.bases.find? fun (id, base) =>
    (unit.staged.lookup id).isSome &&
      (shelf.get? id).map (fun chain => chain.application.version) != some base).map Prod.fst

/-- Replaces the chains that the unit has written, unless there is a conflict. -/
def commit (shelf : Shelf) (unit : Session) : Except Refusal Unit × Shelf :=
  match conflict? shelf unit with
  | some id => (.error (.concurrentModification id), shelf)
  | none => (.ok (), ⟨Entries.putAll unit.staged shelf.chains⟩)

instance : UnitStore Shelf Session where
  openUnit _ := .ok ⟨[], []⟩
  load shelf unit id :=
    let (chain, unit) := load shelf unit id
    (.ok chain, unit)
  store := store
  commit := commit

/-- A chain just inserted is found. -/
theorem get?_insert_self (shelf : Shelf) (chain : Chain) :
    (shelf.insert chain).get? chain.application.id = some chain :=
  Entries.lookup_put_self _ _ _

/-- Inserting a chain leaves the others as they are. -/
theorem get?_insert_of_ne (shelf : Shelf) (chain : Chain) {id : String}
    (h : id ≠ chain.application.id) : (shelf.insert chain).get? id = shelf.get? id :=
  Entries.lookup_put_of_ne h _ _

end Shelf

end SignOff
