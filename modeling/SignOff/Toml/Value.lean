import SignOff.Entries

/-!
# TOML values

What a settings file holds. Tables remember how they came about, because that decides whether a
later line of the file may add to them. The size of a number that is not whole and the moment that a
date stands for are not kept: no setting asks for them.
-/

namespace SignOff

/-- How a table came about. -/
inductive TableKind where
  /-- By a header of its own. -/
  | header
  /-- As a part of a header for a table below it. -/
  | passage
  /-- As a part of a dotted key. -/
  | dotted
  /-- Between braces. -/
  | braced
deriving DecidableEq, Repr

/-- A value of a settings file. -/
inductive Toml where
  | text (s : String)
  | whole (n : Int)
  | real
  | flag (b : Bool)
  | moment
  | array (items : List Toml)
  | table (kind : TableKind) (members : List (String × Toml))
  /-- The tables under a repeated header, the last one first. -/
  | tables (latestFirst : List (List (String × Toml)))

namespace Toml

/-- The members of a table, in the order of their keys' first appearance. -/
abbrev Members := List (String × Toml)

/-- The value at the end of a path of keys through tables. -/
def find? : List String → Toml → Option Toml
  | [], value => some value
  | key :: path, .table _ members =>
    match members.lookup key with
    | some value => find? path value
    | none => none
  | _ :: _, _ => none

/-- A field of a record with the fields `names`, from a value in the place of the record.

A table gives its fields by name. An array gives all of them by position, and what it has beyond
them does not matter. A date stands for a record without fields. -/
def field? (names : List String) (name : String) : Toml → Option (Option Toml)
  | .table _ members => some (members.lookup name)
  | .array items => if names.length ≤ items.length then some items[names.idxOf name]? else none
  | .tables items =>
    if names.length ≤ items.length then
      some (items.reverse[names.idxOf name]?.map (Toml.table .header))
    else none
  | .moment => some none
  | _ => none

/-- The value is a container without contents. -/
def isEmptyContainer : Toml → Bool
  | .array items => items.isEmpty
  | .table _ members => members.isEmpty
  | .tables items => items.isEmpty
  | _ => false

/-- The text that a value is. -/
def text? : Toml → Option String
  | .text s => some s
  | _ => none

/-- The natural number up to `limit` that a value is. -/
def natural? (limit : Nat) : Toml → Option Nat
  | .whole n => if 0 ≤ n ∧ n ≤ limit then some n.toNat else none
  | _ => none

/-- The name that a value is: a text, or a table whose only member is empty. -/
def name? : Toml → Option String
  | .text s => some s
  | .table _ [(key, value)] => if value.isEmptyContainer then some key else none
  | _ => none

end Toml

end SignOff
