import SignOff.Toml.Value

/-!
# Building tables line by line

A settings file is a sequence of pairs and headers. A pair goes into the table of the last header.
Dotted keys make tables on their way and go only through tables made like that; a header may not name
a table that has a header, a dotted key or a value already, but may name one that so far was only
passed on the way to a table below. A repeated header adds a further table each time.
-/

namespace SignOff.Toml

/-- Adds a value under a dotted key, of which `path` is what comes before the last part.

The table that takes the value has to be made by dotted keys, unless it is the outermost one. -/
def addAt (key : String) (value : Toml) : List String → Members → Option Members
  | [], members =>
    if (members.lookup key).isSome then none else some (members ++ [(key, value)])
  | step :: path, members =>
    match members.lookup step with
    | none => (addAt key value path []).map fun inner => members ++ [(step, .table .dotted inner)]
    | some (.table .dotted inner) =>
      (addAt key value path inner).map fun inner => Entries.put step (.table .dotted inner) members
    | some (.table .passage inner) =>
      if path.isEmpty then none
      else (addAt key value path inner).map fun inner =>
        Entries.put step (.table .passage inner) members
    | some (.tables (inner :: older)) =>
      if path.isEmpty then none
      else (addAt key value path inner).map fun inner =>
        Entries.put step (.tables (inner :: older)) members
    | some _ => none

/-- Changes the table at the end of a path of header keys; tables are made where there are none. -/
def changeAt (change : Members → Option Members) : List String → Members → Option Members
  | [], members => change members
  | step :: path, members =>
    match members.lookup step with
    | none =>
      (changeAt change path []).map fun inner => members ++ [(step, .table .passage inner)]
    | some (.table .braced _) => none
    | some (.table kind inner) =>
      (changeAt change path inner).map fun inner => Entries.put step (.table kind inner) members
    | some (.tables (inner :: older)) =>
      (changeAt change path inner).map fun inner =>
        Entries.put step (.tables (inner :: older)) members
    | some _ => none

/-- A dotted key: the parts before the last, and the last. -/
structure KeyPath where
  steps : List String
  last : String
deriving DecidableEq, Repr

/-- A line of a settings file. -/
inductive Line where
  | pair (key : KeyPath) (value : Toml)
  | header (key : KeyPath)
  /-- A header between double brackets. -/
  | repeated (key : KeyPath)

/-- The pairs from here to the next header, and the lines from that header on. -/
def sectionOf : List Line → List (KeyPath × Toml) × List Line
  | .pair key value :: rest =>
    let (pairs, after) := sectionOf rest
    ((key, value) :: pairs, after)
  | lines => ([], lines)

/-- Taking a section off the front makes no list of lines longer. -/
theorem length_sectionOf (lines : List Line) : (sectionOf lines).2.length ≤ lines.length := by
  induction lines with
  | nil => simp [sectionOf]
  | cons line rest ih =>
    cases line with
    | pair key value => simp only [sectionOf, List.length_cons]; omega
    | header key => simp [sectionOf]
    | repeated key => simp [sectionOf]

/-- The members with pairs added one after another. -/
def addPairs (members : Members) (pairs : List (KeyPath × Toml)) : Option Members :=
  pairs.foldlM (fun members (key, value) => addAt key.last value key.steps members) members

/-- The members with the table of a header put in. -/
def addTable (key : String) (pairs : List (KeyPath × Toml)) (members : Members) : Option Members :=
  match members.lookup key with
  | none => (addPairs [] pairs).map fun inner => members ++ [(key, .table .header inner)]
  | some (.table .passage inner) =>
    (addPairs inner pairs).map fun inner => Entries.put key (.table .header inner) members
  | some _ => none

/-- The members with one more table of a repeated header put in. -/
def addRepeated (key : String) (pairs : List (KeyPath × Toml)) (members : Members) : Option Members :=
  match members.lookup key with
  | none => (addPairs [] pairs).map fun inner => members ++ [(key, .tables [inner])]
  | some (.tables older) =>
    (addPairs [] pairs).map fun inner => Entries.put key (.tables (inner :: older)) members
  | some _ => none

/-- The members with the tables of all headers put in. -/
def addSections (root : Members) (lines : List Line) : Option Members :=
  match lines with
  | [] => some root
  | .pair .. :: _ => none
  | .header key :: rest => do
    have := length_sectionOf rest
    let root ← changeAt (addTable key.last (sectionOf rest).1) key.steps root
    addSections root (sectionOf rest).2
  | .repeated key :: rest => do
    have := length_sectionOf rest
    let root ← changeAt (addRepeated key.last (sectionOf rest).1) key.steps root
    addSections root (sectionOf rest).2
termination_by lines.length
decreasing_by all_goals simp only [List.length_cons]; omega

/-- The table that the lines of a file build. -/
def ofLines (lines : List Line) : Option Toml := do
  let root ← addPairs [] (sectionOf lines).1
  let members ← addSections root (sectionOf lines).2
  return .table .header members

end SignOff.Toml
