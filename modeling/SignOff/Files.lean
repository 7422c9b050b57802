/-!
# Files

The files that the program finds, each at a place: the names on the way to it from the working
directory, where a place may start above that directory or at the root. A path is a sequence of
names between slashes. Going on from a file leads nowhere, and so does the empty path. Directories
that hold something need no entry of their own.
-/

namespace SignOff

/-- What stands at a place. -/
inductive Entry where
  | directory
  | file (bytes : ByteArray)

/-- Entries by their places. -/
structure Files where
  entries : List (List String × Entry)

namespace Files

/-- No files at all. -/
def empty : Files := ⟨[]⟩

/-- The place where a path starts: the root or the working directory. -/
def start (path : String) : List String := if path.startsWith "/" then ["/"] else []

/-- The place that a name leads to from a directory. -/
def step (place : List String) (name : String) : List String :=
  if name == "" || name == "." then place
  else if name != ".." then place ++ [name]
  else if place == ["/"] then place
  else if place.all (· == "..") then place ++ [".."]
  else place.dropLast

/-- A directory that is always there: the root, the working directory and those above it. -/
def isGiven (place : List String) : Bool := place == ["/"] || place.all (· == "..")

/-- What stands at a place. -/
def at? (files : Files) (place : List String) : Option Entry :=
  match files.entries.lookup place with
  | some entry => some entry
  | none =>
    if isGiven place || files.entries.any fun e => place.isPrefixOf e.1 then some .directory
    else none

/-- There is a directory at a place. -/
def isDirectory (files : Files) (place : List String) : Bool :=
  match files.at? place with
  | some .directory => true
  | _ => false

/-- The place that names lead to from a place; only from directories does a way go on. -/
def walk (files : Files) : List String → List String → Option (List String)
  | place, [] => some place
  | place, name :: rest =>
    if files.isDirectory place then files.walk (step place name) rest else none

/-- The place of a path, whether something stands there or not. -/
def place? (files : Files) (path : String) : Option (List String) :=
  if path == "" then none else files.walk (start path) (path.splitOn "/")

/-- What stands at the end of a path. -/
def find? (files : Files) (path : String) : Option Entry := (files.place? path).bind files.at?

/-- The files with an entry put at a place. -/
def put (files : Files) (place : List String) (entry : Entry) : Files :=
  ⟨(place, entry) :: files.entries.filter fun e => e.1 != place⟩

/-- The files with an entry at each of some paths. -/
def ofPaths (entries : List (String × Entry)) : Files :=
  ⟨entries.map fun e => ((e.1.splitOn "/").foldl step (start e.1), e.2)⟩

end Files

end SignOff
