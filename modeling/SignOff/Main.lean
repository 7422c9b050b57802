import SignOff.Operator.Surroundings

/-!
# The program

Looks up the files and variables that the command line depends on, carries it out, and writes the file
of the database back if it has changed.
-/

namespace SignOff.Operator

/-- What stands at a path; whatever cannot be read as a file counts as a directory. -/
def lookUp (path : String) : IO (Option Entry) := do
  try
    return some (.file (← IO.FS.readBinFile path))
  catch
    | .noFileOrDirectory .. => return none
    | _ => return some .directory

/-- The files at some paths with the directories on the way. -/
def lookUpAll (paths : List String) : IO Files := do
  let found ← (paths.flatMap pathsTo).filterMapM fun path => do
    return (← lookUp path).map fun entry => (path, entry)
  return .ofPaths found

/-- The variables that are set, of those named. -/
def lookUpVariables (names : List String) : IO Environment :=
  names.filterMapM fun name => do
    return (← IO.getEnv name).map fun value => (name, value)

/-- Writes the file at a path if it is another than before. -/
def writeBack (before after : Files) (path : String) : IO Unit := do
  match before.find? path, after.find? path with
  | some (.file old), some (.file new) => if old != new then IO.FS.writeBinFile path new
  | none, some (.file new) => IO.FS.writeBinFile path new
  | _, _ => return ()

end SignOff.Operator

open SignOff SignOff.Operator

/-- Carries out the command line. -/
def main (arguments : List String) : IO UInt32 := do
  let settingsFiles ← lookUpAll (settingsPaths arguments)
  let environment ← lookUpVariables (variableNames settingsFiles arguments)
  let database := (databasePath? ⟨settingsFiles, environment⟩ arguments).toList
  let before ← lookUpAll (settingsPaths arguments ++ database)
  let (exitCode, output, after) := runArguments ⟨before, environment⟩ arguments
  database.forM (writeBack before after)
  IO.print output
  return exitCode.toUInt32
