import SignOff.Operator.Arguments

/-!
# What a command line looks at

The files and environment variables that a command line can depend on. The settings file is known from
the arguments, the variables from its text, and the file of the database from the settings; so each of
them can be looked up before the next is asked for.
-/

namespace SignOff.Operator

/-- The path of every directory on a path, and the path itself. -/
def pathsTo (path : String) : List String :=
  let names := path.splitOn "/"
  ((List.range names.length).map fun n => "/".intercalate (names.take (n + 1))).filter fun p => p != ""

/-- The settings file that arguments name. -/
def namedPath? (arguments : List String) : Option String :=
  (Invocation.ofArguments? arguments).bind Invocation.configPath

/-- The settings files that may count. -/
def settingsPaths (arguments : List String) : List String :=
  match namedPath? arguments with
  | some path => [path]
  | none => Settings.usualFiles

/-- The environment variables that may count once the settings files are known. -/
def variableNames (files : Files) (arguments : List String) : List String :=
  let text := do
    let path ← Settings.path? files (namedPath? arguments)
    (Settings.fileText files path).toOption
  Setting.all.flatMap Setting.variableNames ++ (text.map fun s => Interpolation.names s.toList).getD []

/-- The file of the database, if the settings name one. -/
def databasePath? (site : Site) (arguments : List String) : Option String := do
  let invocation ← Invocation.ofArguments? arguments
  let settings ← (Settings.load site invocation.loadOptions).toOption
  (← (Database.Address.ofUrl settings.databaseUrl).toOption).file

end SignOff.Operator
