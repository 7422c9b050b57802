import SignOff.Files
import SignOff.Settings.Layers

/-!
# Loading settings

Settings start from the defaults. Over them come the settings file, the environment and what the
caller gives, and the result has to keep all rules. The file is the one that the caller names or
else the first there is of two usual ones; without a file that layer is missing, unless the caller
insists on one.
-/

namespace SignOff

/-- Where the program runs: its files and its environment. -/
structure Site where
  files : Files
  environment : Environment

/-- What a caller says about loading. -/
structure LoadOptions where
  configPath : Option String := none
  requireFile : Bool := false
  overrides : Patch := .empty

namespace Settings

/-- The usual settings file. -/
def usualFile : String := "itgov.toml"

/-- The settings files that are looked for when none is named. -/
def usualFiles : List String := [usualFile, "config/" ++ usualFile]

/-- The settings file that is there, of the one named or else the usual ones. -/
def path? (files : Files) (named : Option String) : Option String :=
  match named with
  | some path => if (files.find? path).isSome then some path else none
  | none => usualFiles.find? fun path => (files.find? path).isSome

/-- The text of the file at a path. -/
def fileText (files : Files) (path : String) : Except SettingsError String :=
  match files.find? path with
  | none => .error (.unreadableFile path "No such file or directory (os error 2)")
  | some .directory => .error (.unreadableFile path "Is a directory (os error 21)")
  | some (.file bytes) =>
    match String.fromUTF8? bytes with
    | some text => .ok text
    | none => .error (.unreadableFile path "stream did not contain valid UTF-8")

/-- The layer of the settings file. -/
def filePatch (site : Site) (options : LoadOptions) : Except SettingsError Patch :=
  match path? site.files options.configPath with
  | some path => do Patch.ofText site.environment path (← fileText site.files path)
  | none =>
    if options.requireFile then .error (.missingFile (options.configPath.getD usualFile))
    else .ok .empty

/-- The settings that hold for a caller. -/
def load (site : Site) (options : LoadOptions) : Except SettingsError Settings := do
  let file ← filePatch site options
  let environment ← site.environment.patch
  (((default.patched file).patched environment).patched options.overrides).validate

end Settings

end SignOff
