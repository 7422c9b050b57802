import SignOff.Operator.Reply

/-!
# Inspecting the settings

Shows every setting with its value and where it is said to come from: the first of its environment
variables that is set to anything, else the settings file, if that says something under its key
before variables are put in, else the default. A variable counts here as soon as it is set, so one whose
value is no text would count too; environments hold texts only, and such values are not told apart.
-/

namespace SignOff.Operator

/-- The settings file as it stands, if it can be read without putting variables in. -/
def plainFile? (files : Files) (path : Option String) : Option (String × Toml) := do
  let path ← path
  let text ← (Settings.fileText files path).toOption
  return (path, ← Toml.read? text)

/-- The words for where a setting is said to come from. -/
def sourceOf (environment : Environment) (file : Option (String × Toml)) (setting : Setting) : String :=
  match setting.variableNames.find? fun name => (environment.lookup name).isSome with
  | some name => "env (" ++ name ++ ")"
  | none =>
    match file with
    | some (path, value) =>
      if (value.find? [setting.group, setting.key]).isSome then "file (" ++ path ++ ")" else "default"
    | none => "default"

/-- The line that shows a setting. -/
def settingLine (site : Site) (file : Option (String × Toml)) (settings : Settings) (s : Setting) :
    String :=
  "- " ++ s.group ++ "." ++ s.key ++ " = " ++ s.shown settings ++ " (source: " ++
    sourceOf site.environment file s ++ ")"

/-- The command that shows the settings. -/
def inspect (site : Site) (options : LoadOptions) : Reply :=
  match Settings.load site options with
  | .error e => .failed "config" .settings ("config validation failed: " ++ e.message)
  | .ok settings =>
    let file := plainFile? site.files (Settings.path? site.files options.configPath)
    let lines := "effective config (source precedence: env > file > default):" ::
      Setting.all.map (settingLine site file settings)
    ⟨0, "\n".intercalate lines⟩

end SignOff.Operator
