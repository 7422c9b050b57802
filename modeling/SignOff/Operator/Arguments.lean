import SignOff.Operator.Doctor
import SignOff.Operator.Inspect
import SignOff.Operator.Migrate

/-!
# The command line

One of three commands, with the settings file before or after its name. A later option wins over one
before the command, but none may come twice on the same side. What follows the name of an option is
its value unless it starts with a hyphen; a value after an equals sign may be anything but empty.
-/

namespace SignOff.Operator

/-- A command with its own options. -/
inductive Action where
  | migrate
  | inspect
  | doctor (asJson : Bool)
deriving DecidableEq, Repr

/-- A command line that has been understood. -/
structure Invocation where
  action : Action
  configPath : Option String
deriving DecidableEq, Repr

/-- The options on one side of the name of the command. -/
structure Given where
  configPath : Option String
  asJson : Bool
deriving DecidableEq, Repr

namespace Given

/-- No option at all. -/
def nothing : Given := ⟨none, false⟩

/-- The options with the settings file, which comes once and is not empty. -/
def withConfig? (given : Given) (path : String) : Option Given :=
  if given.configPath.isSome || path == "" then none else some { given with configPath := some path }

end Given

/-- A text that may be the value of the option before it. -/
def isOptionValue (s : String) : Bool := !s.startsWith "-" || s == "-"

/-- What an option with its value after an equals sign starts with. -/
def configAssignment : String := "--config="

/-- The value after the equals sign, if the argument is the option for the settings file. -/
def assigned? (argument : String) : Option String :=
  if argument.startsWith configAssignment then
    some (String.ofList (argument.toList.drop configAssignment.length))
  else none

/-- The options after the name of the command, of which `takesJson` tells whether it takes one of its
own. Nothing may follow the argument that ends them. -/
def optionsAfter (takesJson : Bool) : Given → List String → Option Given
  | given, [] => some given
  | given, ["--"] => some given
  | given, "--config" :: value :: rest =>
    if isOptionValue value then do optionsAfter takesJson (← given.withConfig? value) rest else none
  | given, argument :: rest =>
    if argument == "--json" then
      if takesJson && !given.asJson then optionsAfter takesJson { given with asJson := true } rest
      else none
    else
      match assigned? argument with
      | some path => do optionsAfter takesJson (← given.withConfig? path) rest
      | none => none

/-- The command with a name and the options after it. -/
def actionOf? (name : String) (rest : List String) : Option (Action × Given) :=
  match name with
  | "migrate" => (optionsAfter false .nothing rest).map fun given => (.migrate, given)
  | "config" => (optionsAfter false .nothing rest).map fun given => (.inspect, given)
  | "doctor" => (optionsAfter true .nothing rest).map fun given => (.doctor given.asJson, given)
  | _ => none

/-- The invocation that arguments mean, after the options `given` before them. -/
def invocationAfter : Given → List String → Option Invocation
  | _, [] => none
  | given, "--config" :: value :: rest =>
    if isOptionValue value then do invocationAfter (← given.withConfig? value) rest else none
  | given, argument :: rest =>
    match assigned? argument with
    | some path => do invocationAfter (← given.withConfig? path) rest
    | none => (actionOf? argument rest).map fun (action, later) =>
      ⟨action, later.configPath.or given.configPath⟩

/-- The invocation that arguments mean. -/
def Invocation.ofArguments? (arguments : List String) : Option Invocation :=
  invocationAfter .nothing arguments

namespace Invocation

/-- The options for loading: a settings file that is named has to be there. -/
def loadOptions (invocation : Invocation) : LoadOptions :=
  { configPath := invocation.configPath, requireFile := invocation.configPath.isSome }

end Invocation

/-- Carries out a command; the files are those after it. -/
def Action.run (action : Action) (site : Site) (options : LoadOptions) : Reply × Files :=
  match action with
  | .migrate => Operator.migrate site options
  | .inspect => (Operator.inspect site options, site.files)
  | .doctor asJson => Operator.doctor site options asJson

/-- The number that a command line without sense ends with. -/
def usageExitCode : Nat := 2

/-- Carries out a command line: the number it ends with, what it prints, and the files after it. -/
def runArguments (site : Site) (arguments : List String) : Nat × String × Files :=
  match Invocation.ofArguments? arguments with
  | none => (usageExitCode, "", site.files)
  | some invocation =>
    let (reply, files) := invocation.action.run site invocation.loadOptions
    (reply.exitCode, reply.output ++ "\n", files)

end SignOff.Operator
