import SignOff.Settings.Basic
import SignOff.Text.Percent

/-!
# Database addresses

A database is in memory, where every program finds an empty one, or in a file. An address is a file
name after its scheme, percent-encoded, with parameters after a question mark.
-/

namespace SignOff.Database

/-- Where a database is. -/
structure Address where
  /-- The file, or nothing for a database in memory. -/
  file : Option String
  readOnly : Bool
deriving DecidableEq, Repr

namespace Address

/-- The text without all the copies of `start` at its beginning. -/
def stripAll (start : List Char) (cs : List Char) : List Char :=
  match start with
  | [] => cs
  | first :: more =>
    if (first :: more).isPrefixOf cs then stripAll (first :: more) (cs.drop (more.length + 1)) else cs
termination_by cs.length
decreasing_by
  next h =>
    have := (List.isPrefixOf_iff_prefix.1 h).length_le
    simp only [List.length_cons, List.length_drop] at *
    omega

/-- The text of a value between quotation marks. -/
def quoted (s : String) : String :=
  "\"" ++ String.join (s.toList.map fun c =>
    if c == '"' || c == '\\' then "\\" ++ c.toString else c.toString) ++ "\""

/-- The text of a name or value of a parameter. -/
def shown (bytes : List UInt8) : String := (Text.ofBytes? bytes).getD "\uFFFD"

/-- The complaint about the value of a parameter. -/
def badValue (name value : String) : String :=
  "unknown value " ++ quoted value ++ " for `" ++ name ++ "`"

/-- The address with one parameter taken into account, or the reason why it is refused. -/
def withParameter (address : Address) (name value : String) : Except String Address :=
  match name with
  | "mode" =>
    if value = "ro" then .ok { address with readOnly := true }
    else if value = "memory" then .ok { address with file := none }
    else if value = "rw" ∨ value = "rwc" then .ok address
    else .error (badValue name value)
  | "cache" => if value = "private" ∨ value = "shared" then .ok address else .error (badValue name value)
  | "immutable" =>
    if ["true", "1", "false", "0"].contains value then .ok address else .error (badValue name value)
  | "vfs" => .ok address
  | _ => .error ("unknown query parameter `" ++ name ++ "` while parsing connection URL")

/-- The address that a URL names, or the reason why it names none. -/
def ofUrl (url : String) : Except String Address := do
  let cs := Text.trimList url.toList
  let cs := stripAll "sqlite:".toList (stripAll "sqlite://".toList cs)
  let name := cs.takeWhile (· != '?')
  let address : Address ←
    if name = ":memory:".toList then pure ⟨none, false⟩
    else
      match Text.ofBytes? (Text.percentDecode name) with
      | some file => pure ⟨if file = "" then none else some file, false⟩
      | none => throw "invalid utf-8 sequence"
  (Text.formPairs ((cs.dropWhile (· != '?')).drop 1)).foldlM
    (fun address (name, value) => address.withParameter (shown name) (shown value)) address

end Address

end SignOff.Database
