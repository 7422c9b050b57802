import SignOff.Text.Percent

/-!
# Routes

The paths that the service answers at, each for one method. Paths are compared segment by segment,
before anything is decoded, and fixed segments win over parameters. Parameters are not empty, save
that of a decision, whose application may turn out to have no id.
-/

namespace SignOff.Http

/-- A place that the service answers at, with its parameters as they stand in the path. -/
inductive Route where
  | health
  | submission
  | bulkDecision
  | bulkView
  | origin (tableCode key : List Char)
  | view (id : List Char)
  | decision (id : List Char)
deriving DecidableEq, Repr

namespace Route

/-- The first segments of all paths about applications. -/
def applications : List (List Char) := ["".toList, "api".toList, "applications".toList]

/-- The route of the segments below the applications. -/
def below? : List (List Char) → Option Route
  | [] => some .submission
  | [s] =>
    if s.isEmpty then none
    else if s == "bulk-approve".toList then some .bulkDecision
    else if s == "bulk-get".toList then some .bulkView
    else some (.view s)
  | [s, t] => if t == "approve".toList then some (.decision s) else none
  | [s, t, u] =>
    if s == "origin".toList && !t.isEmpty && !u.isEmpty then some (.origin t u) else none
  | _ => none

/-- The route of a path. -/
def ofPath? (path : List Char) : Option Route :=
  let segments := path.splitOn '/'
  if segments == ["".toList, "health".toList] then some .health
  else if applications.isPrefixOf segments then below? (segments.drop applications.length)
  else none

/-- The method that a route answers to. -/
def method : Route → String
  | health => "GET"
  | origin _ _ => "GET"
  | view _ => "GET"
  | submission => "POST"
  | bulkDecision => "POST"
  | bulkView => "POST"
  | decision _ => "POST"

/-- The text of a parameter, unless its bytes are none. -/
def decode? (parameter : List Char) : Option String := Text.ofBytes? (Text.percentDecode parameter)

end Route

end SignOff.Http
