import SignOff.Http.MediaType

/-!
# Requests

A request has a method, an address with a path and a query, headers and a body. The path and the query
stand as they were sent, with their percent signs; whatever follows a hash sign is no part of them.
Names of headers ignore case, and of several headers with one name the first counts.
-/

namespace SignOff.Http

/-- A request as it was sent. -/
structure Request where
  method : String
  path : List Char
  query : List Char
  headers : List (String × String)
  body : String
deriving DecidableEq, Repr

namespace Request

/-- A character that a path may hold as it is. -/
def isPathChar (c : Char) : Bool :=
  '!' ≤ c && !("#<>?`".toList.contains c)

/-- A character that a query may hold as it is. -/
def isQueryChar (c : Char) : Bool := '!' ≤ c && !("\"#<>".toList.contains c)

/-- A character that the value of a header may hold. -/
def isValueChar (c : Char) : Bool := c == '\t' || (' ' ≤ c && c != '\x7f')

/-- The greatest length of an address in bytes. -/
def targetLimit : Nat := 65534

/-- The path and the query of an address. -/
def splitTarget? (target : String) : Option (List Char × List Char) :=
  let shown := target.toList.takeWhile (· != '#')
  let path := shown.takeWhile (· != '?')
  let query := (shown.dropWhile (· != '?')).drop 1
  if path.head? == some '/' && path.all isPathChar && query.all isQueryChar &&
      target.utf8ByteSize ≤ targetLimit then
    some (path, query)
  else none

/-- The request with these parts, if such a request can be sent at all. -/
def of? (method target : String) (headers : List (String × String)) (body : String) :
    Option Request := do
  let (path, query) ← splitTarget? target
  if isToken method.toList &&
      headers.all (fun h => isToken h.1.toList && h.2.toList.all isValueChar) then
    some ⟨method, path, query, headers, body⟩
  else none

/-- A value of a header that is plain text: visible characters of ASCII, spaces and tabs. -/
def isPlain (value : String) : Bool :=
  value.toList.all fun c => c == '\t' || (' ' ≤ c && c ≤ '~')

/-- The value of the first header with a name in lower case, if that is plain text. -/
def header? (r : Request) (name : String) : Option String :=
  ((r.headers.find? fun h => Text.lower h.1 == name).map Prod.snd).filter isPlain

/-- The id that the caller has given to the request. -/
def correlationId? (r : Request) : Option String :=
  ((r.header? "x-correlation-id").map Text.trim).filter fun id => !id.isEmpty

/-- The body is said to be JSON. -/
def claimsJson (r : Request) : Bool :=
  ((r.header? "content-type").bind MediaType.parse?).any MediaType.isJson

end Request

end SignOff.Http
