import SignOff.Text.Blank

/-!
# Media types

The type of a content: two names around a slash, of which the second may end in a suffix after its
last plus sign, and then parameters after semicolons. A parameter has a name and a value, which is a
token or stands in quotes. The parameters have to be well formed, but what they say is ignored. The
case of letters means nothing.
-/

namespace SignOff.Http

/-- The characters of tokens besides letters and digits. -/
def tokenMarks : String := "!#$%&'*+-.^_`|~"

/-- A character that tokens are made of. -/
def isTokenChar (c : Char) : Bool := c.isAlphanum || tokenMarks.toList.contains c

/-- A text of one or more token characters. -/
def isToken (cs : List Char) : Bool := !cs.isEmpty && cs.all isTokenChar

/-- A media type without its parameters, in lower case. -/
structure MediaType where
  kind : String
  subtype : String
  suffix : Option String
deriving DecidableEq, Repr

namespace MediaType

/-- A character of the names in a media type, where no name is a wildcard. -/
def isNameChar (c : Char) : Bool := isTokenChar c && c != '*'

/-- Where in a sequence of parameters a reading stands. -/
inductive Place where
  | beforeName
  | inName
  | beforeValue
  | inValue
  | openQuote
  | inQuotes
  | afterQuotes
deriving DecidableEq, Repr

namespace Place

/-- A character that may stand in quotes; the first one may even be a quote. -/
def isQuotedChar (c : Char) : Bool := ' ' ≤ c && c != '\x7f'

/-- The place after one more character, unless that is out of place. -/
def next? (c : Char) : Place → Option Place
  | beforeName => if c == ' ' then some beforeName else if isNameChar c then some inName else none
  | inName => if c == '=' then some beforeValue else if isNameChar c then some inName else none
  | beforeValue => if c == '"' then some openQuote else if isNameChar c then some inValue else none
  | inValue => if c == ';' then some beforeName else if isNameChar c then some inValue else none
  | openQuote => if isQuotedChar c then some inQuotes else none
  | inQuotes => if c == '"' then some afterQuotes else if isQuotedChar c then some inQuotes else none
  | afterQuotes =>
    if c == ' ' then some afterQuotes else if c == ';' then some beforeName else none

/-- Parameters may end at this place. -/
def isLast : Place → Bool
  | beforeName => true
  | beforeValue => true
  | inValue => true
  | afterQuotes => true
  | _ => false

end Place

/-- Well-formed parameters, from behind the first semicolon on. -/
def areParameters (cs : List Char) : Bool :=
  (cs.foldlM (fun (place : Place) c => place.next? c) Place.beforeName).any Place.isLast

/-- The second name without and with its suffix, which follows the last plus sign if there is anything
before that. -/
def splitSuffix (name : List Char) : List Char × Option (List Char) :=
  let suffix := (name.reverse.takeWhile (· != '+')).reverse
  let base := name.take (name.length - suffix.length - 1)
  if name.contains '+' && !base.isEmpty then (base, some suffix) else (name, none)

/-- The media type that a text names. -/
def parse? (text : String) : Option MediaType :=
  let lowered (cs : List Char) : String := Text.lower (String.ofList cs)
  let kind := text.toList.takeWhile (· != '/')
  let behind := (text.toList.dropWhile (· != '/')).drop 1
  let name := behind.takeWhile (· != ';')
  let parameters := (behind.dropWhile (· != ';')).drop 1
  let isName (cs : List Char) : Bool := !cs.isEmpty && cs.all isNameChar
  if isName kind && isName name && areParameters parameters then
    let (subtype, suffix) := splitSuffix name
    some ⟨lowered kind, lowered subtype, suffix.map lowered⟩
  else none

/-- A media type for JSON texts. -/
def isJson (t : MediaType) : Bool :=
  t.kind == "application" && (t.subtype == "json" || t.suffix == some "json")

end MediaType

end SignOff.Http
