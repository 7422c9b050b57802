import SignOff.Toml.Draft
import SignOff.Toml.Scalar

/-!
# Reading TOML

A settings file is a sequence of lines, each a pair, a header, a comment or blank. Arrays may go over
several lines and end in a comma, tables between braces neither. At most 79 arrays and tables in
braces are open inside each other, and a dotted key has at most 79 parts.
-/

namespace SignOff.Toml

/-- The number of arrays and tables that may be open at once, and of parts that a key may have. -/
def greatestDepth : Nat := 79

/-- A character of a key without quotation marks. -/
def isKeyChar (c : Char) : Bool :=
  ('a' ≤ c && c ≤ 'z') || ('A' ≤ c && c ≤ 'Z') || c.isDigit || c == '-' || c == '_'

/-- One part of a dotted key. -/
def scanKeyPart : Scan String
  | '"' :: rest => (quotedTail rest).map fun (s, rest) => (String.ofList s, rest)
  | '\'' :: rest => (verbatimTail rest).map fun (s, rest) => (String.ofList s, rest)
  | cs =>
    let key := cs.takeWhile isKeyChar
    if key.isEmpty then none else some (String.ofList key, cs.drop key.length)

/-- A dotted key of at most `count` parts, with the white space around them. -/
def scanKey : Nat → Scan KeyPath
  | 0, _ => none
  | count + 1, cs => do
    let (part, rest) ← scanKeyPart (skipBlank cs)
    match skipBlank rest with
    | '.' :: rest => do
      let (key, rest) ← scanKey count rest
      some (⟨part :: key.steps, key.last⟩, rest)
    | rest => some (⟨[], part⟩, rest)

/-- The text after a comment, if one comes next. -/
def skipComment : List Char → List Char
  | '#' :: rest => rest.dropWhile isPrintable
  | cs => cs

/-- White space, comments and line ends between the values of an array. -/
def skipLines (cs : List Char) : List Char :=
  match cs with
  | [] => []
  | '\r' :: '\n' :: rest => skipLines rest
  | c :: rest =>
    if isBlank c || c == '\n' then skipLines rest
    else if c == '#' then skipLines (rest.dropWhile isPrintable)
    else c :: rest
termination_by cs.length
decreasing_by
  all_goals
    simp only [List.length_cons]
    first
    | omega
    | (have h := (rest.dropWhile_sublist isPrintable).length_le; omega)

mutual

/-- A value with at most `depth` containers open inside each other. -/
def scanValue : Nat → Nat → Scan Toml
  | 0, _, _ => none
  | fuel + 1, depth, cs =>
    match cs with
    | '[' :: rest =>
      if depth = 0 then none
      else (scanItems fuel (depth - 1) rest).map fun (items, rest) => (.array items, rest)
    | '{' :: rest =>
      if depth = 0 then none
      else match skipBlank rest with
        | '}' :: rest => some (.table .braced [], rest)
        | rest => (scanMembers fuel (depth - 1) [] rest).map fun (members, rest) =>
          (.table .braced members, rest)
    | cs => scanScalar cs

/-- The items of an array up to its closing bracket. -/
def scanItems : Nat → Nat → Scan (List Toml)
  | 0, _, _ => none
  | fuel + 1, depth, cs =>
    match skipLines cs with
    | ']' :: rest => some ([], rest)
    | cs => do
      let (item, rest) ← scanValue fuel depth cs
      match skipLines rest with
      | ',' :: rest => do
        let (items, rest) ← scanItems fuel depth rest
        some (item :: items, rest)
      | ']' :: rest => some ([item], rest)
      | _ => none

/-- The pairs of a table up to its closing brace, added one after another to `members`. -/
def scanMembers : Nat → Nat → Members → Scan Members
  | 0, _, _, _ => none
  | fuel + 1, depth, members, cs => do
    let (key, rest) ← scanKey greatestDepth cs
    let rest ← expect ['='] rest
    let (value, rest) ← scanValue fuel depth (skipBlank rest)
    let members ← addAt key.last value key.steps members
    match skipBlank rest with
    | ',' :: rest => scanMembers fuel depth members rest
    | '}' :: rest => some (members, rest)
    | _ => none

end

/-- What follows the end of a line, with the white space and the comment before it. -/
def skipLineEnd (cs : List Char) : Option (List Char) :=
  match skipComment (skipBlank cs) with
  | [] => some []
  | rest => newline? rest

/-- A header, a repeated header or a pair, without the end of its line. -/
def scanLine (fuel : Nat) : Scan Line
  | '[' :: '[' :: rest => do
    let (key, rest) ← scanKey greatestDepth rest
    some (.repeated key, ← expect "]]".toList rest)
  | '[' :: rest => do
    let (key, rest) ← scanKey greatestDepth rest
    some (.header key, ← expect "]".toList rest)
  | cs => do
    let (key, rest) ← scanKey greatestDepth cs
    let rest ← expect ['='] rest
    let (value, rest) ← scanValue fuel greatestDepth (skipBlank rest)
    some (.pair key value, rest)

/-- The lines of a text that say something. -/
def scanLines : Nat → List Char → Option (List Line)
  | 0, _ => none
  | fuel + 1, cs =>
    match skipBlank cs with
    | [] => some []
    | '#' :: rest => do scanLines fuel (← skipLineEnd ('#' :: rest))
    | cs =>
      match newline? cs with
      | some rest => scanLines fuel rest
      | none => do
        let (line, rest) ← scanLine fuel cs
        let lines ← scanLines fuel (← skipLineEnd rest)
        some (line :: lines)

/-- The fuel that suffices for a text: two steps for every character. -/
def fuelFor (cs : List Char) : Nat := 2 * cs.length + 2

/-- The text without a byte order mark in front. -/
def withoutMark : List Char → List Char
  | c :: rest => if c.toNat = 0xFEFF then rest else c :: rest
  | [] => []

/-- The table that a text is. -/
def read? (s : String) : Option Toml :=
  let cs := withoutMark s.toList
  (scanLines (fuelFor cs) cs).bind ofLines

end SignOff.Toml
