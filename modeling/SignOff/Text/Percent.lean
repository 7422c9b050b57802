import SignOff.Text.Numeral

/-!
# Percent encoding

In addresses any byte may be written as a percent sign and two hexadecimal digits. A percent sign
that no two such digits follow stands for itself. In the part of an address that holds a form, pairs
are joined by ampersands and a plus sign is a space.
-/

namespace SignOff.Text

/-- The bytes of a character. -/
def utf8 (c : Char) : List UInt8 := (String.singleton c).toUTF8.toList

/-- The bytes that a text stands for. -/
def percentDecode : List Char → List UInt8
  | [] => []
  | '%' :: a :: b :: rest =>
    match hexValue? a, hexValue? b with
    | some high, some low => UInt8.ofNat (16 * high + low) :: percentDecode rest
    | _, _ => utf8 '%' ++ percentDecode (a :: b :: rest)
  | c :: rest => utf8 c ++ percentDecode rest

/-- The text that bytes are, if they are one. -/
def ofBytes? (bytes : List UInt8) : Option String := String.fromUTF8? ⟨bytes.toArray⟩

/-- The bytes that a name or a value of a form stands for. -/
def formDecode (cs : List Char) : List UInt8 :=
  percentDecode (cs.map fun c => if c == '+' then ' ' else c)

/-- The pairs of a form; a pair without an equals sign has an empty value. -/
def formPairs (form : List Char) : List (List UInt8 × List UInt8) :=
  ((form.splitOn '&').filter fun pair => !pair.isEmpty).map fun pair =>
    (formDecode (pair.takeWhile (· != '=')), formDecode ((pair.dropWhile (· != '=')).drop 1))

end SignOff.Text
