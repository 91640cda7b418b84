import Waymark.Json.Basic
import Waymark.Number.Shortest
import Waymark.Text.Hex

/-!
# Writing JSON

Values are written without blanks. In strings the quote, the backslash and the control characters
are escaped and all else stands for itself. A double is written with the fewest digits that read
back, and one that is infinite or undefined is written `null`.

* `quoted`: the text of a string;
* `write`: the text of a value.
-/

namespace Waymark.Json

/-- How a character is written inside a string. -/
def quotedChar (c : Char) : List Char :=
  if c = '"' then ['\\', '"']
  else if c = '\\' then ['\\', '\\']
  else if c.toNat = 0x08 then ['\\', 'b']
  else if c.toNat = 0x09 then ['\\', 't']
  else if c.toNat = 0x0A then ['\\', 'n']
  else if c.toNat = 0x0C then ['\\', 'f']
  else if c.toNat = 0x0D then ['\\', 'r']
  else if c.toNat < 0x20 then
    ['\\', 'u', '0', '0', Text.hexDigit (c.toNat / 16), Text.hexDigit (c.toNat % 16)]
  else [c]

/-- The text of a string. -/
def quoted (s : String) : List Char := '"' :: s.toList.flatMap quotedChar ++ ['"']

/-- The text of a double, which always has a point or a power of ten. Beyond 16 places before the point
or 5 zeros after it a power of ten is written. -/
def floatText (x : Float) : String :=
  let sign := if Number.isNegative x then "-" else ""
  if x.isNaN || x.isInf then "null"
  else if x == 0 then sign ++ "0.0"
  else
    let (digits, place) := Number.shortestDigits x
    let top := place + digits.length
    if top > 16 || top < -4 then sign ++ String.ofList digits ++ "e" ++ toString place
    else if place ≥ 0 then sign ++ String.ofList (Number.placed digits place) ++ ".0"
    else sign ++ String.ofList (Number.placed digits place)

mutual

/-- Writes a value in front of a text. -/
def writeTo (rest : List Char) : Json → List Char
  | .null => "null".toList ++ rest
  | .bool b => (if b then "true" else "false").toList ++ rest
  | .int n => (toString n).toList ++ rest
  | .float x => (floatText x).toList ++ rest
  | .text s => quoted s ++ rest
  | .array items => '[' :: writeItems (']' :: rest) items
  | .object members => '\x7b' :: writeMembers ('\x7d' :: rest) members
  | .flawed _ | .keyless _ _ => "null".toList ++ rest

/-- Writes items in front of a text, with commas between them. -/
def writeItems (rest : List Char) : List Json → List Char
  | [] => rest
  | [x] => writeTo rest x
  | x :: y :: more => writeTo (',' :: writeItems rest (y :: more)) x

/-- Writes members in front of a text, with commas between them. -/
def writeMembers (rest : List Char) : List (String × Json) → List Char
  | [] => rest
  | [(k, x)] => quoted k ++ ':' :: writeTo rest x
  | (k, x) :: y :: more =>
    quoted k ++ ':' :: writeTo (',' :: writeMembers rest (y :: more)) x

end

/-- The text of a value. -/
def write (value : Json) : String := String.ofList (writeTo [] value)

end Waymark.Json
