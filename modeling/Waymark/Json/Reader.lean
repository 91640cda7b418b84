import Waymark.Json.Basic
import Waymark.Number.Decimal
import Waymark.Text.Hex

/-!
# Reading JSON

Reads one value from the front of a byte sequence. Reading never fails: where the text breaks the
grammar the value has a flaw and there is no rest.

* `readText`: the rest of a string, after its opening quote;
* `numberValue`: the value of a number, computed from its first 64 bits of digits;
* `Json.read`: one value and the bytes after it;
* `Json.readWhole`: a text that holds one value and blanks.
-/

namespace Waymark.Json

/-- The code of an ASCII character. -/
def ascii (c : Char) : UInt8 := c.toNat.toUInt8

/-- The four bytes that may stand between tokens. -/
def isSpace (b : UInt8) : Bool :=
  b = 0x20 || b = 0x09 || b = 0x0A || b = 0x0D

/-- Skips bytes between tokens. -/
def skipSpace (bytes : List UInt8) : List UInt8 := bytes.dropWhile isSpace

/-! ## Strings -/

/-- The code unit written by four hexadecimal digits, and the bytes after them. -/
def codeUnit? : List UInt8 → Option (Nat × List UInt8)
  | a :: b :: c :: d :: rest => do
    let a ← Text.hexValue? a
    let b ← Text.hexValue? b
    let c ← Text.hexValue? c
    let d ← Text.hexValue? d
    pure (((a * 16 + b) * 16 + c) * 16 + d, rest)
  | _ => none

/-- The byte that a one-letter escape stands for. -/
def escaped? (b : UInt8) : Option UInt8 :=
  if b = ascii '"' || b = ascii '\\' || b = ascii '/' then some b
  else if b = ascii 'b' then some 0x08
  else if b = ascii 'f' then some 0x0C
  else if b = ascii 'n' then some 0x0A
  else if b = ascii 'r' then some 0x0D
  else if b = ascii 't' then some 0x09
  else none

/-- The UTF-8 bytes of a code point. -/
def utf8 (n : Nat) : ByteArray := (String.singleton (Char.ofNat n)).toUTF8

/-- A code unit that is the first half of a pair. -/
def isHighHalf (n : Nat) : Bool := 0xD800 ≤ n && n < 0xDC00

/-- A code unit that is the second half of a pair. -/
def isLowHalf (n : Nat) : Bool := 0xDC00 ≤ n && n < 0xE000

/-- The code point of a pair of halves. -/
def joinHalves (high low : Nat) : Nat := 0x10000 + (high - 0xD800) * 0x400 + (low - 0xDC00)

/-- Reads the rest of a string up to its closing quote. `done` holds the bytes of its value so far,
and `usable` is false once a half of a pair stood alone. The answer is none where the grammar is
broken. -/
def readText (fuel : Nat) (bytes : List UInt8) (done : ByteArray) (usable : Bool) :
    Option (Json × List UInt8) :=
  match fuel, bytes with
  | 0, _ => none
  | _, [] => none
  | fuel + 1, b :: rest =>
    if b = ascii '"' then
      match (if usable then String.fromUTF8? done else none) with
      | some s => some (.text s, rest)
      | none => some (.flawed .unusable, rest)
    else if b < 0x20 then none
    else if b ≠ ascii '\\' then readText fuel rest (done.push b) usable
    else match rest with
      | [] => none
      | e :: rest =>
        if e ≠ ascii 'u' then
          match escaped? e with
          | some c => readText fuel rest (done.push c) usable
          | none => none
        else match codeUnit? rest with
          | none => none
          | some (high, rest) =>
            if isLowHalf high then readText fuel rest done false
            else if !isHighHalf high then readText fuel rest (done ++ utf8 high) usable
            else match rest with
              | s :: u :: rest' =>
                if s = ascii '\\' && u = ascii 'u' then
                  match codeUnit? rest' with
                  | none => none
                  | some (low, rest) =>
                    if isLowHalf low then
                      readText fuel rest (done ++ utf8 (joinHalves high low)) usable
                    else readText fuel rest done false
                else readText fuel rest done false
              | _ => readText fuel rest done false

/-! ## Numbers -/

/-- The parts of a written number. -/
structure Numeral where
  negative : Bool
  whole : List Char
  fraction : Option (List Char)
  exponent : Option Int

/-- A byte is a digit. -/
def isDigitByte (b : UInt8) : Bool := ascii '0' ≤ b && b ≤ ascii '9'

/-- Cuts the leading digits off. -/
def takeDigits (bytes : List UInt8) : List Char × List UInt8 :=
  ((bytes.takeWhile isDigitByte).map fun b => Char.ofNat b.toNat, bytes.dropWhile isDigitByte)

/-- Reads the digits before the point. A zero stands alone. -/
def readWhole? (bytes : List UInt8) : Option (List Char × List UInt8) :=
  match takeDigits bytes with
  | ([], _) => none
  | ('0' :: _ :: _, _) => none
  | found => some found

/-- Reads the digits after a point, if there is a point. -/
def readFraction? (bytes : List UInt8) : Option (Option (List Char) × List UInt8) :=
  match bytes with
  | b :: rest =>
    if b = ascii '.' then
      match takeDigits rest with
      | ([], _) => none
      | (digits, rest) => some (some digits, rest)
    else some (none, bytes)
  | [] => some (none, [])

/-- Reads the power of ten, if there is one. -/
def readExponent? (bytes : List UInt8) : Option (Option Int × List UInt8) :=
  match bytes with
  | b :: rest =>
    if b = ascii 'e' || b = ascii 'E' then
      let (negative, rest) := match rest with
        | s :: rest' =>
          if s = ascii '-' then (true, rest') else if s = ascii '+' then (false, rest')
          else (false, rest)
        | [] => (false, rest)
      match takeDigits rest with
      | ([], _) => none
      | (digits, rest) =>
        let n : Int := Number.natOfDigits digits
        some (some (if negative then -n else n), rest)
    else some (none, bytes)
  | [] => some (none, [])

/-- Reads a number. -/
def readNumeral? (bytes : List UInt8) : Option (Numeral × List UInt8) := do
  let (negative, bytes) := match bytes with
    | b :: rest => if b = ascii '-' then (true, rest) else (false, bytes)
    | [] => (false, bytes)
  let (whole, bytes) ← readWhole? bytes
  let (fraction, bytes) ← readFraction? bytes
  let (exponent, bytes) ← readExponent? bytes
  pure (⟨negative, whole, fraction, exponent⟩, bytes)

/-- The largest number of 64 bits. -/
def word64 : Nat := Number.twoTo 64 - 1

/-- Appends digits to a number while it fits 64 bits, and counts those appended. -/
def fill (n : Nat) : List Char → Nat × Nat
  | [] => (n, 0)
  | c :: rest =>
    let next := 10 * n + Number.digitValue c
    if next > word64 then (n, 0)
    else
      let (m, count) := fill next rest
      (m, count + 1)

/-- Ten to the power `k` as a double. -/
def powerOfTen (k : Nat) : Float := Number.nearest (Number.tenTo k) 1

/-- Divides by `10 ^ k`, at most 308 places at a time. -/
def divideByPower (x : Float) (k : Nat) : Float :=
  if k ≤ 308 then x / powerOfTen k
  else if x == 0 then x
  else divideByPower (x / powerOfTen 308) (k - 308)
termination_by k
decreasing_by omega

/-- `head * 10 ^ exponent`, one rounding for the head and one for the product. None if it is too
large. -/
def scaled? (head : Nat) (exponent : Int) : Option Float :=
  let x := Number.nearest head 1
  if exponent < 0 then some (divideByPower x (-exponent).toNat)
  else if exponent > 308 then if head = 0 then some x else none
  else
    let y := x * powerOfTen exponent.toNat
    if y.isInf then none else some y

/-- The value of a number. Of its digits those count that fit 64 bits. -/
def numberValue (n : Numeral) : Json :=
  let (head, taken) := fill 0 n.whole
  let dropped := n.whole.length - taken
  let signed (x : Float) := if n.negative then -x else x
  match n.fraction, n.exponent, dropped with
  | none, none, 0 =>
    if !n.negative then .int head
    else if head = 0 || head > Number.twoTo 63 then .float (signed (Number.nearest head 1))
    else .int (-(head : Int))
  | fraction, exponent, _ =>
    let (head, added) := fill head (fraction.getD [])
    match scaled? head ((dropped : Int) - added + exponent.getD 0) with
    | some x => .float (signed x)
    | none => .flawed .unusable

/-! ## Values -/

/-- The rest of the bytes after a given word. -/
def afterWord? (word : String) (bytes : List UInt8) : Option (List UInt8) :=
  let letters := word.toUTF8.toList
  if letters.isPrefixOf bytes then some (bytes.drop letters.length) else none

/-- The place where the grammar is broken. -/
def broken : Json × Option (List UInt8) := (.flawed .broken, none)

/-- A value that is written as a word. -/
def readWord (word : String) (value : Json) (bytes : List UInt8) : Json × Option (List UInt8) :=
  match afterWord? word bytes with
  | some rest => (value, some rest)
  | none => broken

/-- The member of an object that has been read. -/
def member (key value : Json) : String × Json :=
  match key with
  | .text name => (name, value)
  | other => ("", .keyless other value)

mutual

/-- Reads one value. -/
def readValue (fuel : Nat) (bytes : List UInt8) : Json × Option (List UInt8) :=
  match fuel with
  | 0 => broken
  | fuel + 1 =>
    match skipSpace bytes with
    | [] => broken
    | b :: rest =>
      if b = ascii '"' then
        match readText fuel rest ByteArray.empty true with
        | some (value, rest) => (value, some rest)
        | none => broken
      else if b = ascii '[' then
        match skipSpace rest with
        | [] => (.array [.flawed .broken], none)
        | c :: rest' => if c = ascii ']' then (.array [], some rest') else readItems fuel rest []
      else if b = ascii '\x7b' then
        match skipSpace rest with
        | [] => (.object [("", .keyless (.flawed .broken) (.flawed .broken))], none)
        | c :: rest' =>
          if c = ascii '\x7d' then (.object [], some rest') else readMembers fuel rest []
      else if b = ascii 't' then readWord "true" (.bool true) (b :: rest)
      else if b = ascii 'f' then readWord "false" (.bool false) (b :: rest)
      else if b = ascii 'n' then readWord "null" .null (b :: rest)
      else match readNumeral? (b :: rest) with
        | some (numeral, rest) => (numberValue numeral, some rest)
        | none => broken

/-- Reads the items of an array up to its end. `done` holds the items so far, the last one first. -/
def readItems (fuel : Nat) (bytes : List UInt8) (done : List Json) :
    Json × Option (List UInt8) :=
  match fuel with
  | 0 => broken
  | fuel + 1 =>
    match readValue fuel bytes with
    | (value, none) => (.array (value :: done).reverse, none)
    | (value, some rest) =>
      match skipSpace rest with
      | [] => (.array (.flawed .broken :: value :: done).reverse, none)
      | c :: rest =>
        if c = ascii ']' then (.array (value :: done).reverse, some rest)
        else if c = ascii ',' then readItems fuel rest (value :: done)
        else (.array (.flawed .broken :: value :: done).reverse, none)

/-- Reads the members of an object up to its end. `done` holds the members so far, the last one
first. -/
def readMembers (fuel : Nat) (bytes : List UInt8) (done : List (String × Json)) :
    Json × Option (List UInt8) :=
  match fuel with
  | 0 => broken
  | fuel + 1 =>
    let stopped (key : Json) (done : List (String × Json)) : Json × Option (List UInt8) :=
      (.object (member key (.flawed .broken) :: done).reverse, none)
    match skipSpace bytes with
    | [] => stopped (.flawed .broken) done
    | q :: rest =>
      if q ≠ ascii '"' then stopped (readValue fuel (q :: rest)).1 done
      else match readText fuel rest ByteArray.empty true with
        | none => stopped (.flawed .broken) done
        | some (key, rest) =>
          match skipSpace rest with
          | [] => stopped key done
          | c :: rest =>
            if c ≠ ascii ':' then stopped key done
            else match readValue fuel rest with
              | (value, none) => (.object (member key value :: done).reverse, none)
              | (value, some rest) =>
                match skipSpace rest with
                | [] => stopped (.flawed .broken) (member key value :: done)
                | c :: rest =>
                  if c = ascii '\x7d' then (.object (member key value :: done).reverse, some rest)
                  else if c = ascii ',' then readMembers fuel rest (member key value :: done)
                  else stopped (.flawed .broken) (member key value :: done)

end

/-- Reads one value from the front of a byte sequence, and gives the bytes after it unless the
grammar is broken before. -/
def read (bytes : List UInt8) : Json × Option (List UInt8) :=
  readValue (2 * bytes.length + 2) bytes

/-- Reads a text that holds one value and nothing else. Values nested deeper than 127 levels are
refused. -/
def readWhole (bytes : List UInt8) : Option Json :=
  match read bytes with
  | (value, some rest) =>
    if (skipSpace rest).isEmpty && value.isSound 127 then some value else none
  | (_, none) => none

/-- `readWhole` on a string. -/
def parse? (s : String) : Option Json := readWhole s.toUTF8.toList

end Waymark.Json
