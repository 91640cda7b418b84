/-!
# UTF-8 sequences

A character is one to four bytes. The first byte says how many bytes are still owed, and bounds the next
one; all later ones are between `0x80` and `0xBF`.

* `fault?`: the first place at which bytes are no text;
* `decode?`: the text that bytes write;
* `repaired`: bytes with a replacement character in the place of what is no text.
-/

namespace Waymark.Text

/-- After the first byte of a character: how many bytes are owed, and the bounds of the next one. None if
no character starts with the byte. -/
def owedAfter? (b : UInt8) : Option (Nat × UInt8 × UInt8) :=
  if b < 0x80 then some (0, 0x80, 0xBF)
  else if 0xC2 ≤ b && b ≤ 0xDF then some (1, 0x80, 0xBF)
  else if b = 0xE0 then some (2, 0xA0, 0xBF)
  else if b = 0xED then some (2, 0x80, 0x9F)
  else if 0xE1 ≤ b && b ≤ 0xEF then some (2, 0x80, 0xBF)
  else if b = 0xF0 then some (3, 0x90, 0xBF)
  else if 0xF1 ≤ b && b ≤ 0xF3 then some (3, 0x80, 0xBF)
  else if b = 0xF4 then some (3, 0x80, 0x8F)
  else none

/-- What stands at the front of some bytes, with the number of bytes that belong to it. -/
inductive Sequence where
  | character (size : Nat)
  /-- Bytes that no byte after them makes a character. -/
  | wrong (size : Nat)
  /-- The beginning of a character, and nothing after it. -/
  | cutOff (size : Nat)
  deriving DecidableEq, Repr

/-- Reads the bytes of a character that are still owed, `size` of them being read. -/
def readOwed (size : Nat) : Nat → UInt8 → UInt8 → List UInt8 → Sequence
  | 0, _, _, _ => .character size
  | _ + 1, _, _, [] => .cutOff size
  | owed + 1, low, high, b :: rest =>
    if low ≤ b && b ≤ high then readOwed (size + 1) owed 0x80 0xBF rest else .wrong size

/-- What starts with a byte. -/
def sequenceAt (b : UInt8) (rest : List UInt8) : Sequence :=
  match owedAfter? b with
  | none => .wrong 1
  | some (owed, low, high) => readOwed 1 owed low high rest

/-- The first place at which bytes are no text: its position, and the number of bytes that are wrong
there, none if the bytes are merely cut off. `skip` bytes still belong to the last character, and
`position` is that of the first byte. -/
def faultFrom (skip position : Nat) : List UInt8 → Option (Nat × Option Nat)
  | [] => none
  | b :: rest =>
    match skip with
    | skip + 1 => faultFrom skip (position + 1) rest
    | 0 => match sequenceAt b rest with
      | .character size => faultFrom (size - 1) (position + 1) rest
      | .wrong size => some (position, some size)
      | .cutOff _ => some (position, none)

/-- The first place at which bytes are no text. -/
def fault? (bytes : List UInt8) : Option (Nat × Option Nat) := faultFrom 0 0 bytes

/-- The text that bytes write. -/
def decode? (bytes : List UInt8) : Option String := String.fromUTF8? ⟨bytes.toArray⟩

/-- The bytes of the replacement character. -/
def replacement : List UInt8 := [0xEF, 0xBF, 0xBD]

/-- Bytes with a replacement character in the place of each sequence that is no character. `skip` bytes
still belong to the last sequence, and `keep` says whether they are kept. -/
def repairFrom (skip : Nat) (keep : Bool) : List UInt8 → List UInt8
  | [] => []
  | b :: rest =>
    match skip with
    | skip + 1 => if keep then b :: repairFrom skip keep rest else repairFrom skip keep rest
    | 0 => match sequenceAt b rest with
      | .character size => b :: repairFrom (size - 1) true rest
      | .wrong size | .cutOff size => replacement ++ repairFrom (size - 1) false rest

/-- The text of bytes, with a replacement character in the place of what is no text. -/
def repaired (bytes : List UInt8) : String := (decode? (repairFrom 0 true bytes)).getD ""

end Waymark.Text
