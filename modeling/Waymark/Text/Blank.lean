/-!
# Blank characters, words and lines

White space is the Unicode property White_Space. Texts are cut at blank characters into words, at
line feeds into lines, and at a chosen character into pieces.

* `trim`: drops the blank characters at both ends;
* `words`: the longest runs of characters that are not blank;
* `lines`: the text between line feeds, less a carriage return at the end of a line.
-/

namespace Waymark.Text

/-- The property White_Space. -/
def isBlank (c : Char) : Bool :=
  let n := c.toNat
  (9 ≤ n && n ≤ 13) || n = 0x20 || n = 0x85 || n = 0xA0 || n = 0x1680 ||
    (0x2000 ≤ n && n ≤ 0x200A) || n = 0x2028 || n = 0x2029 || n = 0x202F || n = 0x205F || n = 0x3000

/-- Drops blank characters at the end. -/
def trimEnd (cs : List Char) : List Char := (cs.reverse.dropWhile isBlank).reverse

/-- Drops blank characters at both ends. -/
def trim (cs : List Char) : List Char := trimEnd (cs.dropWhile isBlank)

/-- Cuts at every character that satisfies `p`. There is one piece more than there are cuts. -/
def pieces (p : Char → Bool) (cs : List Char) : List (List Char) :=
  cs.foldr (fun c acc =>
    if p c then [] :: acc else match acc with
      | [] => [[c]]
      | w :: ws => (c :: w) :: ws) [[]]

/-- The longest runs of characters that do not satisfy `p`. -/
def runs (p : Char → Bool) (cs : List Char) : List (List Char) :=
  (pieces p cs).filter (!·.isEmpty)

/-- The longest runs of characters that are not blank. -/
def words (cs : List Char) : List (List Char) := runs isBlank cs

/-- A line less the carriage return that may end it. -/
def dropReturn (line : List Char) : List Char :=
  if line.getLast? = some '\r' then line.dropLast else line

/-- The lines of a text. A line feed ends a line, nothing follows a final one, and a last line
without one keeps its carriage return. -/
def lines (cs : List Char) : List (List Char) :=
  let all := pieces (· = '\n') cs
  all.dropLast.map dropReturn ++ all.getLast?.toList.filter (!·.isEmpty)

/-- The text after `start`, if the text starts with it. -/
def after? (start cs : List Char) : Option (List Char) :=
  if start.isPrefixOf cs then some (cs.drop start.length) else none

/-- Puts `new` in the place of every occurrence of `old` from the left; `skip` characters still
belong to the occurrence met last. -/
def replaceFrom (old new : List Char) : Nat → List Char → List Char
  | _, [] => []
  | skip + 1, _ :: rest => replaceFrom old new skip rest
  | 0, c :: rest =>
    if !old.isEmpty && old.isPrefixOf (c :: rest) then
      new ++ replaceFrom old new (old.length - 1) rest
    else c :: replaceFrom old new 0 rest

/-- Puts `new` in the place of every occurrence of `old`. -/
def replaced (old new s : String) : String :=
  String.ofList (replaceFrom old.toList new.toList 0 s.toList)

/-- `trim` on strings. -/
def trimmed (s : String) : String := String.ofList (trim s.toList)

/-- No character of the string is other than blank. -/
def allBlank (s : String) : Bool := s.toList.all isBlank

end Waymark.Text
