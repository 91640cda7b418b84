/-!
# Media types

The name of a format: a type, a subtype, and parameters after semicolons. A subtype may end in a suffix
that names the format on which it is built.

* `MediaType.read?`: the media type that a text names;
* `MediaType.isJson`: the text names JSON or a format built on it.
-/

namespace Waymark.Service

/-- A media type in lower case, without its parameters. -/
structure MediaType where
  type : String
  subtype : String
  /-- What follows the last plus sign of the subtype. -/
  suffix : Option String
  deriving DecidableEq, Repr

namespace MediaType

/-- A character that may stand in a word. -/
def isTokenChar (c : Char) : Bool := c.isAlphanum || "!#$%&'*+-.^_`|~".toList.contains c

/-- A character that may stand between quotes. -/
def isQuotedChar (c : Char) : Bool := 32 ≤ c.toNat && c.toNat < 127

/-- Where the reading of parameters is. -/
inductive Position where
  /-- Before a name, where blanks may stand. -/
  | start
  | name
  /-- Directly after an equals sign. -/
  | value
  | word
  /-- Directly after an opening quote. -/
  | opened
  | quoted
  | closed
  deriving DecidableEq, Repr

/-- The position after one more character, none if it may not stand there. -/
def Position.next (p : Position) (c : Char) : Option Position :=
  match p with
  | .start => if c = ' ' then some .start else if isTokenChar c then some .name else none
  | .name => if c = '=' then some .value else if isTokenChar c then some .name else none
  | .value => if c = '"' then some .opened else if isTokenChar c then some .word else none
  | .word => if c = ';' then some .start else if isTokenChar c then some .word else none
  | .opened => if isQuotedChar c then some .quoted else none
  | .quoted => if c = '"' then some .closed else if isQuotedChar c then some .quoted else none
  | .closed => if c = ';' then some .start else if c = ' ' then some .closed else none

/-- Parameters may end here. -/
def Position.mayEnd : Position → Bool
  | .start | .value | .word | .closed => true
  | .name | .opened | .quoted => false

/-- The text lists parameters. -/
def areParameters (cs : List Char) : Bool := (cs.foldlM Position.next .start).any Position.mayEnd

/-- A word in lower case. -/
def lowerWord (cs : List Char) : String := String.ofList (cs.map Char.toLower)

/-- A subtype cut at its last plus sign, unless it starts there. -/
def splitSuffix (cs : List Char) : List Char × Option (List Char) :=
  let suffix := (cs.reverse.takeWhile (· ≠ '+')).reverse
  let before := cs.take (cs.length - suffix.length - 1)
  if cs.length = suffix.length || before.isEmpty then (cs, none) else (before, some suffix)

/-- The media type that a text names. -/
def read? (text : String) : Option MediaType :=
  let cs := text.toList
  let type := cs.takeWhile isTokenChar
  match cs.dropWhile isTokenChar with
  | '/' :: rest =>
    let word := rest.takeWhile isTokenChar
    let parameters := match rest.dropWhile isTokenChar with
      | [] => true
      | ';' :: parameters => !word.isEmpty && areParameters parameters
      | _ => false
    let (subtype, suffix) := splitSuffix word
    if !type.isEmpty && parameters then
      some ⟨lowerWord type, lowerWord subtype, suffix.map lowerWord⟩
    else none
  | _ => none

/-- The text names JSON, or a format built on it. -/
def isJson (text : String) : Bool :=
  match read? text with
  | some m => m.type == "application" && (m.subtype == "json" || m.suffix == some "json")
  | none => false

end MediaType

end Waymark.Service
