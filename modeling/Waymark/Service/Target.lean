import Waymark.Text.Blank

/-!
# Request targets

A target is a path, which starts with a slash, or a scheme and an authority with a path after them, or an
authority alone. A question mark ends the path and starts a query, and a number sign ends what counts.

* `Target.isAuthority`: a text names a host, with what may stand around it;
* `Target.path?`: the path of a target, none if the text is no target.
-/

namespace Waymark.Service

namespace Target

/-- The longest target, in bytes. -/
def maxBytes : Nat := 65534

/-- The longest scheme. -/
def maxScheme : Nat := 64

/-- A character that may stand in a scheme. -/
def isSchemeChar (c : Char) : Bool := c.isAlphanum || "+-.~".toList.contains c

/-- A character that may stand in an authority, where nothing else is asked of it. -/
def isAuthorityChar (c : Char) : Bool := c.isAlphanum || "!$&'()*+,-.;=_~".toList.contains c

/-- A character that may stand in a path. -/
def isPathChar (c : Char) : Bool := 0x20 < c.toNat && !"#<>?`".toList.contains c

/-- A character that may stand in a query. -/
def isQueryChar (c : Char) : Bool := 0x20 < c.toNat && !"\"#<>".toList.contains c

/-- The character ends an authority. -/
def endsAuthority (c : Char) : Bool := c = '/' || c = '?' || c = '#'

/-! ## Authorities -/

/-- How far an authority has been read. -/
structure Authority where
  /-- The colons since the last at sign or closing bracket. -/
  colons : Nat := 0
  /-- A percent sign has come since then. -/
  hasPercent : Bool := false
  opened : Bool := false
  closed : Bool := false
  /-- The last character was an at sign. -/
  hostMissing : Bool := false
  deriving DecidableEq, Repr

/-- Reads one more character of an authority. None if it may not stand there. -/
def Authority.next (a : Authority) (c : Char) : Option Authority :=
  let a := { a with hostMissing := false }
  match c with
  | ':' => if a.colons < 8 then some { a with colons := a.colons + 1 } else none
  | '[' => if a.hasPercent || a.opened then none else some { a with opened := true }
  | ']' =>
    if !a.opened || a.closed then none
    else some { a with closed := true, colons := 0, hasPercent := false }
  | '@' => some { a with hostMissing := true, colons := 0, hasPercent := false }
  | '%' => some { a with hasPercent := true }
  | c => if isAuthorityChar c then some a else none

/-- An authority may end here: a bracket that was opened was closed, at most one colon follows the name of
the host, and an escape stands only in the name of a user. -/
def Authority.mayEnd (a : Authority) : Bool :=
  a.opened == a.closed && a.colons ≤ 1 && !a.hasPercent && !a.hostMissing

/-- The text names a host, with what may stand around it. -/
def isAuthority (cs : List Char) : Bool :=
  !cs.isEmpty && (cs.foldlM Authority.next {}).any Authority.mayEnd

/-! ## Paths -/

/-- The path at the start of a text whose rest is a query, a fragment, or nothing. -/
def leadingPath? (cs : List Char) : Option (List Char) :=
  let path := cs.takeWhile isPathChar
  match cs.drop path.length with
  | [] | '#' :: _ => some path
  | '?' :: query =>
    match query.dropWhile isQueryChar with
    | [] | '#' :: _ => some path
    | _ => none
  | _ => none

/-- What follows the scheme of a target and the slashes after it. -/
def afterScheme? (cs : List Char) : Option (List Char) :=
  let scheme := cs.takeWhile isSchemeChar
  if scheme.length ≤ maxScheme then Text.after? "://".toList (cs.drop scheme.length) else none

/-- The path of a target. With a scheme, no path is the path of the root. -/
def path? (target : String) : Option (List Char) :=
  if maxBytes < target.utf8ByteSize then none
  else match target.toList with
    | '/' :: rest => leadingPath? ('/' :: rest)
    | ['*'] => some ['*']
    | cs =>
      match afterScheme? cs with
      | none => if isAuthority cs then some [] else none
      | some rest =>
        let authority := rest.takeWhile (!endsAuthority ·)
        if isAuthority authority then
          (leadingPath? (rest.drop authority.length)).map fun path =>
            if path.isEmpty then ['/'] else path
        else none

end Target

end Waymark.Service
