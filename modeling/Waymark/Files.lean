import Waymark.Text.Blank
import Waymark.Text.Utf8

/-!
# Files

The files below a directory, as data. A directory is there if it is named or if something lies below it.

* `Files.walk`: goes down from a directory by names;
* `Files.resolve`: follows a path with dots and slashes, which may lead out of the directory;
* `Files.readText`: the text of a file.
-/

namespace Waymark

/-- The names on the way down from the root. -/
abbrev Path := List String

/-- What stands at a path. -/
inductive Files.Entry where
  | file (bytes : List UInt8)
  | directory
  deriving DecidableEq, Repr, Inhabited

/-- Files and directories with their paths. -/
structure Files where
  entries : List (Path × Files.Entry) := []
  deriving Repr, Inhabited

namespace Files

/-- Why a path leads nowhere. -/
inductive Fault where
  /-- Nothing has this name. -/
  | missing
  /-- A file is used as a directory or a directory as a file, a name is too long or holds a character
  that no name may hold, or a text is no text. -/
  | unusable
  deriving DecidableEq, Repr

/-- What stands at a path. -/
def entry? (files : Files) (path : Path) : Option Entry :=
  match files.entries.lookup path with
  | some entry => some entry
  | none =>
    if path.isEmpty || files.entries.any fun (p, _) => path.isPrefixOf p then some .directory
    else none

/-- A file stands at the path. -/
def isFile (files : Files) (path : Path) : Bool :=
  match files.entry? path with
  | some (.file _) => true
  | _ => false

/-- A directory stands at the path. -/
def isDirectory (files : Files) (path : Path) : Bool := files.entry? path = some .directory

/-- The names directly below the root, in ascending order. -/
def names (files : Files) : List String :=
  ((files.entries.filterMap fun (p, _) => p.head?).mergeSort fun x y => !(y < x)).eraseReps

/-- The number of bytes that a name may have. -/
def longestName : Nat := 255

/-- The path of a name below a path. -/
def down (files : Files) (path : Path) (name : String) : Except Fault Path :=
  if !files.isDirectory path || name.utf8ByteSize > longestName then .error .unusable
  else if (files.entry? (path ++ [name])).isNone then .error .missing
  else .ok (path ++ [name])

/-- Goes down from a path by names. -/
def walk (files : Files) (path : Path) (names : List String) : Except Fault Path :=
  names.foldlM files.down path

/-- Where a path leads to: a place below the root, or none if it leads out. -/
abbrev Place := Option Path

/-- Follows one name of a path. Outside there is nothing but the way further up. -/
def follow (files : Files) (place : Place) (name : String) : Except Fault Place :=
  match place with
  | none =>
    if name = "" || name = "." || name = ".." then .ok none
    else if name.utf8ByteSize > longestName then .error .unusable
    else .error .missing
  | some path =>
    if name = "" || name = "." || name = ".." then
      if files.isDirectory path then
        .ok (if name = ".." then (if path.isEmpty then none else some path.dropLast) else some path)
      else .error .unusable
    else some <$> files.down path name

/-- The names in the text of a path. -/
def namesIn (path : List Char) : List String := (Text.pieces (· = '/') path).map String.ofList

/-- Where the text of a path leads to from the root. -/
def resolve (files : Files) (path : List Char) : Except Fault Place :=
  if path.contains (Char.ofNat 0) then .error .unusable
  else (namesIn path).foldlM files.follow (some [])

/-- The text of the file at a path. -/
def readText (files : Files) (path : Path) : Except Fault String :=
  match files.entry? path with
  | some (.file bytes) => match Text.decode? bytes with
    | some text => .ok text
    | none => .error .unusable
  | some .directory => .error .unusable
  | none => .error .missing

end Files

end Waymark
