import Waymark.Failure

/-!
# Typed names

Types, objects, constants and parameters are declared as names followed by a hyphen and a type. Names
at the end of a declaration that have no type are of type `object`.

* `readTyped`: the names of a declaration;
* `typedText`: the declaration of names, in the order in which they stand.
-/

namespace Waymark.Planning

/-- The type that every name has. -/
def objectType : String := "object"

/-- A name with its declared type. -/
structure TypedName where
  name : String
  type : String
  deriving DecidableEq, Repr, Inhabited

/-- Reads a declaration, `pending` being the names that wait for their type, the last one first. -/
def readTypedFrom (pending : List String) : List Expr → Except Failure (List TypedName)
  | [] => .ok (pending.reverse.map (⟨·, objectType⟩))
  | .list xs :: _ => .error (.task (.listAmongNames (.list xs)))
  | .atom a :: rest =>
    if a = "-" then
      match rest with
      | .atom type :: rest =>
        if pending.isEmpty then .error (.task (.typeWithoutNames type))
        else (pending.reverse.map (⟨·, type⟩) ++ ·) <$> readTypedFrom [] rest
      | .list (.atom "either" :: _) :: _ => .error (.unsupported .eitherTypes)
      | _ => .error (.task .noType)
    else readTypedFrom (a :: pending) rest

/-- Reads a declaration of typed names. -/
def readTyped (items : List Expr) : Except Failure (List TypedName) := readTypedFrom [] items

/-- The words of a declaration. With `typed`, the last of several neighbours of one type is followed
by it. -/
def typedWords (typed : Bool) : List TypedName → List String
  | [] => []
  | [x] => x.name :: if typed then ["-", x.type] else []
  | x :: y :: rest =>
    x.name :: ((if typed && x.type ≠ y.type then ["-", x.type] else []) ++
      typedWords typed (y :: rest))

/-- The text of a declaration. Types are written if one of them is not `object`. -/
def typedText (names : List TypedName) : String :=
  " ".intercalate (typedWords (names.any (·.type ≠ objectType)) names)

end Waymark.Planning
