/-!
# JSON values

A JSON value as it stands in a text. Objects keep the order and the repetitions of their keys, and
numbers keep whether they were written as integers. A place that could not be read is part of the
value, so that what stands before it can still be used:

* `Flaw.broken`: the text goes no further than this place;
* `Flaw.unusable`: a string or a number that has no value, which matters only to its reader;
* `Json.keyless`: a member whose key is no text, which matters only to those who look at keys.
-/

namespace Waymark

/-- Why a place of a JSON text has no value. -/
inductive Json.Flaw where
  /-- The text breaks the grammar here, and nothing after it is read. -/
  | broken
  /-- A string that is not text, or a number beyond every double. -/
  | unusable
  deriving DecidableEq, Repr, Inhabited

/-- A JSON value. -/
inductive Json where
  | null
  | bool (value : Bool)
  /-- A number written without fraction and exponent that fits 64 bits. -/
  | int (value : Int)
  /-- Any other number. -/
  | float (value : Float)
  | text (value : String)
  | array (items : List Json)
  | object (members : List (String × Json))
  /-- A place without a value. -/
  | flawed (flaw : Json.Flaw)
  /-- What stands in the place of a key that is no text, and the value of that key. In an object it is the
  value of a member with an empty key. -/
  | keyless (key value : Json)
  deriving Inhabited

namespace Json

/-- The array of the images of a list. -/
def ofList {α : Type} (f : α → Json) (xs : List α) : Json := .array (xs.map f)

/-- A value or null. -/
def ofOption {α : Type} (f : α → Json) : Option α → Json
  | none => .null
  | some x => f x

/-- A natural number. -/
def ofNat (n : Nat) : Json := .int n

/-- The last member of an object with a given key. -/
def member? (key : String) : Json → Option Json
  | .object members => (members.reverse.find? (·.1 == key)).map (·.2)
  | _ => none

/-- The value as a string. -/
def text? : Json → Option String
  | .text s => some s
  | _ => none

mutual

/-- The text of the value was read to its end. -/
def isComplete : Json → Bool
  | .flawed .broken => false
  | .array items => allComplete items
  | .object members => membersComplete members
  | .keyless _ value => value.isComplete
  | _ => true

/-- All the items were read to their ends. -/
def allComplete : List Json → Bool
  | [] => true
  | x :: rest => x.isComplete && allComplete rest

/-- All the members were read to their ends. -/
def membersComplete : List (String × Json) → Bool
  | [] => true
  | (_, x) :: rest => x.isComplete && membersComplete rest

end

mutual

/-- The value has no flaw, and its arrays and objects are nested at most `depth` deep. -/
def isSound (depth : Nat) : Json → Bool
  | .flawed _ => false
  | .keyless _ _ => false
  | .array items => match depth with
    | 0 => false
    | depth + 1 => allSound depth items
  | .object members => match depth with
    | 0 => false
    | depth + 1 => membersSound depth members
  | _ => true

/-- All the items are sound. -/
def allSound (depth : Nat) : List Json → Bool
  | [] => true
  | x :: rest => x.isSound depth && allSound depth rest

/-- All the members are sound. -/
def membersSound (depth : Nat) : List (String × Json) → Bool
  | [] => true
  | (_, x) :: rest => x.isSound depth && membersSound depth rest

end

end Json

end Waymark
