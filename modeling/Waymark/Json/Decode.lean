import Waymark.Json.Reader

/-!
# Decoding JSON into records

A decoder turns a JSON value into a value of a type. Faults are reported in the order of the text:
where the text is broken before a value has the wrong shape, the answer is that it is broken.

A record is an object with its fields, or an array of its fields in their order. Unknown members are
passed over, no field may stand twice, and each field says what its absence means.

* `Decoder`: a function from values to results;
* `Field`: one field of a record;
* `record`: the decoder of a record from its fields.
-/

namespace Waymark.Json

/-- Why a value was not decoded. -/
inductive Fault where
  /-- The text is not JSON at this place. -/
  | malformed
  /-- The value has another shape than the type asks for. -/
  | mismatch
  deriving DecidableEq, Repr

/-- A function from JSON values to the values of a type. -/
abbrev Decoder (α : Type) := Json → Except Fault α

namespace Decoder

/-- The fault of a value that has the wrong shape, or that could not be read at all. -/
def mismatchOf : Json → Fault
  | .flawed _ => .malformed
  | _ => .mismatch

/-- A string. -/
def text : Decoder String
  | .text s => pure s
  | j => throw (mismatchOf j)

/-- A truth value. -/
def flag : Decoder Bool
  | .bool b => pure b
  | j => throw (mismatchOf j)

/-- A natural number of 64 bits, written as an integer. -/
def count : Decoder Nat
  | .int n => if 0 ≤ n then pure n.toNat else throw .mismatch
  | j => throw (mismatchOf j)

/-- The double nearest to an integer. -/
def floatOfInt (n : Int) : Float :=
  let x := Number.nearest n.natAbs 1
  if n < 0 then -x else x

/-- A number. -/
def number : Decoder Float
  | .int n => pure (floatOfInt n)
  | .float x => pure x
  | j => throw (mismatchOf j)

/-- A value, or null for none. -/
def optional {α : Type} (item : Decoder α) : Decoder (Option α)
  | .null => pure none
  | j => some <$> item j

/-- An array of values. -/
def list {α : Type} (item : Decoder α) : Decoder (List α)
  | .array items => items.mapM item
  | j => throw (mismatchOf j)

/-- One of several words. The word may also be the key of an object whose one member is null. -/
def word {α : Type} (words : List (String × α)) (j : Json) : Except Fault α :=
  let find (s : String) : Except Fault α := match words.lookup s with
    | some x => pure x
    | none => throw .mismatch
  match j with
  | .text s => find s
  | .object ((_, .keyless key _) :: _) => throw (mismatchOf key)
  | .object [(key, .null)] => find key
  | .object ((key, .null) :: _) => do
    let _ ← find key
    throw .malformed
  | .object ((key, value) :: _) => do
    let _ ← find key
    throw (mismatchOf value)
  | _ => throw .malformed

/-- What it means that a field is absent. -/
inductive Presence where
  /-- The record is refused. -/
  | required
  /-- The field keeps its first value, in objects only. -/
  | omittable
  /-- The field keeps its first value. -/
  | defaulted
  deriving DecidableEq, Repr

/-- A field of a record. -/
structure Field (σ : Type) where
  name : String
  presence : Presence
  /-- Decodes the field into the record. -/
  store : Json → σ → Except Fault σ

/-- The field whose value `set` puts into the record. -/
def field {σ α : Type} (name : String) (presence : Presence) (item : Decoder α) (set : σ → α → σ) :
    Field σ :=
  ⟨name, presence, fun j record => set record <$> item j⟩

/-- Decodes the members of an object, `seen` being the names of the fields met before. -/
def storeMembers {σ : Type} (fields : List (Field σ)) :
    List (String × Json) → List String → σ → Except Fault (List String × σ)
  | [], seen, record => pure (seen, record)
  | (_, .keyless _ _) :: _, _, _ => throw .malformed
  | (key, value) :: rest, seen, record =>
    match fields.find? (·.name == key) with
    | none =>
      if value.isComplete then storeMembers fields rest seen record else throw .malformed
    | some f =>
      if seen.contains key then throw .mismatch
      else do storeMembers fields rest (key :: seen) (← f.store value record)

/-- Decodes the items of an array in the order of the fields. -/
def storeItems {σ : Type} : List (Field σ) → List Json → σ → Except Fault σ
  | [], [], record => pure record
  | [], _ :: _, _ => throw .malformed
  | f :: fields, [], record =>
    if f.presence = .defaulted then storeItems fields [] record else throw .mismatch
  | f :: fields, j :: items, record => do storeItems fields items (← f.store j record)

/-- A record with the given fields, `start` being the record without any. -/
def record {σ : Type} (start : σ) (fields : List (Field σ)) : Decoder σ
  | .object members => do
    let (seen, found) ← storeMembers fields members [] start
    if fields.all fun f => f.presence != .required || seen.contains f.name then pure found
    else throw .mismatch
  | .array items => storeItems fields items start
  | j => throw (mismatchOf j)

end Decoder

end Waymark.Json
