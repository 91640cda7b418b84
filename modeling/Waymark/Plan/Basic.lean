import Waymark.Digest
import Waymark.Text.Blank
import Waymark.Text.Lower

/-!
# Plans

A plan is a sequence of ground actions with a cost. Two action texts are the same action if they differ
only in case, blanks and outer parentheses, and two plans are the same plan if their actions are. A
digest of the actions identifies a plan.

* `normalized`: the one text of an action;
* `fingerprint`: the digest of a sequence of actions;
* `distinct`: the first of each plan in a list, with its digest.
-/

namespace Waymark

/-- A sequence of ground actions, its cost, and the digest of its actions if it is known. -/
structure Plan (κ : Type) where
  actions : List String
  cost : κ
  hash : Option String := none
  deriving Inhabited

namespace Plan

/-! ## Actions -/

/-- A text less the parentheses around it. -/
def withoutParentheses (cs : List Char) : List Char :=
  match cs with
  | '(' :: inner => if inner.getLast? = some ')' then inner.dropLast else cs
  | _ => cs

/-- The words of an action, in lower case. -/
def actionWords (action : String) : List String :=
  (Text.words (withoutParentheses (Text.trim action.toList))).map fun w => .ofList (Text.lower w)

/-- The one text of an action: its words in lower case with a space between them. -/
def normalized (action : String) : String := " ".intercalate (actionWords action)

/-! ## Identity -/

/-- A text with its length in front. -/
def measured (s : String) : List UInt8 :=
  let bytes := s.toUTF8
  Digest.littleEndian 8 bytes.size ++ bytes.data.toList

/-- The bytes that identify a sequence of actions: their number, and each of them with its length. -/
def identity (actions : List String) : List UInt8 :=
  Digest.littleEndian 8 actions.length ++ actions.flatMap fun a => measured (normalized a)

/-- The digest of a sequence of actions. -/
def fingerprint (actions : List String) : String :=
  Digest.sha256Hex ⟨(identity actions).toArray⟩

/-- The beginning of a digest. -/
def short (hash : String) : String := String.ofList (hash.toList.take 16)

variable {κ : Type}

/-- The plan with the digest of its actions. -/
def hashed (p : Plan κ) : Plan κ := { p with hash := some (fingerprint p.actions) }

/-- The plans of a list whose digests are not among those seen, each digest once. -/
def distinctFrom (seen : List String) : List (Plan κ) → List (Plan κ)
  | [] => []
  | p :: rest =>
    let hash := fingerprint p.actions
    if seen.contains hash then distinctFrom seen rest
    else { p with hash := some hash } :: distinctFrom (hash :: seen) rest

/-- The first of each plan in a list, with its digest. -/
def distinct (plans : List (Plan κ)) : List (Plan κ) := distinctFrom [] plans

end Plan

end Waymark
