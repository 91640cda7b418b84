import Waymark.Failure
import Waymark.Json.Decode
import Waymark.Service.MediaType
import Waymark.Service.Target

/-!
# Requests and responses

A request names a method and a path, and may carry a body with the name of its format. A response is a
status with a body.

* `Request.make?`: the request that texts make up;
* `Request.decode`: the JSON value that the body holds, or the response that refuses it.
-/

namespace Waymark.Service

/-- A request. -/
structure Request where
  method : String
  path : List Char
  mediaType : Option String := none
  body : List UInt8 := []

/-- The text can name a method. -/
def isMethod (text : String) : Bool := !text.isEmpty && text.toList.all MediaType.isTokenChar

/-- The text can stand in a header: it has no control character but the tab. -/
def isHeaderText (text : String) : Bool :=
  text.toList.all fun c => c = '\t' || 0x20 ≤ c.toNat && c.toNat ≠ 0x7F

/-- The request that texts make up. None if one of them cannot stand in a request. -/
def Request.make? (method target : String) (mediaType : Option String) (body : List UInt8) :
    Option Request :=
  if isMethod method && mediaType.all isHeaderText then
    (Target.path? target).map fun path => { method, path, mediaType, body }
  else none

/-- The body of a response. -/
inductive Body where
  | nothing
  | text (text : String)
  | json (value : Json)

/-- A response. -/
structure Response where
  status : Nat
  body : Body

/-- A response without a body. -/
def Response.bare (status : Nat) : Response := ⟨status, .nothing⟩

/-- The response to a request that succeeded with a JSON value. -/
def Response.ok (value : Json) : Response := ⟨200, .json value⟩

/-- The response to a request that failed. -/
def Response.failed (failure : Failure) : Response :=
  ⟨failure.status, .json (.object [("error", .text failure.kind.name),
    ("detail", .text failure.message)])⟩

/-- The response to a request that succeeded or failed. -/
def Response.of : Except Failure Json → Response
  | .ok value => .ok value
  | .error failure => .failed failure

/-- The longest body that is read, in bytes. -/
def maxBody : Nat := 2 * 1024 * 1024

/-- The bytes of the body, unless there are too many. -/
def Request.bytes (r : Request) : Except Response (List UInt8) :=
  if r.body.length ≤ maxBody then .ok r.body else .error (.bare 413)

/-- The value that the body holds. It must be marked as JSON; text after the value is passed over. -/
def Request.decode {α : Type} (r : Request) (decoder : Json.Decoder α) : Except Response α :=
  if r.mediaType.any MediaType.isJson then do
    match decoder (Json.read (← r.bytes)).1 with
    | .ok x => .ok x
    | .error .malformed => .error (.bare 400)
    | .error .mismatch => .error (.bare 422)
  else .error (.bare 415)

end Waymark.Service
