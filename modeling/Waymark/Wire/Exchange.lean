import Waymark.Service.Exchange

/-!
# Requests and responses in JSON

* `Service.Request.decode`: a request whose body is text;
* `Service.Response.encode`: a response.
-/

namespace Waymark.Service

open Json

/-- A request while its fields are read. -/
structure RequestFields where
  method : String := ""
  target : String := ""
  mediaType : Option String := none
  body : String := ""

/-- Reads a request. A body that is not marked is taken for JSON. -/
def Request.decodeLine : Decoder Request := fun value => do
  let fields ← Decoder.record {} [
    Decoder.field "method" .required .text fun (r : RequestFields) x => { r with method := x },
    Decoder.field "target" .required .text fun r x => { r with target := x },
    Decoder.field "media_type" .defaulted (.optional .text) fun r x => { r with mediaType := x },
    Decoder.field "body" .defaulted .text fun r x => { r with body := x }] value
  match Request.make? fields.method fields.target (fields.mediaType.getD "application/json")
      fields.body.toUTF8.toList with
  | some request => return request
  | none => throw .mismatch

/-- Writes a body. -/
def Body.encode : Body → Json
  | .nothing => .null
  | .text content => .text content
  | .json value => value

/-- Writes a response. -/
def Response.encode (r : Response) : Json :=
  .object [("status", ofNat r.status), ("body", r.body.encode)]

end Waymark.Service
