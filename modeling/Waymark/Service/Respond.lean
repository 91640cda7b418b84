import Waymark.Landmark.Extraction
import Waymark.Service.App
import Waymark.Service.Exchange
import Waymark.Service.Route
import Waymark.View.Build
import Waymark.View.Select
import Waymark.Wire.View

/-!
# Responding to requests

* `App.answer`: the response of a route;
* `App.respond`: the response to a request.
-/

namespace Waymark.Service

open Json Decoder
open Number (Double)

/-- What is asked when formulas are to be compiled into a task. -/
structure CompileRequest where
  formulas : List (Translation.Candidate Double) := []
  /-- The path of the domain. -/
  domain : String := ""
  /-- The path of the problem. -/
  problem : String := ""

/-- Reads what is asked when formulas are to be compiled into a task. -/
def CompileRequest.decode : Decoder CompileRequest :=
  record {} [
    field "formulas" .required (list Translation.Candidate.decode)
      fun r x => { r with formulas := x },
    field "domain" .required text fun r x => { r with domain := x },
    field "problem" .required text fun r x => { r with problem := x }]

/-- Reads the utterance whose formulas are to be ranked. -/
def decodeUtterance : Decoder String :=
  record "" [field "utterance" .defaulted text fun _ x => x]

/-- The view of a flow. -/
def Flow.view (flow : Flow) (r : View.Request Double) : Except Failure (View Double) := do
  View.require (← match flow with
    | .select => View.select r
    | .forward => View.build r .forward
    | .backward => View.build r .backward)

/-- The text of an upload. -/
def uploaded (bytes : List UInt8) : Except Failure String :=
  match Text.fault? bytes, Text.decode? bytes with
  | none, some content => .ok content
  | some (valid, wrong), _ => .error (.input (.upload valid wrong))
  | none, none => .error (.input (.upload 0 none))

namespace App

/-- What identifies the parts of the service. -/
def healthReport (app : App) : Json :=
  .object [("status", .text "ok"), ("translator", .text app.translator.name),
    ("planner", .text app.planner.name), ("prompt_fingerprint", .text app.prompt.fingerprint)]

/-- The plans for a task. -/
def plans (app : App) (task : Planning.TaskText) : Except Failure Json :=
  (fun found => .object [("plans", Plan.encodeAll found)]) <$> app.planner.plans task

/-- Compiles formulas into a task of the store and plans for the result. -/
def compile (app : App) (toolName : String) (r : CompileRequest) : Except Failure Json := do
  let tool ← Encoding.Tool.read toolName
  let task ← app.store.readTask r.domain r.problem
  Scenario.encode <$> app.planner.solve task r.formulas tool

/-- The text of a parameter, or the response that refuses it. -/
def parameter (raw : List Char) : Except Response String :=
  match parameterText? raw with
  | some value => .ok value
  | none => .error (.bare 400)

/-- The response of a route, as what refuses the request or what answers it. -/
def answer (app : App) (route : Route) (r : Request) : Except Response Response := do
  match route with
  | .greeting => return ⟨200, .text "Hello Lemming!"⟩
  | .health => return .ok app.healthReport
  | .scenarios => return .ok (ofList .text app.store.names)
  | .scenario name =>
    let name ← parameter name
    return .of (Scenario.encode <$> app.store.load name)
  | .upload =>
    match uploaded (← r.bytes) with
    | .ok content => return ⟨200, .text content⟩
    | .error failure => return .failed failure
  | .plans =>
    let task ← r.decode Planning.TaskText.decode
    return .of (app.plans task)
  | .landmarks category =>
    let category ← parameter category
    let task ← r.decode Planning.TaskText.decode
    return .of (Landmark.Graph.encode <$> Landmark.extractText Double task category)
  | .view flow =>
    let request ← r.decode View.Request.decode
    return .of (View.encode <$> flow.view request)
  | .rank =>
    let utterance ← r.decode decodeUtterance
    return .of (ofList Translation.Candidate.encode <$>
      Translation.rank app.translator app.prompt utterance)
  | .compile tool =>
    let tool ← parameter tool
    let request ← r.decode CompileRequest.decode
    return .of (app.compile tool request)

/-- The response of a route. -/
def answerOrRefuse (app : App) (route : Route) (r : Request) : Response :=
  match app.answer route r with
  | .ok response => response
  | .error refusal => refusal

/-- A response to one who wants to know about a body but not to have it. -/
def headOf (response : Response) : Response :=
  match response.body with
  | .text _ => ⟨response.status, .text ""⟩
  | _ => .bare response.status

/-- The response to a request. Whatever the path, clients may ask what is allowed. -/
def respond (app : App) (r : Request) : Response :=
  if r.method = "OPTIONS" then ⟨200, .text ""⟩
  else match Route.of? r.path with
    | none => .bare 404
    | some route =>
      if r.method = route.method then app.answerOrRefuse route r
      else if r.method = "HEAD" && route.method = "GET" then headOf (app.answerOrRefuse route r)
      else .bare 405

end App

end Waymark.Service
