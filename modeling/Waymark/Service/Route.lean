import Waymark.Text.Blank
import Waymark.Text.Hex
import Waymark.Text.Utf8

/-!
# Routes

The paths that the service knows, each with one method. A path may hold one parameter, in which a percent
sign with two digits stands for a byte.

* `Route.of?`: the route of a path;
* `Route.method`: its method.
-/

namespace Waymark.Service

/-- The views that can be asked for. -/
inductive Flow where
  | select
  | forward
  | backward
  deriving DecidableEq, Repr

/-- What can be asked for. A parameter is as it stands in the path. -/
inductive Route where
  | greeting
  | health
  | scenarios
  | scenario (name : List Char)
  | upload
  | plans
  | landmarks (category : List Char)
  | view (flow : Flow)
  | rank
  | compile (tool : List Char)
  deriving DecidableEq, Repr

namespace Route

/-- The routes without a parameter, by their paths. -/
def fixed : List (String × Route) :=
  [("", .greeting), ("health", .health), ("scenarios", .scenarios), ("file_upload", .upload),
    ("get_plans", .plans), ("nl2ltl", .rank), ("generate_select_view", .view .select),
    ("generate_build_forward", .view .forward), ("generate_build_backward", .view .backward),
    ("generate_nl2ltl_integration", .view .select)]

/-- The routes with a parameter, by what stands before it. -/
def open_ : List (String × (List Char → Route)) :=
  [("import_domain", .scenario), ("get_landmarks", .landmarks), ("ltl_compile", .compile)]

/-- The route of a path. A parameter is not empty. -/
def of? (path : List Char) : Option Route :=
  match path with
  | '/' :: rest =>
    match Text.pieces (· = '/') rest with
    | [name] => fixed.lookup (String.ofList name)
    | [name, parameter] =>
      if parameter.isEmpty then none
      else (open_.lookup (String.ofList name)).map fun route => route parameter
    | _ => none
  | _ => none

/-- The method of a route. -/
def method : Route → String
  | .greeting | .health | .scenarios => "GET"
  | _ => "POST"

end Route

/-- The bytes that a part of a path stands for. -/
def percentDecoded : List UInt8 → List UInt8
  | b :: high :: low :: rest =>
    if b = 0x25 then
      match Text.hexByte? high low with
      | some byte => byte :: percentDecoded rest
      | none => b :: percentDecoded (high :: low :: rest)
    else b :: percentDecoded (high :: low :: rest)
  | rest => rest

/-- The text of a parameter, none if it is no text. -/
def parameterText? (parameter : List Char) : Option String :=
  Text.decode? (percentDecoded (String.ofList parameter).toUTF8.toList)

end Waymark.Service
