import Waymark.Service.Respond
import Waymark.Wire.Exchange

/-!
# The service on the standard streams

The arguments are the options of the service. The first line of the input holds the files of the store, as
a JSON object from paths to texts; every other line is a request, and is answered by one line.
-/

namespace Waymark.Service

open Json

/-- The files that the first line of the input holds. -/
def filesOf (line : String) : Files :=
  match Json.parse? line with
  | some (.object members) =>
    ⟨members.map fun (path, content) =>
      ((Files.namesIn path.toList).filter (· ≠ ""),
        match content with
        | .text content => .file content.toUTF8.toList
        | _ => .directory)⟩
  | _ => {}

/-- The line that answers a request. -/
def answerLine (app : App) (line : String) : String :=
  let response := match (Json.parse? line).map Request.decodeLine with
    | some (.ok request) => app.respond request
    | _ => .bare 400
  response.encode.write

/-- Answers requests until the input ends. -/
partial def serve (app : App) (input output : IO.FS.Stream) : IO Unit := do
  let line ← input.getLine
  unless line.isEmpty do
    output.putStrLn (answerLine app line)
    output.flush
    serve app input output

/-- Starts the service and answers requests. Arguments that give no options are told by the code 2, a
service that does not start by the code 1. -/
def run (arguments : List String) : IO UInt32 := do
  let errors ← IO.getStderr
  match Options.read arguments with
  | .error fault =>
    errors.putStrLn fault.message
    return 2
  | .ok options =>
    let input ← IO.getStdin
    let store : Store := ⟨options.dataDirectory, filesOf (← input.getLine)⟩
    match App.start options .isolated store with
    | .error fault =>
      errors.putStrLn fault.message
      return 1
    | .ok app =>
      serve app input (← IO.getStdout)
      return 0

end Waymark.Service

/-- Runs the service on the standard streams. -/
def main (arguments : List String) : IO UInt32 := Waymark.Service.run arguments
