import Waymark.Number.Decimal
import Waymark.Plan.Search

/-!
# Command-line options

Every option has a long name and a value, in the argument after it or after an equals sign. A value in an
argument of its own does not start with a hyphen, unless it is a hyphen. No option may be given twice, and
nothing else may be given but a request for help.

An option whose value stands in an argument of its own is stored when the next option or the end is
reached, so that of two faults the later one may be the one that is reported.

* `Options.read`: the options that some arguments give.
-/

namespace Waymark.Service

/-- The ways to choose a translator. -/
inductive TranslatorChoice where
  /-- A model if there is a key for it, cue phrases otherwise. -/
  | auto
  | openai
  | cue
  deriving DecidableEq, Repr

/-- The ways to choose a planner. -/
inductive PlannerChoice where
  | grounded
  | external
  deriving DecidableEq, Repr

/-- What the service is told when it starts. -/
structure Options (κ : Type) where
  bindAddress : String := "0.0.0.0:8000"
  dataDirectory : String := "data"
  promptScenario : Option String := none
  translator : TranslatorChoice := .auto
  apiKey : Option String := none
  model : Option String := none
  planner : PlannerChoice := .grounded
  plannerCommand : Option String := none
  bounds : Plan.Bounds κ

/-- Why arguments give no options. -/
inductive OptionFault where
  | unknown
  /-- A value is missing, or is none of those that are possible. -/
  | badValue
  /-- A value is no number. -/
  | notANumber
  /-- An option is given twice. -/
  | repeated
  /-- A value is given to what takes none. -/
  | strayValue
  /-- Help is asked for. -/
  | help
  deriving DecidableEq, Repr

/-- The text of an option fault. -/
def OptionFault.message : OptionFault → String
  | .unknown => "unknown argument"
  | .badValue => "an option has no value or an impossible one"
  | .notANumber => "an option needs a number"
  | .repeated => "an option is given twice"
  | .strayValue => "a value is given to what takes none"
  | .help => "help is asked for"

variable {κ : Type}

/-- An option, and how its value is stored. -/
structure Setting (κ : Type) where
  name : String
  store : String → Options κ → Except OptionFault (Options κ)

/-- A value that is one of some words. -/
def wordValue {α : Type} (words : List (String × α)) (value : String) : Except OptionFault α :=
  match words.lookup value with
  | some x => .ok x
  | none => .error .badValue

/-- A value that is a number. -/
def numberValue {α : Type} (read? : List Char → Option α) (value : String) : Except OptionFault α :=
  match read? value.toList with
  | some x => .ok x
  | none => .error .notANumber

/-- The options. -/
def settings [Number.Scale κ] : List (Setting κ) :=
  [⟨"bind-addr", fun v o => .ok { o with bindAddress := v }⟩,
   ⟨"data-dir", fun v o =>
      if v.isEmpty then .error .badValue else .ok { o with dataDirectory := v }⟩,
   ⟨"prompt-scenario", fun v o => .ok { o with promptScenario := some v }⟩,
   ⟨"translator", fun v o => do
      let choice ← wordValue [("auto", .auto), ("openai", .openai), ("cue", .cue)] v
      return { o with translator := choice }⟩,
   ⟨"openai-api-key", fun v o => .ok { o with apiKey := some v }⟩,
   ⟨"openai-model", fun v o => .ok { o with model := some v }⟩,
   ⟨"planner", fun v o => do
      let choice ← wordValue [("grounded", .grounded), ("external", .external)] v
      return { o with planner := choice }⟩,
   ⟨"planner-cmd", fun v o => .ok { o with plannerCommand := some v }⟩,
   ⟨"topq-quality", fun v o => do
      return { o with bounds.quality := ← numberValue Number.Scale.read? v }⟩,
   ⟨"topq-max-plans", fun v o => do
      return { o with bounds.maxPlans := ← numberValue Number.readWord? v }⟩,
   ⟨"max-expansions", fun v o => do
      return { o with bounds.maxExpansions := ← numberValue Number.readWord? v }⟩]

/-! ## Arguments -/

/-- The forms of arguments. -/
inductive Argument where
  /-- Two hyphens: all that follows is no option. -/
  | terminator
  /-- An option by its long name, with the value after an equals sign. -/
  | long (name : String) (value : Option String)
  /-- An option by a letter. -/
  | short (letter : Char)
  /-- Anything else. -/
  | word (text : String)
  deriving DecidableEq, Repr

/-- The form of an argument. -/
def Argument.of (text : String) : Argument :=
  match text.toList with
  | ['-', '-'] => .terminator
  | '-' :: '-' :: rest =>
    let name := String.ofList (rest.takeWhile (· ≠ '='))
    match rest.dropWhile (· ≠ '=') with
    | _ :: value => .long name (some (String.ofList value))
    | [] => .long name none
  | '-' :: letter :: _ => .short letter
  | _ => .word text

/-- How far the reading of arguments has come. -/
structure Reading (κ : Type) where
  options : Options κ
  /-- The names of the options that are stored. -/
  given : List String := []
  /-- The option met last, with its value if it has come. -/
  pending : Option (Setting κ × Option String) := none

namespace Reading

/-- Stores an option. -/
def store (r : Reading κ) (s : Setting κ) (value : String) : Except OptionFault (Reading κ) := do
  if r.given.contains s.name then throw .repeated
  return { r with options := ← s.store value r.options, given := s.name :: r.given }

/-- Stores the option met last. It must have its value. -/
def settle (r : Reading κ) : Except OptionFault (Reading κ) :=
  match r.pending with
  | none => .ok r
  | some (s, some value) => { r with pending := none }.store s value
  | some (_, none) => .error .badValue

/-- Asks for help, unless the option met last is at fault. -/
def help (r : Reading κ) : Except OptionFault (Reading κ) := do
  let _ ← r.settle
  throw .help

/-- Takes one argument in. -/
def take [Number.Scale κ] (r : Reading κ) (argument : Argument) :
    Except OptionFault (Reading κ) :=
  match argument with
  | .terminator => .ok r
  | .long "help" none => r.help
  | .long "help" (some _) => .error .strayValue
  | .long name value =>
    match settings.find? fun (s : Setting κ) => s.name == name with
    | none => .error .unknown
    | some s => do
      let r ← r.settle
      match value with
      | some value => r.store s value
      | none => return { r with pending := some (s, none) }
  | .short letter => if letter = 'h' then r.help else .error .unknown
  | .word text =>
    match r.pending with
    | some (s, none) => .ok { r with pending := some (s, some text) }
    | _ => .error .unknown

/-- Takes arguments in. Nothing may follow two hyphens. -/
def takeAll [Number.Scale κ] (r : Reading κ) : List String → Except OptionFault (Reading κ)
  | [] => r.settle
  | text :: rest =>
    match Argument.of text, rest with
    | .terminator, [] => r.settle
    | .terminator, _ :: _ => .error .unknown
    | argument, rest => do takeAll (← r.take argument) rest

end Reading

/-- The options that some arguments give. -/
def Options.read [Number.Scale κ] (arguments : List String) : Except OptionFault (Options κ) :=
  (·.options) <$> Reading.takeAll { options := { bounds := .usual } } arguments

end Waymark.Service
