import Waymark.Expr.Reader
import Waymark.Constraint.Template

/-!
# Failures

Everything that can go wrong between an utterance and a choice among plans, as causes. A cause has
one text (`message`), belongs to one family (`kind`), and the family decides the status that the
service answers with. Results that are merely empty are no failures.

Families of causes are types of their own: `TaskFault` for planning tasks that cannot be read,
`Feature` for parts of the planning language that are not supported, and so on. In each, `other` is a
cause that was reported in words.
-/

namespace Waymark

/-- Why a planning task cannot be read. -/
inductive TaskFault where
  | unreadable (fault : Expr.ReadFault)
  | noDefinition
  | noHeader (kind : String)
  | noSection (found : Expr)
  | noName (place : String) (found : Expr)
  | noType
  | typeWithoutNames (type : String)
  | listAmongNames (found : Expr)
  | noActionName
  | noValue (key : Expr) (action : String)
  | noParameters
  | strayKey (key : Expr) (action : String)
  | badPredicate (found : Expr)
  | emptyGoal
  | noDomain
  | noGoal
  | badLiteral (found : Expr)
  | equalityArity
  | bareName (name : String)
  | badNegation (found : Expr)
  | badCondition (found : Expr)
  | badEffect (found : Expr)
  | badWhen (found : Expr)
  | badIncrease (found : Expr)
  | badCost (text : String)
  | unboundVariable (name : String)
  | emptyCostFunction
  | noInitialValue (term : String)
  | badInitialFact (found : Expr)
  | badNumber (text : String)
  | badAssignment (found : Expr)
  | other (text : String)
  deriving DecidableEq, Repr

/-- The text of a task fault. -/
def TaskFault.message : TaskFault → String
  | .unreadable fault => fault.message
  | .noDefinition => "expected (define ...)"
  | .noHeader kind => "expected (" ++ kind ++ " <name>)"
  | .noSection x => "expected a section, found `" ++ x.display ++ "`"
  | .noName place x => "expected atom in " ++ place ++ ", found `" ++ x.display ++ "`"
  | .noType => "expected a type after `-`"
  | .typeWithoutNames type => "type `" ++ type ++ "` has no names"
  | .listAmongNames x => "unexpected `" ++ x.display ++ "` in typed list"
  | .noActionName => "expected action name"
  | .noValue key action => "missing value for `" ++ key.display ++ "` in " ++ action
  | .noParameters => "expected parameter list"
  | .strayKey key action => "unexpected `" ++ key.display ++ "` in action " ++ action
  | .badPredicate x => "bad predicate `" ++ x.display ++ "`"
  | .emptyGoal => "empty :goal"
  | .noDomain => "problem has no :domain"
  | .noGoal => "problem has no :goal"
  | .badLiteral x => "bad literal `" ++ x.display ++ "`"
  | .equalityArity => "`=` takes two arguments"
  | .bareName name => "bare atom `" ++ name ++ "` in condition"
  | .badNegation x => "bad negation `" ++ x.display ++ "`"
  | .badCondition x => "bad condition `" ++ x.display ++ "`"
  | .badEffect x => "bad effect `" ++ x.display ++ "`"
  | .badWhen x => "bad `when` `" ++ x.display ++ "`"
  | .badIncrease x => "bad `increase` `" ++ x.display ++ "`"
  | .badCost text => "bad cost `" ++ text ++ "`"
  | .unboundVariable name => "unbound variable `" ++ name ++ "`"
  | .emptyCostFunction => "empty cost function"
  | .noInitialValue term => "no initial value for " ++ term
  | .badInitialFact x => "bad init fact `" ++ x.display ++ "`"
  | .badNumber text => "bad number `" ++ text ++ "`"
  | .badAssignment x => "bad init assignment `" ++ x.display ++ "`"
  | .other text => text

/-- A part of the planning language that is not supported. -/
inductive Feature where
  | eitherTypes
  | domainSection (key : String)
  | problemSection (key : String)
  | numericExpression (literal : Expr)
  | comparison (operator : String)
  | complexNegation (condition : Expr)
  | conditionOperator (operator : String)
  | nestedEffect (effect : Expr)
  | numericFluent (target : Expr)
  | costExpression (amount : Expr)
  | effectOperator (operator : String)
  | equalityInEffect
  | actionCount (limit : Nat)
  | other (text : String)
  deriving DecidableEq, Repr

/-- The text of a feature. -/
def Feature.message : Feature → String
  | .eitherTypes => "either types"
  | .domainSection key => "domain section " ++ key
  | .problemSection key => "problem section " ++ key
  | .numericExpression x => "numeric expression in `" ++ x.display ++ "`"
  | .comparison operator => "comparison `" ++ operator ++ "`"
  | .complexNegation x => "complex negation `" ++ x.display ++ "`"
  | .conditionOperator operator => "`" ++ operator ++ "` in condition"
  | .nestedEffect x => "nested effect `" ++ x.display ++ "`"
  | .numericFluent x => "numeric fluent `" ++ x.display ++ "`"
  | .costExpression x => "cost `" ++ x.display ++ "`"
  | .effectOperator operator => "`" ++ operator ++ "` in effect"
  | .equalityInEffect => "equality in effect"
  | .actionCount limit => s!"more than {limit} ground actions"
  | .other text => text

/-- Why a request cannot be taken as it is. -/
inductive InputFault where
  | unknownTemplate (text : String)
  | activityCount (template : Constraint.Template) (found : Nat)
  | emptyActivity
  | emptyFormula
  | noFormulas
  | emptyUtterance
  /-- A prompt file is JSON of another shape. -/
  | promptShape
  /-- A prompt file is not JSON. -/
  | promptText
  | absolutePath (path : String)
  | escapingPath (path : String)
  | scenarioName (name : String)
  | emptyCommand
  /-- An upload is not text: the number of bytes that are, and the number of bytes of the sequence
  after them that is wrong, none if it is merely cut off. -/
  | upload (valid : Nat) (wrong : Option Nat)
  | other (text : String)
  deriving DecidableEq, Repr

/-- The text of an input fault. -/
def InputFault.message : InputFault → String
  | .unknownTemplate text => "unknown DECLARE template `" ++ text ++ "`"
  | .activityCount template found =>
    template.name ++ s!" takes {template.arity} " ++
      (if template.arity = 1 then "activity" else "activities") ++ s!", got {found}"
  | .emptyActivity => "empty activity ``"
  | .emptyFormula => "empty formula"
  | .noFormulas => "no formulas to compile"
  | .emptyUtterance => "utterance is empty"
  | .promptShape => "prompt config: data did not match any variant of untagged enum PromptFile"
  | .promptText => "prompt config: not JSON"
  | .absolutePath path => "`" ++ path ++ "` is not a relative data path"
  | .escapingPath path => "`" ++ path ++ "` escapes the data directory"
  | .scenarioName name => "illegal scenario name `" ++ name ++ "`"
  | .emptyCommand => "empty planner command"
  | .upload valid (some wrong) =>
    s!"upload is not UTF-8: invalid utf-8 sequence of {wrong} bytes from index {valid}"
  | .upload valid none =>
    s!"upload is not UTF-8: incomplete utf-8 byte sequence from index {valid}"
  | .other text => text

/-- Why a selection does not fit the flow that it continues. -/
inductive SelectionFault where
  | noPlans
  | notADecision (landmark : Nat)
  | notAvailable (achiever : String)
  | flowEnded (round : Nat)
  /-- The selection names another decision than the one that is due. -/
  | otherDecision (due : String)
  | notAChoice (achiever due : String)
  | other (text : String)
  deriving DecidableEq, Repr

/-- The text of a selection fault. -/
def SelectionFault.message : SelectionFault → String
  | .noPlans => "there are no plans to select from"
  | .notADecision id => s!"landmark {id} is not a decision point"
  | .notAvailable achiever => "`" ++ achiever ++ "` is not an available choice"
  | .flowEnded round => s!"selection {round} arrives after the flow has ended"
  | .otherDecision due => "selection answers a different decision than " ++ due
  | .notAChoice achiever due => "`" ++ achiever ++ "` is not a choice at " ++ due
  | .other text => text

/-- Why landmarks or plans cannot be used. -/
inductive DataFault where
  | duplicateLandmark (id : Nat)
  | unknownLandmark (first last : Nat)
  /-- The landmarks or the plans do not belong to the task. -/
  | inconsistent
  | other (text : String)
  deriving DecidableEq, Repr

/-- The text of a data fault. -/
def DataFault.message : DataFault → String
  | .duplicateLandmark id => s!"duplicate landmark id {id}"
  | .unknownLandmark first last => s!"ordering {first} -> {last} references an unknown landmark"
  | .inconsistent => "landmark or plan data is inconsistent with the given domain/problem"
  | .other text => text

/-- Why the scores of an utterance cannot be used. -/
inductive TranslationFault where
  | notFinite (score formula : String)
  | other (text : String)
  deriving DecidableEq, Repr

/-- The text of a translation fault. -/
def TranslationFault.message : TranslationFault → String
  | .notFinite score formula => "non-finite score " ++ score ++ " for `" ++ formula ++ "`"
  | .other text => text

/-- Why a planner gave no plans. -/
inductive PlannerFault where
  | notStarted (program reason : String)
  | exited (program : String) (code : Nat) (errors : String)
  | other (text : String)
  deriving DecidableEq, Repr

/-- The text of a planner fault. -/
def PlannerFault.message : PlannerFault → String
  | .notStarted program reason => "failed to start " ++ program ++ ": " ++ reason
  | .exited program code errors => program ++ s!" exited with exit status: {code}: " ++ errors
  | .other text => text

/-- Everything that can go wrong. -/
inductive Failure where
  | emptyTask
  | unknownCategory (text : String)
  | unknownTool (text : String)
  | selection (fault : SelectionFault)
  | input (fault : InputFault)
  | notFound (what : String)
  | task (fault : TaskFault)
  | unsupported (feature : Feature)
  /-- An activity names neither an action nor a predicate that an action adds. -/
  | unresolved (activity formula : String)
  /-- A tool cannot express a template. -/
  | inexpressible (tool template : String)
  | cycle (landmark : Nat)
  | data (fault : DataFault)
  | translation (fault : TranslationFault)
  | planner (fault : PlannerFault)
  | file (text : String)
  /-- The empty list stands among the initial facts. Grounding breaks off there. -/
  | emptyInitialFact
  | internal (text : String)
  deriving DecidableEq, Repr

/-- The families of failures. -/
inductive FailureKind where
  /-- The request is wrong. -/
  | clientInput
  /-- A valid request has no answer. -/
  | unprocessable
  /-- Something that was called upon failed. -/
  | externalFault
  /-- The service itself failed. -/
  | internal
  deriving DecidableEq, Repr

/-- The name of a family. -/
def FailureKind.name : FailureKind → String
  | .clientInput => "client_input"
  | .unprocessable => "unprocessable"
  | .externalFault => "external_fault"
  | .internal => "internal"

namespace Failure

/-- The text of a failure. -/
def message : Failure → String
  | .emptyTask => "domain or problem is empty"
  | .unknownCategory text => "invalid landmark category: " ++ text
  | .unknownTool text => "invalid compiler tool: " ++ text
  | .selection fault => "invalid selection: " ++ fault.message
  | .input fault => "invalid input: " ++ fault.message
  | .notFound what => "not found: " ++ what
  | .task fault => "PDDL parse error: " ++ fault.message
  | .unsupported feature => "unsupported PDDL feature: " ++ feature.message
  | .unresolved activity formula =>
    "unresolved proposition `" ++ activity ++ "` in formula `" ++ formula ++ "`"
  | .inexpressible tool template =>
    "tool `" ++ tool ++ "` cannot encode template `" ++ template ++ "`"
  | .cycle id => s!"landmark orderings contain a cycle through landmark {id}"
  | .data fault => "unprocessable entity: " ++ fault.message
  | .translation fault => "translation failed: " ++ fault.message
  | .planner fault => "planner failed: " ++ fault.message
  | .file text => "io error: " ++ text
  | .emptyInitialFact => "internal: an initial fact is the empty list"
  | .internal text => "internal: " ++ text

/-- The family of a failure. -/
def kind : Failure → FailureKind
  | .emptyTask | .unknownCategory _ | .unknownTool _ | .selection _ | .input _ | .notFound _ =>
    .clientInput
  | .task _ | .unsupported _ | .unresolved .. | .inexpressible .. | .cycle _ | .data _ =>
    .unprocessable
  | .translation _ | .planner _ => .externalFault
  | .file _ | .emptyInitialFact | .internal _ => .internal

/-- The status of the answer to a request that failed. -/
def status : Failure → Nat
  | .notFound _ => 404
  | failure => match failure.kind with
    | .clientInput => 400
    | .unprocessable => 422
    | .externalFault => 502
    | .internal => 500

end Failure

end Waymark
