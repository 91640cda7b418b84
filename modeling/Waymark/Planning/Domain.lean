import Waymark.Planning.Typed

/-!
# Planning domains

A domain declares types, constants, predicates and action schemas. Conditions and effects stay
expressions. The section of numeric functions is kept as it is.

* `Domain.read`: the domain that a text defines;
* `Domain.text`: the definition of a domain.
-/

namespace Waymark.Planning

/-- A declared predicate. -/
structure Predicate where
  name : String
  params : List TypedName
  deriving DecidableEq, Repr, Inhabited

/-- An action schema. -/
structure Schema where
  name : String
  params : List TypedName := []
  condition : Option Expr := none
  effect : Option Expr := none
  deriving DecidableEq, Repr, Inhabited

/-- A planning domain. -/
structure Domain where
  name : String
  requirements : List String := []
  types : List TypedName := []
  constants : List TypedName := []
  predicates : List Predicate := []
  functions : Option Expr := none
  schemas : List Schema := []
  deriving DecidableEq, Repr, Inhabited

/-! ## Reading -/

/-- The name and the sections of a definition `(define (kind name) section ...)`. -/
def readDefinition (kind : String) : Expr → Except Failure (String × List Expr)
  | .list (.atom "define" :: .list [.atom k, .atom name] :: sections) =>
    if k = kind then .ok (name, sections) else .error (.task (.noHeader kind))
  | .list (.atom "define" :: _) => .error (.task (.noHeader kind))
  | _ => .error (.task .noDefinition)

/-- The key and the body of a section `(:key ...)`. -/
def readSection : Expr → Except Failure (String × List Expr)
  | .list (.atom key :: body) =>
    if key.toList.head? = some ':' then .ok (key, body)
    else .error (.task (.noSection (.list (.atom key :: body))))
  | x => .error (.task (.noSection x))

/-- The names that a section lists. -/
def readNames (place : String) (items : List Expr) : Except Failure (List String) :=
  items.mapM fun
    | .atom a => .ok a
    | x => .error (.task (.noName place x))

/-- An expression other than the empty list. -/
def nonEmpty : Expr → Option Expr
  | .list [] => none
  | x => some x

/-- Reads the keys and values of an action schema into `schema`. -/
def readSchemaParts (schema : Schema) : List Expr → Except Failure Schema
  | [] => .ok schema
  | [key] => .error (.task (.noValue key schema.name))
  | .atom ":parameters" :: value :: rest =>
    match value with
    | .list items => do readSchemaParts { schema with params := ← readTyped items } rest
    | .atom _ => .error (.task .noParameters)
  | .atom ":precondition" :: value :: rest =>
    readSchemaParts { schema with condition := nonEmpty value } rest
  | .atom ":effect" :: value :: rest =>
    readSchemaParts { schema with effect := nonEmpty value } rest
  | key :: _ :: _ => .error (.task (.strayKey key schema.name))

/-- Reads the body of an action section. -/
def readSchema : List Expr → Except Failure Schema
  | .atom name :: parts => readSchemaParts { name } parts
  | _ => .error (.task .noActionName)

/-- Reads the declaration of a predicate. -/
def readPredicate : Expr → Except Failure Predicate
  | .list (.atom name :: params) => Predicate.mk name <$> readTyped params
  | x => .error (.task (.badPredicate x))

/-- Adds a section to a domain. -/
def Domain.addSection (domain : Domain) (x : Expr) : Except Failure Domain := do
  let (key, body) ← readSection x
  match key with
  | ":requirements" => return { domain with requirements := ← readNames key body }
  | ":types" => return { domain with types := ← readTyped body }
  | ":constants" => return { domain with constants := ← readTyped body }
  | ":predicates" =>
    return { domain with predicates := domain.predicates ++ (← body.mapM readPredicate) }
  | ":functions" => return { domain with functions := some x }
  | ":action" => return { domain with schemas := domain.schemas ++ [← readSchema body] }
  | key => throw (.unsupported (.domainSection key))

/-- Reads an expression, its fault being one of the task. -/
def readExpr (text : String) : Except Failure Expr :=
  (Expr.readOne text.toList).mapError fun fault => .task (.unreadable fault)

/-- The domain that a text defines. -/
def Domain.read (text : String) : Except Failure Domain := do
  let (name, sections) ← readDefinition "domain" (← readExpr text)
  sections.foldlM Domain.addSection { name }

/-! ## Looking up -/

/-- The first schema of a name. -/
def Domain.schema? (domain : Domain) (name : String) : Option Schema :=
  domain.schemas.find? (·.name = name)

/-- The first predicate of a name. -/
def Domain.predicate? (domain : Domain) (name : String) : Option Predicate :=
  domain.predicates.find? (·.name = name)

/-- Declares a requirement unless it is declared. -/
def Domain.require (domain : Domain) (flag : String) : Domain :=
  if domain.requirements.contains flag then domain
  else { domain with requirements := domain.requirements ++ [flag] }

/-! ## Writing -/

/-- The declaration of a predicate. -/
def Predicate.text (p : Predicate) : String :=
  if p.params.isEmpty then "(" ++ p.name ++ ")" else "(" ++ p.name ++ " " ++ typedText p.params ++ ")"

/-- The lines of an action section. -/
def Schema.textLines (s : Schema) : List String :=
  ["  (:action " ++ s.name, "    :parameters (" ++ typedText s.params ++ ")"] ++
    (s.condition.map fun x => "    :precondition " ++ x.display).toList ++
    (s.effect.map fun x => "    :effect " ++ x.display).toList ++ ["  )"]

/-- Lines, each with its line feed. -/
def ofLines (lines : List String) : String := String.join (lines.map (· ++ "\n"))

/-- The definition of a domain. -/
def Domain.text (d : Domain) : String :=
  ofLines <|
    ["(define (domain " ++ d.name ++ ")"] ++
      (if d.requirements.isEmpty then []
        else ["  (:requirements " ++ " ".intercalate d.requirements ++ ")"]) ++
      (if d.types.isEmpty then [] else ["  (:types " ++ typedText d.types ++ ")"]) ++
      (if d.constants.isEmpty then [] else ["  (:constants " ++ typedText d.constants ++ ")"]) ++
      ["  (:predicates"] ++ d.predicates.map (fun p => "    " ++ p.text) ++ ["  )"] ++
      (d.functions.map fun x => "  " ++ x.display).toList ++
      d.schemas.flatMap Schema.textLines ++ [")"]

end Waymark.Planning
