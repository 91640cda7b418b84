import Waymark.Json.Decode
import Waymark.Landmark.Graph

/-!
# Landmark graphs in JSON

* `Landmark.Graph.decode`, `Landmark.Graph.encode`: landmark graphs.
-/

namespace Waymark.Landmark

open Json Decoder

/-- The word for a form of landmarks. -/
def Kind.word : Kind → String
  | .fact => "fact"
  | .disjunctive => "disjunctive"

/-- The word for a form of orderings. -/
def OrderKind.word : OrderKind → String
  | .natural => "natural"
  | .greedyNecessary => "greedy_necessary"

/-- Reads a form of landmarks. -/
def Kind.decode : Decoder Kind :=
  Decoder.word ([Kind.fact, .disjunctive].map fun k => (k.word, k))

/-- Reads a form of orderings. -/
def OrderKind.decode : Decoder OrderKind :=
  Decoder.word ([OrderKind.natural, .greedyNecessary].map fun k => (k.word, k))

/-- Reads a landmark. -/
def decode : Decoder Landmark :=
  record { id := 0, facts := [] } [
    field "id" .required count fun l x => { l with id := x },
    field "kind" .defaulted Kind.decode fun l x => { l with kind := x },
    field "facts" .required (list text) fun l x => { l with facts := x },
    field "first_achievers" .defaulted (list text) fun l x => { l with firstAchievers := x },
    field "possible_achievers" .defaulted (list text) fun l x => { l with possibleAchievers := x },
    field "is_initial" .defaulted flag fun l x => { l with isInitial := x },
    field "is_goal" .defaulted flag fun l x => { l with isGoal := x }]

/-- Writes a landmark. -/
def encode (l : Landmark) : Json :=
  .object [("id", ofNat l.id), ("kind", .text l.kind.word), ("facts", ofList .text l.facts),
    ("first_achievers", ofList .text l.firstAchievers),
    ("possible_achievers", ofList .text l.possibleAchievers),
    ("is_initial", .bool l.isInitial), ("is_goal", .bool l.isGoal)]

/-- Reads an ordering. -/
def Order.decode : Decoder Order :=
  record { first := 0, second := 0 } [
    field "from" .required count fun o x => { o with first := x },
    field "to" .required count fun o x => { o with second := x },
    field "kind" .defaulted OrderKind.decode fun o x => { o with kind := x }]

/-- Writes an ordering. -/
def Order.encode (o : Order) : Json :=
  .object [("from", ofNat o.first), ("to", ofNat o.second), ("kind", .text o.kind.word)]

/-- Reads a landmark graph. -/
def Graph.decode : Decoder Graph :=
  record {} [
    field "landmarks" .defaulted (list Landmark.decode) fun g x => { g with landmarks := x },
    field "orderings" .defaulted (list Order.decode) fun g x => { g with orders := x }]

/-- Writes a landmark graph. -/
def Graph.encode (g : Graph) : Json :=
  .object [("landmarks", ofList Landmark.encode g.landmarks),
    ("orderings", ofList Order.encode g.orders)]

end Waymark.Landmark
