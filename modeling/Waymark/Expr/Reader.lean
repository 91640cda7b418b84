import Waymark.Expr.Basic
import Waymark.Text.Blank
import Waymark.Text.Lower

/-!
# Reading expressions

An expression text is names, parentheses, blanks and comments from `;` to the end of the line. Names
are lower-cased. Four characters are blanks between tokens: space, tab, carriage return and line
feed. All other white space ends a name and is then refused.

* `Reader.step`: what one character does to the reader;
* `tooDeepLine?`: the line in which lists are nested too deeply;
* `readAll`: the expressions of a text;
* `readOne`: its only expression.
-/

namespace Waymark.Expr

/-- The deepest nesting of lists that is read. -/
def maxDepth : Nat := 64

/-- A place in a text: its line, and the number of bytes before it in the line, plus one. -/
structure Spot where
  lineNumber : Nat
  line : String
  column : Nat
  deriving DecidableEq, Repr

/-- Why a text is not an expression. -/
inductive ReadFault where
  /-- Lists are nested too deeply. -/
  | tooDeep (lineNumber : Nat)
  /-- Something outside all lists is not an expression. -/
  | leftover (spot : Spot)
  /-- A list is open where something other than an item or its end was found. -/
  | unclosed (spot : Spot) (found : Option Char)
  /-- There is not exactly one expression. -/
  | count (found : Nat)
  deriving DecidableEq, Repr

/-! ## Places -/

/-- The number of bytes of a text. -/
def byteLength (cs : List Char) : Nat := cs.foldl (fun n c => n + c.utf8Size) 0

/-- The place before which `before` stands and after which `after` stands. -/
def Spot.between (before after : List Char) : Spot :=
  let start := (before.reverse.takeWhile (· ≠ '\n')).reverse
  { lineNumber := before.count '\n' + 1
    line := String.ofList (Text.trimEnd (start ++ after.takeWhile (· ≠ '\n')))
    column := byteLength start + 1 }

/-- The line of a place, and a mark below it. -/
def Spot.marked (spot : Spot) : String :=
  spot.line ++ "\n" ++ String.ofList (List.replicate (spot.column - 1) ' ') ++ "^\n"

/-- The text of a fault. -/
def ReadFault.message : ReadFault → String
  | .tooDeep n => s!"line {n}: lists nested deeper than {maxDepth} levels"
  | .leftover spot => s!"0: at line {spot.lineNumber}, in Eof:\n" ++ spot.marked ++ "\n"
  | .unclosed spot found =>
    let what := match found with
      | some c => "found " ++ c.toString
      | none => "got end of input"
    s!"0: at line {spot.lineNumber}:\n" ++ spot.marked ++ "expected ')', " ++ what ++ "\n\n" ++
      s!"1: at line {spot.lineNumber}, in closing parenthesis:\n" ++ spot.marked ++ "\n"
  | .count 0 => "expected one s-expression, found none"
  | .count n => s!"expected one s-expression, found {n}"

/-! ## Depth -/

/-- Where a scan for the nesting of lists is: the number of open lists, whether it is in a comment,
and the line. -/
structure DepthScan where
  depth : Nat := 0
  inComment : Bool := false
  lineNumber : Nat := 1

/-- Scans one character. The result is none where the nesting becomes too deep. -/
def DepthScan.step (s : DepthScan) (c : Char) : Option DepthScan :=
  if c = '\n' then some { s with inComment := false, lineNumber := s.lineNumber + 1 }
  else if s.inComment then some s
  else if c = ';' then some { s with inComment := true }
  else if c = '(' then
    if s.depth + 1 > maxDepth then none else some { s with depth := s.depth + 1 }
  else if c = ')' then some { s with depth := s.depth - 1 }
  else some s

/-- The line in which the nesting becomes too deep, scanning on from `s`. -/
def DepthScan.tooDeepLine? (s : DepthScan) : List Char → Option Nat
  | [] => none
  | c :: rest => match s.step c with
    | some s => s.tooDeepLine? rest
    | none => some s.lineNumber

/-- The line in which lists are nested too deeply. -/
def tooDeepLine? (cs : List Char) : Option Nat := DepthScan.tooDeepLine? {} cs

/-! ## Reading -/

/-- What a reader is inside of. -/
inductive Mode where
  | between
  | comment
  /-- A name, its last character first. -/
  | name (letters : List Char)

/-- The state of reading: the expressions read in the innermost open list, or outside all lists,
and those of the lists around it, in each the last one first. -/
structure Reader where
  mode : Mode := .between
  current : List Expr := []
  outer : List (List Expr) := []

/-- A blank between tokens. -/
def isSeparator (c : Char) : Bool := c = ' ' || c = '\t' || c = '\r' || c = '\n'

/-- A character of a name. -/
def isNameChar (c : Char) : Bool := !Text.isBlank c && c ≠ '(' && c ≠ ')' && c ≠ ';'

/-- Ends the name that is being read. -/
def Reader.endName (r : Reader) : Reader :=
  match r.mode with
  | .name letters =>
    { r with
      mode := .between
      current := .atom (String.ofList (Text.lower letters.reverse)) :: r.current }
  | _ => r

/-- Reads a character outside names and comments. It is refused if it is an end without a list or a
blank of another kind. -/
def Reader.stepBetween (r : Reader) (c : Char) : Option Reader :=
  if isSeparator c then some r
  else if c = ';' then some { r with mode := .comment }
  else if c = '(' then some { r with current := [], outer := r.current :: r.outer }
  else if c = ')' then
    match r.outer with
    | [] => none
    | around :: outer => some { r with current := .list r.current.reverse :: around, outer }
  else if isNameChar c then some { r with mode := .name [c] }
  else none

/-- Reads one character. -/
def Reader.step (r : Reader) (c : Char) : Option Reader :=
  match r.mode with
  | .comment => some (if c = '\n' then { r with mode := .between } else r)
  | .name letters =>
    if isNameChar c then some { r with mode := .name (c :: letters) } else r.endName.stepBetween c
  | .between => r.stepBetween c

/-- Reads on from `r`, whose text so far is `before`, its last character first. -/
def Reader.run (r : Reader) (before : List Char) : List Char → Except ReadFault (List Expr)
  | [] =>
    let r := r.endName
    if r.outer.isEmpty then .ok r.current.reverse
    else .error (.unclosed (.between before.reverse []) none)
  | c :: rest => match r.step c with
    | some r => r.run (c :: before) rest
    | none =>
      let spot := Spot.between before.reverse (c :: rest)
      .error (if r.outer.isEmpty then .leftover spot else .unclosed spot (some c))

/-- All expressions of a text. -/
def readAll (cs : List Char) : Except ReadFault (List Expr) :=
  match tooDeepLine? cs with
  | some n => .error (.tooDeep n)
  | none => Reader.run {} [] cs

/-- The only expression of a text. -/
def readOne (cs : List Char) : Except ReadFault Expr :=
  match readAll cs with
  | .ok [x] => .ok x
  | .ok xs => .error (.count xs.length)
  | .error e => .error e

end Waymark.Expr
