/-!
# Expressions

Planning tasks are written as expressions: names and lists of expressions in parentheses.
Conditions, effects and declarations keep this form.

* `Expr`: the type, with its text `Expr.display`;
* `Expr.head?`: the name that a list starts with;
* `Expr.conjuncts`: the parts of a conjunction, and `Expr.conjunction` to build one.
-/

namespace Waymark

/-- A name or a list of expressions. -/
inductive Expr where
  | atom (name : String)
  | list (items : List Expr)
  deriving Inhabited, Repr

namespace Expr

mutual

/-- Equality of expressions is decidable. -/
def decEq : (x y : Expr) → Decidable (x = y)
  | .atom a, .atom b =>
    if h : a = b then isTrue (h ▸ rfl) else isFalse fun e => h (Expr.atom.inj e)
  | .list xs, .list ys =>
    match decEqAll xs ys with
    | isTrue h => isTrue (h ▸ rfl)
    | isFalse h => isFalse fun e => h (Expr.list.inj e)
  | .atom _, .list _ => isFalse nofun
  | .list _, .atom _ => isFalse nofun

/-- Equality of lists of expressions is decidable. -/
def decEqAll : (xs ys : List Expr) → Decidable (xs = ys)
  | [], [] => isTrue rfl
  | x :: xs, y :: ys =>
    match decEq x y, decEqAll xs ys with
    | isTrue h, isTrue t => isTrue (h ▸ t ▸ rfl)
    | isFalse h, _ => isFalse fun e => h (List.cons.inj e).1
    | _, isFalse t => isFalse fun e => t (List.cons.inj e).2
  | [], _ :: _ => isFalse nofun
  | _ :: _, [] => isFalse nofun

end

instance : DecidableEq Expr := decEq

/-- `(name arg ...)` with names as arguments. -/
def call (name : String) (args : List String) : Expr := .list (.atom name :: args.map .atom)

/-- The name, unless the expression is a list. -/
def atom? : Expr → Option String
  | .atom a => some a
  | .list _ => none

/-- The name that a list starts with. -/
def head? : Expr → Option String
  | .list (.atom a :: _) => some a
  | _ => none

mutual

/-- The text of an expression: one space between the items of a list and no others. -/
def display : Expr → String
  | .atom a => a
  | .list [] => "()"
  | .list (x :: xs) => "(" ++ display x ++ displayRest xs

/-- The text of the remaining items of a list and of its end. -/
def displayRest : List Expr → String
  | [] => ")"
  | x :: xs => " " ++ display x ++ displayRest xs

end

mutual

/-- The conjuncts of an expression, nested conjunctions flattened. The empty list has none. -/
def conjuncts : Expr → List Expr
  | .atom a => [.atom a]
  | .list [] => []
  | .list (.atom a :: xs) => if a = "and" then conjunctsAll xs else [.list (.atom a :: xs)]
  | .list (.list xs :: ys) => [.list (.list xs :: ys)]

/-- The conjuncts of several expressions in turn. -/
def conjunctsAll : List Expr → List Expr
  | [] => []
  | x :: xs => conjuncts x ++ conjunctsAll xs

end

/-- The conjunction of expressions, a single one standing for itself. -/
def conjunction : List Expr → Expr
  | [x] => x
  | xs => .list (.atom "and" :: xs)

/-- The negation of an expression. -/
def negation (x : Expr) : Expr := .list [.atom "not", x]

end Expr

end Waymark
