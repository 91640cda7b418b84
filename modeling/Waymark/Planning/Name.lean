import Waymark.Text.Blank
import Waymark.Text.Lower

/-!
# Names as users write them

Activities are compared with the names of a task without regard to case, to the blanks around them,
and to the difference between underscore and hyphen.
-/

namespace Waymark.Planning

/-- The form in which two spellings of a name agree. -/
def canonicalName (name : String) : String :=
  String.ofList ((Text.lower (Text.trim name.toList)).map fun c => if c = '_' then '-' else c)

/-- Two spellings of one name. -/
def sameName (a b : String) : Bool := canonicalName a == canonicalName b

end Waymark.Planning
