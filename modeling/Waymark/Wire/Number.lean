import Waymark.Json.Decode
import Waymark.Number.Double

/-!
# Doubles in JSON

* `Number.Double.decode`, `Number.Double.encode`: doubles. One that is infinite or undefined is written
  `null`.
-/

namespace Waymark.Number

/-- Reads a double. -/
def Double.decode : Json.Decoder Double := fun j => .number <$> Json.Decoder.number j

/-- Writes a double. -/
def Double.encode : Double → Json
  | .number x => .float x
  | .undefined _ => .null

end Waymark.Number
