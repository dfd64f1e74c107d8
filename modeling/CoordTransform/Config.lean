import CoordTransform.Builder
import CoordTransform.Json.Parser
import CoordTransform.Json.Record
import CoordTransform.Scalar.Double

/-!
# Configuration

The settings of the program, read from a JSON document:

```text
{ "log_level": text,
  "analyzer": { "default_trailing_ordinates": natural,
                "factory": { "rounding_tolerance": number or null, "use_pool": bool } } }
```

Every field may be left out.
-/

namespace CoordTransform

/-- The settings of the program. -/
structure Config where
  logLevel : String := "warn"
  impliedTrailing : Nat := 0
  builder : BuildOptions Float := {}

namespace Config

open JsonValue

/-- The options of the builder. -/
def readBuilder? (j : JsonValue) : Option (BuildOptions Float) := do
  match ← record? ["rounding_tolerance", "use_pool"] j with
  | [rounding, usePool] =>
    some
      { rounding := ← withDefault? none (nullable? JsonValue.float?) rounding
        usePool := ← withDefault? true bool? usePool }
  | _ => none

/-- The implied trailing count and the options of the builder. -/
def readInterpreter? (j : JsonValue) : Option (Nat × BuildOptions Float) := do
  match ← record? ["default_trailing_ordinates", "factory"] j with
  | [trailing, builder] =>
    some (← withDefault? 0 JsonValue.natural? trailing, ← withDefault? {} readBuilder? builder)
  | _ => none

/-- The settings. -/
def read? (j : JsonValue) : Option Config := do
  match ← record? ["log_level", "analyzer"] j with
  | [logLevel, interpreter] =>
    let (impliedTrailing, builder) ← withDefault? (0, {}) readInterpreter? interpreter
    some { logLevel := ← withDefault? "warn" text? logLevel, impliedTrailing, builder }
  | _ => none

/-- Reads the settings from a text. -/
def parse? (text : String) : Option Config := do read? (← JsonValue.parse? text)

end Config

end CoordTransform
