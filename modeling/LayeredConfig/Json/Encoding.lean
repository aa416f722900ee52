import LayeredConfig.Json.Basic
import LayeredConfig.Number.Decimal
import LayeredConfig.Value.Basic

/-!
# Values as JSON

`Value.encode` gives the JSON document of a value.

- `undefined` has none: an entry that holds it is left out, and an element is written as null.
- Infinite and undefined numbers are null, dates are their text, and texts are strings without
  unpaired surrogates, since they consist of characters.
- Sets and tables are written as empty objects; what they hold is not looked at.
- An integer of the kind kept apart from numbers cannot be written, and so neither can any
  value that reaches one through lists, maps and foreign values.
-/

namespace LayeredConfig

/-- Why a value has no JSON text. -/
inductive EncodingError where
  | bigint
deriving DecidableEq

/-- The wording of an encoding error. -/
def EncodingError.message : EncodingError → String
  | .bigint => "Do not know how to serialize a BigInt"

namespace Value

/-- The document of a number. -/
def encodeNumber : Number → Json
  | .nan => .null
  | .infinity _ => .null
  | n => .number n.text

mutual

/-- The document of a value, if it has one. -/
def encode : Value → Except EncodingError (Option Json)
  | .undefined => .ok none
  | .null => .ok (some .null)
  | .bool b => .ok (some (.bool b))
  | .text s => .ok (some (.string s))
  | .number n => .ok (some (encodeNumber n))
  | .bigint _ => .error .bigint
  | .list _ vs => (encodeElements vs).map fun js => some (.array js)
  | .object _ _ es => (encodeEntries es).map fun ms => some (.object ms)
  | .foreign _ _ es => (encodeEntries es).map fun ms => some (.object ms)
  | .map _ _ => .ok (some (.object []))
  | .set _ _ => .ok (some (.object []))
  | .date _ t => .ok (some (.string t))

/-- The documents of a list's elements. -/
def encodeElements : List Value → Except EncodingError (List Json)
  | [] => .ok []
  | v :: rest => do
    let j ← v.encode
    let js ← encodeElements rest
    return j.getD .null :: js

/-- The members for the entries of a map. -/
def encodeEntries : List (String × Value) → Except EncodingError (List (String × Json))
  | [] => .ok []
  | (k, v) :: rest => do
    let j ← v.encode
    let ms ← encodeEntries rest
    return match j with
      | some j => (k, j) :: ms
      | none => ms

end

end Value

end LayeredConfig
