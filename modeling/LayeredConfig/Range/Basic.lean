import LayeredConfig.Path
import LayeredConfig.Value.Identity

/-!
# Ranges and schemas

What values a configuration may hold, as data.

- `Range`: the admissible values of one place, built from scalar ranges by combinators. A range
  says how a raw value is completed (`LayeredConfig.Completion`) and of which leaves it consists
  (`LayeredConfig.Leaves`).
- `Schema`: the settings and sections of a string-keyed map, in declaration order. A setting
  has a range, a section a nested schema; an inheriting one hands what is given for it down to
  the other sections of its level and all that is nested in them. The keys of a schema are
  distinct (`LayeredConfig.Schema.Declaration`).
- `Rejection`: what a check written by the caller answers when it does not accept a value.

Ranges and schemas contain each other, since a schema is also a range, that of the maps which
conform to it.
-/

namespace LayeredConfig

/-- A value turned down by a caller's check: where, which value, and whether the rejection
names the range that asked. One that does not name it says that the value does not fit the schema.
A check that puts the blame on a third range is left out. -/
structure Rejection where
  path : Path
  value : Value
  namesRange : Bool

mutual

/-- The admissible values of one place. -/
inductive Range where
  /-- Everything; nothing given becomes `default`. -/
  | any (default : Value)
  /-- Everything that is given. -/
  | nonNil
  /-- The values that pass a test; nothing given becomes `default`, which is not tested. -/
  | predicate (description : String) (accepts : Value → Bool) (default : Value)
  /-- One value, judged and completed by the caller's check. -/
  | scalar (description : String) (judge : Path → Value → Except Rejection Value)
  /-- The first candidate that fits the value stands for it; nothing given becomes `default`. -/
  | choice (candidates : List Value) (default : Value) (fits : (candidate value : Value) → Bool)
  /-- The values of a range, passed through a function once completed. -/
  | mapped (description : String) (range : Range) (f : Value → Except Rejection Value)
  /-- The values of a range, or nothing. -/
  | optional (range : Range)
  /-- The values of a range; nothing given is read as `default`. -/
  | optionalDefault (range : Range) (default : Value)
  /-- The values of several ranges, the first that accepts deciding. -/
  | anyOf (ranges : List Range)
  /-- Lists of values of a range. -/
  | sequence (range : Range)
  /-- Sets of values of a range. -/
  | set (range : Range)
  /-- Lists whose `i`-th element is in the `i`-th range. -/
  | tuple (ranges : List Range)
  /-- Tables with keys and values of two ranges. -/
  | mapOf (key value : Range)
  /-- The maps that conform to a schema. -/
  | schema (schema : Schema)

/-- Settings and sections in declaration order. -/
structure Schema where
  description : String
  settings : List Setting
  sections : List Section

/-- A named value of a schema. -/
structure Setting where
  key : String
  description : String
  range : Range
  /-- Whether the value given here stands in for the same setting of nested sections. -/
  inherit : Bool

/-- A named nested map of a schema. -/
structure Section where
  key : String
  schema : Schema
  /-- Whether the section completed here stands in for the same section of nested sections. -/
  inherit : Bool

end

namespace Range

/-! ## Named scalar ranges -/

/-- Booleans. -/
def boolean (default : Value) : Range :=
  .predicate "boolean" (fun v => match v with | .bool _ => true | _ => false) default

/-- Texts. -/
def string (default : Value) : Range :=
  .predicate "string" (fun v => match v with | .text _ => true | _ => false) default

/-- Texts with at least one character. -/
def nonemptyString (default : Value) : Range :=
  .predicate "non-empty string" (fun v => match v with | .text s => s ≠ "" | _ => false) default

/-- Numbers without fractional part. -/
def integer (default : Value) : Range :=
  .predicate "integer" (fun v => match v with | .number n => n.isInteger | _ => false) default

/-- Numbers without fractional part from `min` to `max`. -/
def integerBetween (min max : Number) (default : Value) : Range :=
  .predicate ("integer between " ++ min.text ++ " and " ++ max.text)
    (fun v => match v with
      | .number n => n.isInteger && min.le n && n.le max
      | _ => false)
    default

/-- The members of a list. -/
def oneOf (candidates : List Value) (default : Value) : Range :=
  .choice candidates default Value.strictEqual

/-! ## Descriptions -/

mutual

/-- What a range is called in messages. -/
def description : Range → String
  | .any _ => "any value"
  | .nonNil => "non-nil value"
  | .predicate text _ _ => text
  | .scalar text _ => text
  | .choice candidates _ _ => "one of " ++ String.intercalate ", " (candidates.map Value.format)
  | .mapped text _ _ => text
  | .optional range => "optional " ++ range.description
  | .optionalDefault range default => range.description ++ ", default " ++ default.format
  | .anyOf ranges => "any of (" ++ String.intercalate ", " (descriptions ranges) ++ ")"
  | .sequence range => "sequence of " ++ range.description
  | .set range => "set of " ++ range.description
  | .tuple ranges => "tuple of (" ++ String.intercalate ", " (descriptions ranges) ++ ")"
  | .mapOf key value => "map of " ++ key.description ++ " to " ++ value.description
  | .schema s => s.description

/-- The descriptions of several ranges. -/
def descriptions : List Range → List String
  | [] => []
  | r :: rest => r.description :: descriptions rest

end

end Range

end LayeredConfig
