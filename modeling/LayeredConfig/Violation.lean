import LayeredConfig.Range.Basic

/-!
# Violations

A `Violation` says which value was rejected, where, and by which range. It is data that is
handed back, not a failure of the program: a caller that only wants to know whether a value fits
can look at it and go on.
-/

namespace LayeredConfig

/-- A rejected value. Without a range, it is the shape of the schema that the value does not
fit: an undeclared key, or something else than a map for a section. -/
structure Violation where
  range : Option Range
  path : Path
  value : Value

namespace Violation

/-- The description of the rejecting range, `null` if there is none. -/
def rangeValue (violation : Violation) : Value :=
  match violation.range with
  | some range => .text range.description
  | none => .null

/-- The violation in one sentence. -/
def message (violation : Violation) : String :=
  "Value " ++ violation.value.format ++ " at " ++ violation.path.text ++
    match violation.range with
    | some range => " is not in range '" ++ range.description ++ "'"
    | none => " does not fit the schema"

end Violation

/-- The violation that a caller's rejection amounts to, for the range which asked. -/
def Rejection.toViolation (range : Range) (r : Rejection) : Violation :=
  ⟨if r.namesRange then some range else none, r.path, r.value⟩

end LayeredConfig
