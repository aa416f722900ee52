import LayeredConfig.Completion
import LayeredConfig.Profiles

/-!
# Normalization

`Schema.normalize` turns a raw top-level map into one that has exactly the declared settings and
sections, each completed: profiles are laid over the base first, then the result is checked
against the schema. A violation is an answer, and is logged; a fault is not an answer.
-/

namespace LayeredConfig

/-- Logs an outcome that is a violation. -/
def Schema.logOutcome (schema : Schema) (package : Log.Logger) :
    Except Violation (Entries Value) → Traced Unit
  | .ok _ => pure ()
  | .error violation =>
    Traced.log (package.child "normalize") .debug "range_violation"
      [("schema", .text schema.description), ("path", .text violation.path.text),
        ("range", violation.rangeValue)]

/-- The completed form of a raw map with the named profiles applied, or the violation found
first. Nothing given counts as the empty map. Of what is no map at all, nothing is logged here. -/
def Schema.normalize (schema : Schema) (package : Log.Logger) (names : List String) (map : Value)
    (inherited : Entries Value) (path : Path) :
    Traced (Except Violation (Entries Value)) :=
  if map.orEmptyMap.isMap then do
    let applied ← schema.overlayProfiles package map.orEmptyMap names
    let outcome := schema.complete inherited path applied
    schema.logOutcome package outcome
    return outcome
  else return .error ⟨none, path, map⟩

end LayeredConfig
