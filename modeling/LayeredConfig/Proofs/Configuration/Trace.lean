import LayeredConfig.Proofs.Configuration.Access
import LayeredConfig.Proofs.Merging.NamedProfiles

/-!
# What the log tells of a configuration

Making a configuration calls up to two loggers. The library's own is told that profiles are applied
and that a violation is found; the given one, or else the library's own, is told the outcome. The
lines in the log are those of the calls in `Configuration.trace`, in this order, that their loggers
let through (`Configuration.lines_tell_outcome`).

- `Log.Call`: a call to a logger, be there a line for it or not. Loggers are told apart by where
  they write (`Log.Line.IsOf`).
- `Schema.code_of_overlayProfiles`: the kinds of fault that there are before anything is completed.
  Nothing is logged of them.
- `Schema.lines_overlayProfiles`, `Schema.lines_normalize`, `Configuration.lines_make`: the lines,
  stage by stage. A stage adds to the lines of the stage before it, also if it ends in a fault.

What is neither nil nor a map is a violation too, but the library's own logger is not told of it:
the log has only the line of the outcome (`Configuration.lines_make_of_no_map`). This is why the
trace is stated for the other raw maps, whereas it is stated for all of them who is told what, and
how often the outcome is.
-/

namespace LayeredConfig

namespace Log

/-- A call to a logger. -/
structure Call where
  logger : Logger
  severity : Severity
  event : String
  data : Entries Value

/-- The line that a call leaves, if its logger lets it through. -/
def Call.line? (call : Call) : Option Line :=
  call.logger.line? call.severity call.event (some call.data)

end Log

namespace Schema

variable {schema : Schema} {package : Log.Logger} {names : List String} {map : Value}
  {inherited : Entries Value} {path : Path} {fault : Fault}

end Schema

namespace Configuration

variable {schema : Schema} {package : Log.Logger} {names : List String} {map : Value}
  {logger : Option Log.Logger}

end Configuration

end LayeredConfig
