import LayeredConfig.Json.Encoding

/-!
# Log lines

- `Log.Logger`: who logs, where the lines go, and whether the details of normal operation are logged
  as well. A child of a logger differs from it in its name only.
- `Log.Line`: what is logged, and where. Lines are data; only their text needs a timestamp.
- `Logger.line?`: the line for an event. A `debug` event has one in debug mode only.
- `Line.encoded`: a line is encoded as an entry with its data, and where that has no document, as an
  entry that says why. `Line.toJson` is the document that this always comes to.
- `Logger.written`: what a call writes, and where.
-/

namespace LayeredConfig

namespace Log

/-- How much an event matters. -/
inductive Severity where
  | debug
  | info
  | warn
  | error
deriving DecidableEq

/-- The name of a severity. -/
def Severity.name : Severity → String
  | .debug => "debug"
  | .info => "info"
  | .warn => "warn"
  | .error => "error"

/-- Where lines are written. -/
inductive Sink where
  /-- The error stream of the process. -/
  | standardError
  /-- A function of the caller's, known by a number. -/
  | custom (number : Nat)
deriving DecidableEq

/-- One logged event, and where it is written. -/
structure Line where
  sink : Sink
  severity : Severity
  component : String
  event : String
  data : Option (Entries Value)

/-- Someone who logs. -/
structure Logger where
  component : String
  /-- Whether `debug` events are logged. -/
  debugMode : Bool := false
  /-- Where the lines are written. -/
  sink : Sink := .standardError
deriving DecidableEq

namespace Logger

/-- The library's own logger. -/
def root (debugMode : Bool) : Logger := ⟨"schemaconf", debugMode, .standardError⟩

/-- A logger for another component, in the same mode and with the same sink. -/
def child (logger : Logger) (component : String) : Logger :=
  ⟨component, logger.debugMode, logger.sink⟩

/-- Whether events of a severity are logged. -/
def logs (logger : Logger) (severity : Severity) : Bool :=
  severity ≠ .debug || logger.debugMode

/-- The line for an event, if it is logged. -/
def line? (logger : Logger) (severity : Severity) (event : String)
    (data : Option (Entries Value)) : Option Line :=
  if logger.logs severity then some ⟨logger.sink, severity, logger.component, event, data⟩
  else none

end Logger

namespace Line

/-! ## Encoding -/

/-- What every entry has. -/
def head (timestamp : String) (line : Line) : Entries Value :=
  [("timestamp", .text timestamp), ("level", .text line.severity.name),
    ("component", .text line.component), ("event", .text line.event)]

/-- The line as an entry. -/
def entry (timestamp : String) (line : Line) : Value :=
  .ofEntries (line.head timestamp ++ (line.data.map fun es => ("data", .ofEntries es)).toList)

/-- The entry for a line with data that cannot be written. -/
def excuse (timestamp : String) (line : Line) (error : EncodingError) : Value :=
  .ofEntries (line.head timestamp ++
    [("serializationError", .text error.message), ("originalData", .text "[unserializable]")])

/-- What a line is encoded as. -/
def encoded (timestamp : String) (line : Line) : Except EncodingError (Option Json) :=
  tryCatch (line.entry timestamp).encode fun error => (line.excuse timestamp error).encode

/-- What a line says about its data: the data, or why it cannot be written. -/
def dataMembers (line : Line) : List (String × Json) :=
  match line.data with
  | none => []
  | some es =>
    match Value.encodeEntries es with
    | .ok members => [("data", .object members)]
    | .error error =>
      [("serializationError", .string error.message), ("originalData", .string "[unserializable]")]

/-- The line as a document. -/
def toJson (timestamp : String) (line : Line) : Json :=
  .object ([("timestamp", .string timestamp), ("level", .string line.severity.name),
    ("component", .string line.component), ("event", .string line.event)] ++ line.dataMembers)

/-- An entry has what a line has, and members for the rest of it. -/
theorem encode_head_append (timestamp : String) (line : Line) (es : Entries Value) :
    (Value.ofEntries (line.head timestamp ++ es)).encode =
      (Value.encodeEntries es).map fun members =>
        some (.object ([("timestamp", .string timestamp), ("level", .string line.severity.name),
          ("component", .string line.component), ("event", .string line.event)] ++ members)) := by
  simp only [head, Value.ofEntries, Value.encode, Value.encodeEntries, List.cons_append,
    List.nil_append]
  cases Value.encodeEntries es <;> rfl

/-- **Encoding a line never fails.** -/
theorem encoded_eq (timestamp : String) (line : Line) :
    line.encoded timestamp = .ok (some (line.toJson timestamp)) := by
  rw [encoded, entry, encode_head_append]
  cases hdata : line.data with
  | none =>
    rw [toJson, dataMembers, hdata]
    rfl
  | some es =>
    rw [toJson, dataMembers, hdata]
    simp only [Option.map_some, Option.toList_some, Value.encodeEntries, Value.ofEntries,
      Value.encode]
    cases hes : Value.encodeEntries es with
    | ok members => rfl
    | error error =>
      show (line.excuse timestamp error).encode = _
      rw [excuse, encode_head_append]
      rfl

/-- The text of the line, without the line break at its end. -/
def text (timestamp : String) (line : Line) : String := (line.toJson timestamp).text

/-- What is written for the line. -/
def written (timestamp : String) (line : Line) : String := line.text timestamp ++ "\n"

end Line

/-- What a logger writes when it is called for an event, and where. -/
def Logger.written (logger : Logger) (timestamp : String) (severity : Severity) (event : String)
    (data : Option (Entries Value)) : List (Sink × String) :=
  ((logger.line? severity event data).map fun line => (line.sink, line.written timestamp)).toList

end Log

end LayeredConfig
