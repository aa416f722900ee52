import LayeredConfig.Violation

/-!
# Faults

A fault is a misuse of the library by the program: a map for the wrong schema, a profile that
does not exist, a path that leads nowhere, a schema that declares a key twice, a fold over data
that was never checked; or a rejected configuration where only a valid one will do.

- `Fault`: the causes, with what is known about each.
- `Fault.report`: the wording of a fault, as a `Report`: who reports it, under which code, with
  what message and details.
-/

namespace LayeredConfig

/-- The operations that report faults. -/
inductive Operation where
  | overlay
  | mergeLayers
  | overlayProfiles
  | configure
  | access
  | accessSection
  | subconfigure
  | declare
  | fold
deriving DecidableEq

/-- The name under which an operation reports. -/
def Operation.name : Operation → String
  | .overlay => "mergeSansProfiles"
  | .mergeLayers => "mergeConfigMaps"
  | .overlayProfiles => "applyProfiles"
  | .configure => "makeConfiguration"
  | .access => "access"
  | .accessSection => "accessSection"
  | .subconfigure => "sectionSubconfig"
  | .declare => "schema"
  | .fold => "fold"

/-- The kinds of fault that a program can tell apart. -/
inductive FaultCode where
  | unknownSchemaKey
  | missingProfile
  | notAMap
  | unknownAccessPath
  | rangeViolation
  | duplicateSchemaKey
  | foldPrecondition
deriving DecidableEq

/-- The name of a kind of fault. -/
def FaultCode.name : FaultCode → String
  | .unknownSchemaKey => "UNKNOWN_SCHEMA_KEY"
  | .missingProfile => "MISSING_PROFILE"
  | .notAMap => "NOT_A_MAP"
  | .unknownAccessPath => "UNKNOWN_ACCESS_PATH"
  | .rangeViolation => "RANGE_VIOLATION"
  | .duplicateSchemaKey => "DUPLICATE_SCHEMA_KEY"
  | .foldPrecondition => "FOLD_PRECONDITION"

/-- The cause of a failure. -/
inductive Fault where
  /-- A string-keyed map is wanted at `path`. -/
  | notAMap (operation : Operation) (path : Path) (value : Value)
  /-- The map at `path` has a key that its schema does not declare. -/
  | unknownKey (path : Path) (key : String) (schema : String)
  | missingProfile (name : String) (defined : List String)
  /-- These keys do not lead through declared sections. -/
  | noSection (operation : Operation) (keys : List String)
  /-- The last of these keys is no declared setting where the others lead. -/
  | noSetting (keys : List String)
  /-- A configuration is to be made of values that do not conform. -/
  | rejected (violation : Violation)
  | duplicateKey (key : String) (schema : String)
  /-- A fold at `path` meets a value that `range` does not accept. -/
  | cannotFold (range : Range) (path : Path) (culprit : Path) (value : Value)

/-- How a fault is told: by whom, under which code, in what words and with which details. -/
structure Report where
  operation : String
  code : FaultCode
  message : String
  details : Entries Value

/-- The full message names the reporting operation first. -/
def Report.text (report : Report) : String := report.operation ++ ": " ++ report.message

namespace Fault

def textList (texts : List String) : Value := .ofList (texts.map .text)

/-- The kind of a fault. -/
def code : Fault → FaultCode
  | .notAMap .. => .notAMap
  | .unknownKey .. => .unknownSchemaKey
  | .missingProfile .. => .missingProfile
  | .noSection .. => .unknownAccessPath
  | .noSetting .. => .unknownAccessPath
  | .rejected .. => .rangeViolation
  | .duplicateKey .. => .duplicateSchemaKey
  | .cannotFold .. => .foldPrecondition

/-- The operation that reports a fault. -/
def operation : Fault → Operation
  | .notAMap operation _ _ => operation
  | .unknownKey .. => .overlay
  | .missingProfile .. => .overlayProfiles
  | .noSection operation _ => operation
  | .noSetting .. => .access
  | .rejected .. => .configure
  | .duplicateKey .. => .declare
  | .cannotFold .. => .fold

/-- What a fault says. -/
def message : Fault → String
  | .notAMap _ path value => "expected a map at " ++ path.text ++ ", got " ++ value.format
  | .unknownKey path key schema =>
    "'" ++ key ++ "' at " ++ path.text ++ " is neither a setting nor a section of '" ++ schema
      ++ "'"
  | .missingProfile name _ => "profile '" ++ name ++ "' is not defined"
  | .noSection _ keys => "no section at " ++ (Path.ofKeys keys).text
  | .noSetting keys => "no setting at " ++ (Path.ofKeys keys).text
  | .rejected violation => violation.message
  | .duplicateKey key schema => "duplicate key '" ++ key ++ "' in schema '" ++ schema ++ "'"
  | .cannotFold range _ culprit value =>
    "cannot fold over " ++ value.format ++ " at " ++ culprit.text ++ ": rejected by '"
      ++ range.description ++ "'"

/-- What is known about a fault: paths, keys, the offending value. -/
def details : Fault → Entries Value
  | .notAMap _ path value => [("path", path.toValue), ("value", value)]
  | .unknownKey path key _ => [("path", path.toValue), ("key", .text key)]
  | .missingProfile name defined => [("profile", .text name), ("defined", textList defined)]
  | .noSection _ keys => [("path", textList keys)]
  | .noSetting keys => [("path", textList keys)]
  | .rejected violation =>
    [("path", violation.path.toValue), ("value", violation.value),
      ("range", violation.rangeValue)]
  | .duplicateKey key schema => [("key", .text key), ("schema", .text schema)]
  | .cannotFold _ path _ value => [("path", path.toValue), ("value", value)]

/-- The report of a fault. -/
def report (fault : Fault) : Report :=
  ⟨fault.operation.name, fault.code, fault.message, fault.details⟩

end Fault

end LayeredConfig
