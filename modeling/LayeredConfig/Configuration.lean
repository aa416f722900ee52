import LayeredConfig.Normalization
import LayeredConfig.Schema.Declaration
import LayeredConfig.Value.Copy
import LayeredConfig.Value.Same

/-!
# Configurations

A `Configuration` is a normalized map together with its schema. It holds a copy of its own.

- `Configuration.make`: from a raw map; a violation is a fault here.
- `Configuration.access`, `Configuration.sectionMap`, `Configuration.subconfiguration`: reading a
  setting, the map of a section, and a section as a configuration in its own right, all by way
  of `descend`.
- `Schema.differences`: the settings in which two configurations differ.
-/

namespace LayeredConfig

/-- The version of the library. -/
def version : String := "0.1.0"

/-- A checked and completed configuration. -/
structure Configuration where
  map : Entries Value
  schema : Schema

/-- A place inside a configuration: the map and schema of the section there. -/
structure Place where
  map : Value
  schema : Schema

namespace Configuration

/-- A configuration of a normalized map. -/
def ofNormalized (map : Entries Value) (schema : Schema) : Configuration :=
  ⟨Entries.copy map, schema⟩

/-- Makes a configuration of a raw map, with the named profiles applied. The outcome is logged by
the given logger, or else by the library's own. -/
def make (package : Log.Logger) (schema : Schema) (names : List String) (map : Value)
    (logger : Option Log.Logger) : Traced Configuration := do
  let log := (logger.getD package).child "configuration"
  match ← schema.normalize package names map [] [] with
  | .error violation =>
    Traced.log log .warn "configuration_rejected"
      [("schema", .text schema.description), ("message", .text violation.message)]
    Traced.fail (.rejected violation)
  | .ok normalized =>
    Traced.log log .debug "configuration_created"
      [("schema", .text schema.description), ("profiles", Fault.textList names)]
    return ofNormalized normalized schema

/-! ## Reading -/

/-- Goes from `place` down through the sections `keys`, `before` being the keys on the way to
`place`. A fault names the keys up to the one that leads nowhere. -/
def descend (operation : Operation) (before : List String) (place : Place) :
    List String → Except Fault Place
  | [] => .ok place
  | key :: rest =>
    let inner := Entries.read place.map.entriesOrEmpty key
    match place.schema.section? key, inner.isMap with
    | some node, true => descend operation (before ++ [key]) ⟨inner, node.schema⟩ rest
    | _, _ => .error (.noSection operation (before ++ [key]))

/-- The place at the top of a configuration. -/
def top (config : Configuration) : Place := ⟨.ofEntries config.map, config.schema⟩

/-- The place of a section. -/
def place (config : Configuration) (operation : Operation) (sections : List String) :
    Except Fault Place := descend operation [] config.top sections

/-- The map of a section. -/
def sectionMap (config : Configuration) (sections : List String) : Except Fault Value :=
  (config.place .accessSection sections).map Place.map

/-- The value of a setting, in a section or at the top. -/
def access (config : Configuration) (setting : String) (sections : List String) :
    Except Fault Value := do
  let place ← config.place .access sections
  match place.schema.setting? setting, Entries.get? place.map.entriesOrEmpty setting with
  | some _, some v => return v
  | _, _ => throw (Fault.noSetting (sections ++ [setting]))

/-- A section as a configuration in its own right. -/
def subconfiguration (config : Configuration) (sections : List String) :
    Except Fault Configuration :=
  (config.place .subconfigure sections).map fun place =>
    ofNormalized place.map.entriesOrEmpty place.schema

end Configuration

/-! ## Comparing -/

/-- A setting that has different values in two configurations. -/
structure Difference where
  path : Path
  left : Value
  right : Value

/-- The settings among `settings` whose values differ in two maps. -/
def settingDifferences (settings : List Setting) (path : Path) (left right : Entries Value) :
    List Difference :=
  settings.filterMap fun s =>
    let a := Entries.read left s.key
    let b := Entries.read right s.key
    if a.same b then none else some ⟨path.entry s.key, a, b⟩

mutual

/-- The settings whose values differ in two maps at a path: those of the level itself, then those
of its sections, in declaration order. -/
def Schema.differences : Schema → Path → (left right : Entries Value) → List Difference
  | ⟨_, settings, sections⟩, path, left, right =>
    settingDifferences settings path left right ++ Section.differences sections path left right

/-- The differences in the maps of sections. -/
def Section.differences : List Section → Path → (left right : Entries Value) → List Difference
  | [], _, _, _ => []
  | ⟨key, schema, _⟩ :: rest, path, left, right =>
    schema.differences (path.entry key) (Entries.read left key).entriesOrEmpty
      (Entries.read right key).entriesOrEmpty ++ Section.differences rest path left right

end

/-- The settings of a schema in which two configurations differ. -/
def Configuration.differences (schema : Schema) (a b : Configuration) : List Difference :=
  schema.differences [] a.map b.map

end LayeredConfig
