import LayeredConfig.Slot
import LayeredConfig.Fault

/-!
# Overlays

`Schema.overlay` lays one raw map over another, guided by a schema but without looking at
ranges. For a setting, the upper map's value counts whenever it has the key, also if nothing is
given there; otherwise the lower map's. Sections are overlaid in turn, the empty map standing in
for one that is absent or not given. A key that the schema does not declare, or a section that is
no map, is a fault.

The result is rebuilt from the keys of the lower map, followed by the keys that only the upper
map has (`jointKeys`). Like a completed map (`LayeredConfig.Level`), it is known by its entries.
-/

namespace LayeredConfig

/-- How a map at a path is laid over another. -/
abbrev MapOverlay := Path → (lower upper : Value) → Except Fault (Entries Value)

/-- The entries of a value that has to be a map. -/
def requireMap (operation : Operation) (path : Path) (v : Value) : Except Fault (Entries Value) :=
  match v.entries? with
  | some es => .ok es
  | none => .error (.notAMap operation path v)

/-- The keys of the first map, then those that only the second one has. -/
def jointKeys (lower upper : Entries Value) : List String :=
  Entries.keys lower ++ (Entries.keys upper).filter fun k => !Entries.has lower k

/-- The value of a setting in two maps: that of the upper one, if it has the key. -/
def upperValue (lower upper : Entries Value) (key : String) : Value :=
  if Entries.has upper key then Entries.read upper key else Entries.read lower key

/-- The value under a key in two maps that are laid over each other. -/
def overlayKey (schema : String) (settings : List String) (sections : List (Slot MapOverlay))
    (path : Path) (lower upper : Entries Value) (key : String) : Except Fault Value :=
  if key ∈ settings then .ok (upperValue lower upper key)
  else match Slot.find? sections key with
    | none => .error (.unknownKey path key schema)
    | some slot =>
      (slot.run (path.entry key) (Entries.read lower key).orEmptyMap
        (Entries.read upper key).orEmptyMap).map .ofEntries

/-- The entries of several keys, each with its value. -/
def entriesOf (value : String → Except Fault Value) :
    List String → Except Fault (List (String × Value))
  | [] => .ok []
  | k :: rest => do
    let v ← value k
    let vs ← entriesOf value rest
    return (k, v) :: vs

/-- Lays a map over another, when it is known how to do so for each section. -/
def overlayLevel (schema : String) (settings : List String) (sections : List (Slot MapOverlay)) :
    MapOverlay := fun path lower upper => do
  let lower ← requireMap .overlay path lower
  let upper ← requireMap .overlay path upper
  let merged ←
    entriesOf (overlayKey schema settings sections path lower upper) (jointKeys lower upper)
  return Entries.rebuild merged

mutual

/-- Lays the map `upper` at a path over the map `lower`. -/
def Schema.overlay : Schema → MapOverlay
  | ⟨description, settings, sections⟩ =>
    overlayLevel description (settings.map Setting.key) (Section.overlays sections)

/-- The overlay of a section. -/
def Section.overlay : Section → Slot MapOverlay
  | ⟨key, schema, inherit⟩ => ⟨key, inherit, schema.overlay⟩

/-- The overlays of several sections. -/
def Section.overlays : List Section → List (Slot MapOverlay)
  | [] => []
  | node :: rest => node.overlay :: Section.overlays rest

end

theorem Section.overlays_eq_map (sections : List Section) :
    Section.overlays sections = sections.map Section.overlay := by
  induction sections with
  | nil => rfl
  | cons s rest ih => simp [Section.overlays, ih]

/-- Maps are overlaid as one level whose slots overlay the sections. -/
theorem Schema.overlay_eq (schema : Schema) :
    schema.overlay =
      overlayLevel schema.description (schema.settings.map Setting.key)
        (schema.sections.map Section.overlay) := by
  cases schema
  rw [← Section.overlays_eq_map]
  rfl

end LayeredConfig
