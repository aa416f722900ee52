import LayeredConfig.Completion
import LayeredConfig.Fault

/-!
# Leaves

The scalar leaves of a value, seen through its range, from left to right.

- `Range.leaves`: the leaves, each with the range it belongs to, its path and its completed
  value. A value that its range does not accept has none to show; asking for them is a fault.
- `Range.fold`: folds a function over the leaves.
- Schemas (`levelLeaves`): at each level the leaves of every setting in declaration order, then
  those of every section. They are read off the raw values, so a setting or section that is not
  given is looked up among what is inherited. A `Bequest` keeps with an inherited value what was
  inherited in the place where it was given, since a section is read there, wherever its map is
  handed down to.
-/

namespace LayeredConfig

/-- A scalar part of a value. -/
structure Leaf where
  range : Range
  path : Path
  value : Value

/-- An inherited raw value, and what was inherited in the place where it was given. -/
structure Bequest where
  value : Value
  scope : List (String × Bequest)

/-- What is inherited, by key, the innermost first. -/
abbrev Bequests := Entries Bequest

/-- How the leaves of a value at a path are collected. -/
abbrev Visit := Path → Value → Except Fault (List Leaf)

/-- How the leaves of a map at a path are collected, where some values are inherited. -/
abbrev LevelVisit := Bequests → Path → Value → Except Fault (List Leaf)

/-- The completed value, where there is one. A violation means that the value was not checked
before it was folded. -/
def completeForFold (range : Range) (path : Path) (v : Value) : Except Fault Value :=
  (range.complete path v).mapError fun violation =>
    .cannotFold range path violation.path violation.value

/-- A value that is a leaf as a whole. -/
def scalarLeaf (range : Range) (path : Path) (v : Value) : Except Fault (List Leaf) :=
  (completeForFold range path v).map fun w => [⟨range, path, w⟩]

/-- The leaves of element `i` by the `i`-th visit, as far as both lists go, starting with
position `i`. -/
def elementLeaves (path : Path) : List Visit → (i : Nat) → List Value → Except Fault (List Leaf)
  | visit :: visits, i, v :: rest => do
    let here ← visit (path.element i) v
    let later ← elementLeaves path visits (i + 1) rest
    return here ++ later
  | _, _, _ => .ok []

/-- The leaves of the pairs of a table in order, key first. -/
def pairLeaves (key value : Visit) (path : Path) : List (Value × Value) → Except Fault (List Leaf)
  | [] => .ok []
  | (k, v) :: rest => do
    let ofKey ← key (path.pair k) k
    let ofValue ← value (path.pair k) v
    let later ← pairLeaves key value path rest
    return ofKey ++ ofValue ++ later

/-! ## One level of a schema -/

/-- What is inherited by the sections of a level: what the level itself inherits, and the values
that are given for its inheriting settings. -/
def settingBequests (settings : List (Slot Visit)) (bequests : Bequests) : Entries Value → Bequests
  | [] => bequests
  | (k, v) :: rest =>
    let before := settingBequests settings bequests rest
    if Slot.handsDown settings k then (k, ⟨v, bequests⟩) :: before else before

/-- The given sections, each with what is inherited there, and all that is inherited after the
last of them. -/
structure SectionBequests where
  present : Bequests
  inherited : Bequests

/-- Walks the given sections in order. -/
def sectionBequests (sections : List (Slot LevelVisit)) :
    (inherited : Bequests) → Entries Value → SectionBequests
  | inherited, [] => ⟨[], inherited⟩
  | inherited, (k, v) :: rest =>
    if Slot.declares sections k then
      let bequest : Bequest := ⟨v, inherited⟩
      let later := sectionBequests sections
        (if Slot.handsDown sections k then (k, bequest) :: inherited else inherited) rest
      ⟨(k, bequest) :: later.present, later.inherited⟩
    else sectionBequests sections inherited rest

/-- The raw value of a setting: the given one, else the inherited one, else nothing. -/
def rawSetting (given : Entries Value) (inherited : Bequests) (key : String) : Value :=
  match Entries.get? given key with
  | some v => v
  | none => match Entries.get? inherited key with
    | some bequest => bequest.value
    | none => .undefined

/-- The leaves of the settings in declaration order. -/
def settingLeaves (given : Entries Value) (inherited : Bequests) (path : Path) :
    List (Slot Visit) → Except Fault (List Leaf)
  | [] => .ok []
  | slot :: rest => do
    let here ← slot.run (path.entry slot.key) (rawSetting given inherited slot.key)
    let later ← settingLeaves given inherited path rest
    return here ++ later

/-- The raw map of a section and what is inherited there: the given one, else the inherited one,
else the empty map. -/
def rawSection (present inherited : Bequests) (key : String) : Bequest :=
  ((Entries.get? present key).or (Entries.get? inherited key)).getD ⟨.emptyMap, inherited⟩

/-- The leaves of the sections in declaration order. -/
def sectionLeaves (present inherited : Bequests) (path : Path) :
    List (Slot LevelVisit) → Except Fault (List Leaf)
  | [] => .ok []
  | slot :: rest => do
    let bequest := rawSection present inherited slot.key
    let here ← slot.run bequest.scope (path.entry slot.key) bequest.value
    let later ← sectionLeaves present inherited path rest
    return here ++ later

/-- The leaves of a map. A value that is no map counts as the empty one. -/
def levelLeaves (settings : List (Slot Visit)) (sections : List (Slot LevelVisit)) : LevelVisit :=
  fun bequests path value => do
    let given := value.entriesOrEmpty
    let walked := sectionBequests sections (settingBequests settings bequests given) given
    let ofSettings ← settingLeaves given walked.inherited path settings
    let ofSections ← sectionLeaves walked.present walked.inherited path sections
    return ofSettings ++ ofSections

/-! ## Leaves of a range -/

mutual

/-- The leaves of a value at a path. -/
def Range.leaves : Range → Path → Value → Except Fault (List Leaf)
  | .any default, path, v => scalarLeaf (.any default) path v
  | .nonNil, path, v => scalarLeaf .nonNil path v
  | .predicate text accepts default, path, v => scalarLeaf (.predicate text accepts default) path v
  | .scalar text judge, path, v => scalarLeaf (.scalar text judge) path v
  | .choice candidates default fits, path, v => scalarLeaf (.choice candidates default fits) path v
  | .mapped text range f, path, v => scalarLeaf (.mapped text range f) path v
  | .optional range, path, v =>
    if v.isNil then .ok [⟨.optional range, path, .undefined⟩] else range.leaves path v
  | .optionalDefault range default, path, v => range.leaves path (if v.isNil then default else v)
  | .anyOf ranges, path, v =>
    match Range.acceptedLeaves? ranges path v with
    | some leaves => leaves
    | none => .error (.cannotFold (.anyOf ranges) path path v)
  | .sequence range, path, v => do
    let _ ← completeForFold (.sequence range) path v
    let elements := v.elements?.getD []
    elementLeaves path (List.replicate elements.length range.leaves) 0 elements
  | .set range, path, v => do
    let w ← completeForFold (.set range) path v
    let members := w.elements?.getD []
    elementLeaves path (List.replicate members.length range.leaves) 0 members
  | .tuple ranges, path, v => do
    let _ ← completeForFold (.tuple ranges) path v
    elementLeaves path (Range.visits ranges) 0 (v.elements?.getD [])
  | .mapOf key value, path, v => do
    let _ ← completeForFold (.mapOf key value) path v
    pairLeaves key.leaves value.leaves path (v.pairs?.getD [])
  | .schema schema, path, v => do
    let _ ← completeForFold (.schema schema) path v
    schema.leaves [] path v

/-- The leaves by the first of the ranges that accepts the value. -/
def Range.acceptedLeaves? : List Range → Path → Value → Option (Except Fault (List Leaf))
  | [], _, _ => none
  | range :: rest, path, v =>
    match range.complete path v with
    | .ok _ => some (range.leaves path v)
    | .error _ => Range.acceptedLeaves? rest path v

/-- The visits of several ranges. -/
def Range.visits : List Range → List Visit
  | [] => []
  | range :: rest => range.leaves :: Range.visits rest

/-- The leaves of a map at a path, where some values are inherited. -/
def Schema.leaves : Schema → LevelVisit
  | ⟨_, settings, sections⟩ => levelLeaves (Setting.visits settings) (Section.visits sections)

/-- The visit of a setting. -/
def Setting.visit : Setting → Slot Visit
  | ⟨key, _, range, inherit⟩ => ⟨key, inherit, range.leaves⟩

/-- The visits of several settings. -/
def Setting.visits : List Setting → List (Slot Visit)
  | [] => []
  | setting :: rest => setting.visit :: Setting.visits rest

/-- The visit of a section. -/
def Section.visit : Section → Slot LevelVisit
  | ⟨key, schema, inherit⟩ => ⟨key, inherit, schema.leaves⟩

/-- The visits of several sections. -/
def Section.visits : List Section → List (Slot LevelVisit)
  | [] => []
  | node :: rest => node.visit :: Section.visits rest

end

/-- Folds a function over the leaves of a value, from left to right. -/
def Range.fold {α : Type} (range : Range) (path : Path)
    (f : Range → Path → α → Value → α) (init : α) (v : Value) : Except Fault α :=
  (range.leaves path v).map fun leaves =>
    leaves.foldl (fun acc leaf => f leaf.range leaf.path acc leaf.value) init

/-- Folds a function over the leaves of a configuration map. -/
def Schema.fold {α : Type} (schema : Schema) (f : Range → Path → α → Value → α) (init : α)
    (map : Value) : Except Fault α := (Range.schema schema).fold [] f init map

/-! ## The visits of a schema -/

theorem Range.visits_eq_map (ranges : List Range) :
    Range.visits ranges = ranges.map Range.leaves := by
  induction ranges with
  | nil => rfl
  | cons r rest ih => simp [Range.visits, ih]

theorem Setting.visits_eq_map (settings : List Setting) :
    Setting.visits settings = settings.map Setting.visit := by
  induction settings with
  | nil => rfl
  | cons s rest ih => simp [Setting.visits, ih]

theorem Section.visits_eq_map (sections : List Section) :
    Section.visits sections = sections.map Section.visit := by
  induction sections with
  | nil => rfl
  | cons s rest ih => simp [Section.visits, ih]

/-- The leaves of a schema are those of one level whose slots collect the leaves of its settings
and sections. -/
theorem Schema.leaves_eq (schema : Schema) :
    schema.leaves =
      levelLeaves (schema.settings.map Setting.visit) (schema.sections.map Section.visit) := by
  cases schema
  rw [← Setting.visits_eq_map, ← Section.visits_eq_map]
  rfl

end LayeredConfig
