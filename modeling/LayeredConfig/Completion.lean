import LayeredConfig.Level

/-!
# Completion

Checking a raw value against a range, and filling it up: `Range.complete` answers the completed
value or the violation found first.

- Scalar ranges answer for themselves. Where nothing is given they put in their default, one and
  the same object in every place. Lists, sets, tables and maps are built anew.
- Combinators complete the parts in order and hand the first violation on as it is, so that the
  range named in it is the one that would reject the value on its own.
- A schema is completed level by level (`LayeredConfig.Level`); `Schema.complete` in addition
  takes the values that the level inherits.

All recursion is on the range. The parts of a value are completed by checks that stand for the
parts of the range (`Range.checks`, `Setting.slot`, `Section.slot`).
-/

namespace LayeredConfig

/-- Completes element `i` of a sequence by the `i`-th check, as far as both lists go, starting
with position `i`, and stops at the first violation. -/
def completeEach (path : Path) :
    List ValueCheck → (i : Nat) → List Value → Except Violation (List Value)
  | check :: checks, i, v :: rest => do
    let w ← check (path.element i) v
    let ws ← completeEach path checks (i + 1) rest
    return w :: ws
  | _, _, _ => .ok []

/-- Completes the pairs of a table in order, key first. Both stand at the path of the pair. -/
def completePairs (key value : ValueCheck) (path : Path) :
    List (Value × Value) → Except Violation (List (Value × Value))
  | [] => .ok []
  | (k, v) :: rest => do
    let k' ← key (path.pair k) k
    let v' ← value (path.pair k) v
    let rest' ← completePairs key value path rest
    return (k', v') :: rest'

/-- The first answer among checks that is no violation. -/
def firstAccepted? (path : Path) (v : Value) : List ValueCheck → Option Value
  | [] => none
  | check :: checks =>
    match check path v with
    | .ok w => some w
    | .error _ => firstAccepted? path v checks

/-- Completes a sequence, `range` being named if there is none. A sequence of which nothing is
given is empty. -/
def completeSequence (range : Range) (checks : List Value → List ValueCheck) (path : Path)
    (v : Value) : Except Violation (List Value) :=
  if v.isNil then .ok []
  else match v.elements? with
    | some elements => completeEach path (checks elements) 0 elements
    | none => .error ⟨some range, path, v⟩

/-- The same check for every element. -/
def uniformly (check : ValueCheck) (elements : List Value) : List ValueCheck :=
  List.replicate elements.length check

mutual

/-- Completes a value at a path. -/
def Range.complete : Range → Path → Value → Except Violation Value
  | .any default, _, v => .ok (if v.isNil then default else v)
  | .nonNil, path, v => if v.isNil then .error ⟨some .nonNil, path, v⟩ else .ok v
  | .predicate text accepts default, path, v =>
    if v.isNil then .ok default
    else if accepts v then .ok v
    else .error ⟨some (.predicate text accepts default), path, v⟩
  | .scalar text judge, path, v =>
    (judge path v).mapError (Rejection.toViolation (.scalar text judge))
  | .choice candidates default fits, path, v =>
    if v.isNil then .ok default
    else match candidates.find? fun candidate => fits candidate v with
      | some candidate => .ok candidate
      | none => .error ⟨some (.choice candidates default fits), path, v⟩
  | .mapped text range f, path, v => do
    let w ← range.complete path v
    (f w).mapError (Rejection.toViolation (.mapped text range f))
  | .optional range, path, v => if v.isNil then .ok .undefined else range.complete path v
  | .optionalDefault range default, path, v => range.complete path (if v.isNil then default else v)
  | .anyOf ranges, path, v =>
    match firstAccepted? path v (Range.checks ranges) with
    | some w => .ok w
    | none => .error ⟨some (.anyOf ranges), path, v⟩
  | .sequence range, path, v =>
    (completeSequence (.sequence range) (uniformly range.complete) path v).map .ofList
  | .set range, path, v =>
    (completeSequence (.set range) (uniformly range.complete) path v).map .setOf
  | .tuple ranges, path, v =>
    (completeSequence (.tuple ranges) (fun _ => Range.checks ranges) path v).map .ofList
  | .mapOf key value, path, v =>
    if v.isNil then .ok (.tableOf [])
    else match v.pairs? with
      | some pairs => (completePairs key.complete value.complete path pairs).map .tableOf
      | none => .error ⟨some (.mapOf key value), path, v⟩
  | .schema schema, path, v => (schema.complete [] path v).map .ofEntries

/-- The checks of several ranges. -/
def Range.checks : List Range → List ValueCheck
  | [] => []
  | range :: rest => range.complete :: Range.checks rest

/-- Completes a map at a path, where some values are inherited. -/
def Schema.complete : Schema → Entries Value → Path → Value → Except Violation (Entries Value)
  | ⟨_, settings, sections⟩ => completeLevel (Setting.slots settings) (Section.slots sections)

/-- The check of a setting. -/
def Setting.slot : Setting → Slot ValueCheck
  | ⟨key, _, range, inherit⟩ => ⟨key, inherit, range.complete⟩

/-- The checks of several settings. -/
def Setting.slots : List Setting → List (Slot ValueCheck)
  | [] => []
  | setting :: rest => setting.slot :: Setting.slots rest

/-- The check of a section. -/
def Section.slot : Section → Slot LevelCheck
  | ⟨key, schema, inherit⟩ => ⟨key, inherit, schema.complete⟩

/-- The checks of several sections. -/
def Section.slots : List Section → List (Slot LevelCheck)
  | [] => []
  | node :: rest => node.slot :: Section.slots rest

end

/-! ## The checks of a schema -/

theorem Range.checks_eq_map (ranges : List Range) :
    Range.checks ranges = ranges.map Range.complete := by
  induction ranges with
  | nil => rfl
  | cons r rest ih => simp [Range.checks, ih]

theorem Setting.slot_eq (s : Setting) : s.slot = ⟨s.key, s.inherit, s.range.complete⟩ := by
  cases s; rfl

theorem Section.slot_eq (s : Section) : s.slot = ⟨s.key, s.inherit, s.schema.complete⟩ := by
  cases s; rfl

theorem Setting.slots_eq_map (settings : List Setting) :
    Setting.slots settings = settings.map Setting.slot := by
  induction settings with
  | nil => rfl
  | cons s rest ih => simp [Setting.slots, ih]

theorem Section.slots_eq_map (sections : List Section) :
    Section.slots sections = sections.map Section.slot := by
  induction sections with
  | nil => rfl
  | cons s rest ih => simp [Section.slots, ih]

/-- A schema is completed as one level whose slots complete its settings and sections. -/
theorem Schema.complete_eq (schema : Schema) :
    schema.complete =
      completeLevel (schema.settings.map Setting.slot) (schema.sections.map Section.slot) := by
  cases schema
  rw [← Setting.slots_eq_map, ← Section.slots_eq_map]
  rfl

end LayeredConfig
