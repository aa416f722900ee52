import LayeredConfig.Entries
import LayeredConfig.Number.Basic

/-!
# Configuration values

The data that a configuration is written in, before and after it is checked.

- `Value`: one tree type. String-keyed maps (`object`) nest sections and settings; `list`,
  `set` and `map` hold sequences, sets and tables with arbitrary keys; `date` and `foreign`
  are carried through unread.
- `Identity`: which object a container is, where that matters.
- `Value.isNil`: `undefined` and `null` both say that nothing is given. An entry may hold
  either, which differs from having no entry.
- `Value.entries?`, `Value.elements?`, `Value.pairs?`: a value seen as a map of sections and
  settings, as a sequence, and as a table.
- `Value.ofAssigned`: the object that arises when entries are assigned one after the other to a new
  map. It is that map, unless the reserved key is among them.

Only sets, the keys of tables and strict comparison look at the identity of a container
(`LayeredConfig.Value.Identity`). Everything else sees what the container holds.
-/

namespace LayeredConfig

/-- Which object a container is. A container from outside has a number, by which it is
recognised wherever it is put in, for instance as the default of several elements of a set. A
container that is built on the way is anonymous: each occurrence is an object of its own. -/
inductive Identity where
  | anonymous
  | numbered (number : Nat)
deriving DecidableEq, Inhabited

/-- A raw or completed configuration value. -/
inductive Value where
  | undefined
  | null
  | bool (value : Bool)
  | text (value : String)
  | number (value : Number)
  /-- An integer kept apart from the numbers. -/
  | bigint (value : Int)
  | list (identity : Identity) (elements : List Value)
  /-- A string-keyed map. A `bare` one was made without a parent to inherit from; it is read in
  the same way and is only written differently. -/
  | object (identity : Identity) (bare : Bool) (entries : List (String × Value))
  /-- A table with arbitrary keys, in insertion order. -/
  | map (identity : Identity) (pairs : List (Value × Value))
  /-- Members in insertion order. -/
  | set (identity : Identity) (members : List Value)
  /-- A point in time, by its text `2024-01-15T10:30:00.000Z`. -/
  | date (identity : Identity) (time : String)
  /-- A value of another type, known by the type's name and its fields: one from outside, or a map
  that was given another parent. -/
  | foreign (identity : Identity) (typeName : String) (fields : List (String × Value))
deriving Inhabited

namespace Value

/-- Whether nothing is given. -/
def isNil : Value → Bool
  | .undefined | .null => true
  | _ => false

theorem isNil_iff {v : Value} : v.isNil = true ↔ v = .undefined ∨ v = .null := by
  cases v <;> simp [isNil]

/-- A new list. -/
def ofList (vs : List Value) : Value := .list .anonymous vs

/-- A new ordinary string-keyed map. -/
def ofEntries (es : Entries Value) : Value := .object .anonymous false es

/-- A new map without entries. -/
def emptyMap : Value := ofEntries []

/-- The entries of a string-keyed map; other values have none. -/
def entries? : Value → Option (Entries Value)
  | .object _ _ es => some es
  | _ => none

/-- Whether the value is a string-keyed map. -/
def isMap (v : Value) : Bool := v.entries?.isSome

/-- The entries of a string-keyed map, and no entries for any other value. -/
def entriesOrEmpty (v : Value) : Entries Value := v.entries?.getD []

@[simp] theorem entries?_object (i : Identity) (bare : Bool) (es : Entries Value) :
    entries? (.object i bare es) = some es := rfl

@[simp] theorem entries?_ofEntries (es : Entries Value) : entries? (ofEntries es) = some es := rfl

@[simp] theorem entriesOrEmpty_ofEntries (es : Entries Value) :
    entriesOrEmpty (ofEntries es) = es := rfl

/-! ## Assigning entries -/

/-- The name of the type of an object whose parent is the value; a scalar is no parent. That a line
of parents may end in a bare map is not told in the name. -/
def childType? : Value → Option String
  | .object _ _ _ => some "Object"
  | .list _ _ => some "Array"
  | .map _ _ => some "Map"
  | .set _ _ => some "Set"
  | .date _ _ => some "Date"
  | .foreign _ typeName _ => some typeName
  | .undefined | .null | .bool _ | .text _ | .number _ | .bigint _ => none

/-- The map with these entries after a value was assigned to its reserved key. Null leaves it
without a parent, and an object becomes its parent, which makes it an object of another type: no
string-keyed map any more. Anything else is ignored. -/
def withParent (es : Entries Value) : Value → Value
  | .null => .object .anonymous true es
  | parent =>
    match parent.childType? with
    | some typeName => .foreign .anonymous typeName es
    | none => .ofEntries es

/-- The object that arises when entries are assigned one after the other to a new map. -/
def ofAssigned (es : List (String × Value)) : Value :=
  match Entries.get? es reservedKey with
  | some parent => withParent (Entries.rebuild es) parent
  | none => .ofEntries (Entries.rebuild es)

theorem ofAssigned_of_not_mem {es : Entries Value} (h : reservedKey ∉ Entries.keys es) :
    ofAssigned es = .ofEntries (Entries.rebuild es) := by
  rw [ofAssigned, Entries.get?_eq_none_iff.2 h]

/-- What becomes of a new map to which entries are assigned: a bare map exactly if null is assigned
to the reserved key, else an ordinary one or an object of another type. -/
theorem ofAssigned_cases (es : Entries Value) :
    (Entries.get? es reservedKey = some .null ∧
      ofAssigned es = .object .anonymous true (Entries.rebuild es)) ∨
    Entries.get? es reservedKey ≠ some .null ∧
      (ofAssigned es = .ofEntries (Entries.rebuild es) ∨
        ∃ parent typeName, Entries.get? es reservedKey = some parent ∧
          parent.childType? = some typeName ∧
          ofAssigned es = .foreign .anonymous typeName (Entries.rebuild es)) := by
  unfold ofAssigned
  cases Entries.get? es reservedKey with
  | none => exact .inr ⟨nofun, .inl rfl⟩
  | some parent =>
    cases parent with
    | null => exact .inl ⟨rfl, rfl⟩
    | undefined | bool _ | text _ | number _ | bigint _ => exact .inr ⟨nofun, .inl rfl⟩
    | object _ _ _ | list _ _ | map _ _ | set _ _ | date _ _ | foreign _ _ _ =>
      exact .inr ⟨nofun, .inr ⟨_, _, rfl, rfl, rfl⟩⟩

@[simp] theorem isNil_ofAssigned (es : Entries Value) : (ofAssigned es).isNil = false := by
  rcases ofAssigned_cases es with ⟨-, h⟩ | ⟨-, h | ⟨_, _, -, -, h⟩⟩ <;> rw [h] <;> rfl

/-- If a map comes of it, the map has the entries that are assigned. -/
theorem entries?_ofAssigned {es : Entries Value} (h : (ofAssigned es).isMap = true) :
    (ofAssigned es).entries? = some (Entries.rebuild es) := by
  rcases ofAssigned_cases es with ⟨-, heq⟩ | ⟨-, heq | ⟨_, _, -, -, heq⟩⟩
  · rw [heq, entries?_object]
  · rw [heq, entries?_ofEntries]
  · rw [heq] at h
    cases h

/-- The value itself, or a new empty map where nothing is given. -/
def orEmptyMap (v : Value) : Value := if v.isNil then emptyMap else v

@[simp] theorem orEmptyMap_of_isNil {v : Value} (h : v.isNil = true) :
    v.orEmptyMap = emptyMap := by simp [orEmptyMap, h]

/-- The elements of a list or the members of a set. -/
def elements? : Value → Option (List Value)
  | .list _ vs => some vs
  | .set _ vs => some vs
  | _ => none

@[simp] theorem elements?_ofList (vs : List Value) : elements? (ofList vs) = some vs := rfl

/-- The pairs of a table; a string-keyed map is the table of its entries. -/
def pairs? : Value → Option (List (Value × Value))
  | .object _ _ es => some (es.map fun e => (.text e.1, e.2))
  | .map _ ps => some ps
  | _ => none

end Value

/-- The value under a key, `undefined` where there is no entry. -/
def Entries.read (es : Entries Value) (key : String) : Value :=
  (Entries.get? es key).getD .undefined

theorem Entries.read_of_get? {es : Entries Value} {key : String} {v : Value}
    (h : Entries.get? es key = some v) : Entries.read es key = v := by simp [Entries.read, h]

end LayeredConfig
