import LayeredConfig.Value.Basic

/-!
# Copies of values

`Value.copy` rebuilds string-keyed maps and lists all the way down; what is rebuilt is a new
object. Sets, tables, dates and foreign values stay the objects that they are, with all they hold.

A map is rebuilt by assignment. It becomes an ordinary one, also where the value had a bare one,
unless it has the reserved key (`Value.ofAssigned`): with null under that key its copy is bare, and
with an object under it, the copy is no string-keyed map.
-/

namespace LayeredConfig

namespace Value

mutual

/-- The value with every string-keyed map reached through maps and lists built anew. -/
def copy : Value → Value
  | .list _ vs => .ofList (copyList vs)
  | .object _ _ es => .ofAssigned (copyEntries es)
  | .undefined => .undefined
  | .null => .null
  | .bool b => .bool b
  | .text s => .text s
  | .number n => .number n
  | .bigint n => .bigint n
  | .map i ps => .map i ps
  | .set i vs => .set i vs
  | .date i t => .date i t
  | .foreign i c fs => .foreign i c fs

/-- The copies of a list's elements. -/
def copyList : List Value → List Value
  | [] => []
  | v :: rest => v.copy :: copyList rest

/-- The entries with copied values, not yet rebuilt into a map. -/
def copyEntries : List (String × Value) → List (String × Value)
  | [] => []
  | (k, v) :: rest => (k, v.copy) :: copyEntries rest

end

/-- Whether the value is a list or a string-keyed map, which copying makes anew. -/
def isNested : Value → Bool
  | .list _ _ => true
  | .object _ _ _ => true
  | _ => false

theorem copy_of_not_nested {v : Value} (h : v.isNested = false) : v.copy = v := by
  cases v with
  | list _ _ | object _ _ _ => cases h
  | _ => rfl

theorem copyList_eq_map (vs : List Value) : copyList vs = vs.map copy := by
  induction vs with
  | nil => rfl
  | cons v rest ih => simp [copyList, ih]

theorem copyEntries_eq_map (es : List (String × Value)) :
    copyEntries es = es.map fun e => (e.1, e.2.copy) := by
  induction es with
  | nil => rfl
  | cons e rest ih => obtain ⟨k, v⟩ := e; simp [copyEntries, ih]

end Value

/-- The entries of a string-keyed map that is rebuilt with copied values. -/
def Entries.copy (es : Entries Value) : Entries Value := Entries.rebuild (Value.copyEntries es)

theorem Value.keys_copyEntries (es : Entries Value) :
    Entries.keys (copyEntries es) = Entries.keys es := by
  rw [copyEntries_eq_map, Entries.keys, List.map_map]
  rfl

/-- A map without the reserved key is copied entry by entry, and its copy is an ordinary one. -/
theorem Value.copy_object {es : Entries Value} (h : reservedKey ∉ Entries.keys es) (i : Identity)
    (bare : Bool) : (Value.object i bare es).copy = .ofEntries es.copy := by
  rw [copy, ofAssigned_of_not_mem (by rwa [keys_copyEntries])]
  rfl

theorem Value.copy_of_isMap {v : Value} (hmap : v.isMap = true)
    (h : reservedKey ∉ Entries.keys v.entriesOrEmpty) :
    v.copy = .ofEntries v.entriesOrEmpty.copy := by
  cases v with
  | object i bare es => exact copy_object h i bare
  | _ => cases hmap

end LayeredConfig
