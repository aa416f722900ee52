import LayeredConfig.Value.Copy
import LayeredConfig.Proofs.Data.WellFormed

/-!
# Walking through sections

Raw and completed maps are read alike: by the keys of nested sections, and the key of a setting at
the end.

- `Value.within`: the entries of the map to which the sections lead. A section that is absent or
  not given counts as the empty map.
- `Value.held?`: the value that is held under a key there. An explicit nil is held like any other
  value.

A walk sees neither the difference between an absent, an undefined and an empty section
(`within_orEmptyMap`) nor, where no map on the way has the reserved key, that between a map and a
copy of it (`held?_copy`).
-/

namespace LayeredConfig

namespace Value

/-- The entries of the map to which nested sections lead. Where a section is absent, or is no
map, there are none. -/
def within : Value → List String → Entries Value
  | v, [] => v.entriesOrEmpty
  | v, key :: rest => (Entries.read v.entriesOrEmpty key).within rest

/-- The value that is held under a key where nested sections lead. -/
def held? (v : Value) (sections : List String) (key : String) : Option Value :=
  Entries.get? (v.within sections) key

theorem within_cons (v : Value) (key : String) (rest : List String) :
    v.within (key :: rest) = (Entries.read v.entriesOrEmpty key).within rest := rfl

theorem held?_cons (v : Value) (head : String) (rest : List String) (key : String) :
    v.held? (head :: rest) key = (Entries.read v.entriesOrEmpty head).held? rest key := rfl

/-- A walk looks at the entries of a value only. -/
theorem within_congr {v w : Value} (h : v.entriesOrEmpty = w.entriesOrEmpty)
    (sections : List String) : v.within sections = w.within sections := by
  cases sections with
  | nil => exact h
  | cons key rest => rw [within_cons, within_cons, h]

theorem within_undefined (sections : List String) : Value.undefined.within sections = [] := by
  induction sections with
  | nil => rfl
  | cons key rest ih => exact ih

theorem isMap_of_entries? {v : Value} {es : Entries Value} (h : v.entries? = some es) :
    v.isMap = true := by
  rw [isMap, h]
  rfl

theorem entriesOrEmpty_of_entries? {v : Value} {es : Entries Value} (h : v.entries? = some es) :
    v.entriesOrEmpty = es := by
  rw [entriesOrEmpty, h]
  rfl

theorem entriesOrEmpty_orEmptyMap (v : Value) :
    v.orEmptyMap.entriesOrEmpty = v.entriesOrEmpty := by
  unfold orEmptyMap
  cases v <;> rfl

/-- What is to be a map is one once nothing given counts as the empty map. -/
theorem entries?_orEmptyMap_iff {v : Value} {es : Entries Value} :
    v.orEmptyMap.entries? = some es ↔
      (v.isNil = true ∨ v.isMap = true) ∧ v.entriesOrEmpty = es := by
  cases v <;>
    simp [orEmptyMap, isNil, isMap, emptyMap, ofEntries, Value.entriesOrEmpty, entries?, eq_comm]

/-- A map is something given. -/
theorem orEmptyMap_of_isMap {v : Value} (h : v.isMap = true) : v.orEmptyMap = v := by
  cases v with
  | object _ _ _ => rfl
  | _ => cases h

theorem within_orEmptyMap (v : Value) (sections : List String) :
    v.orEmptyMap.within sections = v.within sections :=
  within_congr (entriesOrEmpty_orEmptyMap v) sections

theorem held?_orEmptyMap (v : Value) (sections : List String) (key : String) :
    v.orEmptyMap.held? sections key = v.held? sections key := by
  rw [held?, within_orEmptyMap]
  rfl

/-- Where the section that a walk begins with is absent, nothing is held. -/
theorem held?_cons_of_get?_eq_none {v : Value} {head : String}
    (h : Entries.get? v.entriesOrEmpty head = none) (rest : List String) (key : String) :
    v.held? (head :: rest) key = none := by
  have hread : Entries.read v.entriesOrEmpty head = .undefined := by
    simp [Entries.read, h]
  rw [held?_cons, hread]
  unfold held?
  rw [within_undefined]
  rfl

theorem held?_cons_of_get? {v w : Value} {head : String}
    (h : Entries.get? v.entriesOrEmpty head = some w) (rest : List String) (key : String) :
    v.held? (head :: rest) key = w.held? rest key := by
  rw [held?_cons, Entries.read_of_get? h]

/-- A walk through a value that is held goes on in that value. -/
theorem held?_append {v w : Value} {before : List String} {head : String}
    (h : v.held? before head = some w) (after : List String) (key : String) :
    v.held? (before ++ head :: after) key = w.held? after key := by
  induction before generalizing v with
  | nil => exact held?_cons_of_get? h after key
  | cons first rest ih =>
    rw [List.cons_append, held?_cons]
    exact ih h

/-- What holds anything is a map. -/
theorem entries?_of_held? {v w : Value} {sections : List String} {key : String}
    (h : v.held? sections key = some w) : v.entries? = some v.entriesOrEmpty := by
  unfold Value.entriesOrEmpty
  cases hv : v.entries? with
  | some es => rfl
  | none =>
    have hentries : v.entriesOrEmpty = Value.undefined.entriesOrEmpty := by
      rw [Value.entriesOrEmpty, hv]
      rfl
    rw [held?, within_congr hentries, within_undefined] at h
    cases h

theorem isMap_of_held? {v w : Value} {sections : List String} {key : String}
    (h : v.held? sections key = some w) : v.isMap = true :=
  isMap_of_entries? (entries?_of_held? h)

/-- A walk that begins alike ends alike. -/
theorem held?_congr {v w : Value} {sections : List String} {key : String}
    (h : ∀ head ∈ (sections ++ [key]).head?,
      Entries.get? v.entriesOrEmpty head = Entries.get? w.entriesOrEmpty head) :
    v.held? sections key = w.held? sections key := by
  cases sections with
  | nil => exact h key rfl
  | cons head rest =>
    rw [held?_cons, held?_cons, Entries.read, Entries.read, h head rfl]

theorem WellFormed.within {v : Value} (h : v.WellFormed) (sections : List String) :
    (ofEntries (v.within sections)).WellFormed := by
  induction sections generalizing v with
  | nil => exact wellFormed_ofEntries_iff.2 h.entriesOrEmpty
  | cons key rest ih => exact ih (h.read key)

/-! ## Copies -/

/-- Wherever the walk comes, the keys of the map are distinct, and the reserved key is not among
them. -/
def PlainAlong : Value → List String → Prop
  | v, [] => (Entries.keys v.entriesOrEmpty).Nodup ∧ reservedKey ∉ Entries.keys v.entriesOrEmpty
  | v, key :: rest =>
    ((Entries.keys v.entriesOrEmpty).Nodup ∧ reservedKey ∉ Entries.keys v.entriesOrEmpty) ∧
      (Entries.read v.entriesOrEmpty key).PlainAlong rest

/-- A map that is copied holds the copies, the reserved key left aside. -/
theorem get?_copiedEntries {es : Entries Value} (hn : (Entries.keys es).Nodup) {key : String}
    (hkey : key ≠ reservedKey) :
    Entries.get? (Entries.copy es) key = (Entries.get? es key).map copy := by
  rw [Entries.copy, Entries.get?_rebuild hkey (by rwa [keys_copyEntries]), copyEntries_eq_map,
    Entries.get?_mapValues]

theorem get?_copy {v : Value} (hn : (Entries.keys v.entriesOrEmpty).Nodup)
    (hr : reservedKey ∉ Entries.keys v.entriesOrEmpty) (key : String) :
    Entries.get? v.copy.entriesOrEmpty key = (Entries.get? v.entriesOrEmpty key).map copy := by
  cases v with
  | object i bare es =>
    have hcopy : (object i bare es).copy = ofEntries (Entries.copy es) := copy_object hr i bare
    rw [hcopy]
    by_cases hkey : key = reservedKey
    · rw [hkey, Entries.get?_eq_none_iff.2 hr]
      exact Entries.get?_eq_none_iff.2 (Entries.reservedKey_not_mem_keys_rebuild _)
    · exact get?_copiedEntries hn hkey
  | _ => rfl

theorem read_copy {v : Value} (hn : (Entries.keys v.entriesOrEmpty).Nodup)
    (hr : reservedKey ∉ Entries.keys v.entriesOrEmpty) (key : String) :
    Entries.read v.copy.entriesOrEmpty key = (Entries.read v.entriesOrEmpty key).copy := by
  rw [Entries.read, Entries.read, get?_copy hn hr key]
  cases Entries.get? v.entriesOrEmpty key <;> rfl

/-- **A copy holds the copies.** -/
theorem held?_copy {v : Value} {sections : List String} (h : v.PlainAlong sections)
    (key : String) : v.copy.held? sections key = (v.held? sections key).map copy := by
  induction sections generalizing v with
  | nil => exact get?_copy h.1 h.2 key
  | cons head rest ih =>
    rw [held?_cons, held?_cons, read_copy h.1.1 h.1.2]
    exact ih h.2

end Value

end LayeredConfig
