/-!
# Ordered entries

The entries of a string-keyed map, in the order in which everything that walks the map sees
them.

- `Entries`: a list of key-value pairs. A map's keys are distinct, and they stand in *property
  order*: first the index keys (`indexKey?`: canonical decimals below `4294967295`) ascending
  by number, then all other keys in the order of their first insertion.
- `insert`: gives a key a value. A present key keeps its place and a new one takes the place
  that property order gives it; `get?_insert` says that this is all that changes.
- `assign`: `insert`, except that the reserved key is not created. A map that is rebuilt
  entry by entry (`rebuild`) therefore has no entry of the reserved key. What the assigned value
  does to the map instead is told by `Value.ofAssigned`.
-/

namespace LayeredConfig

/-- Key-value pairs of a string-keyed map, in property order. -/
abbrev Entries (α : Type) := List (String × α)

/-! ## Index keys -/

/-- One past the largest number that is an index key. -/
def indexBound : Nat := 4294967295

/-- The number that an index key stands for: a decimal without sign or leading zero, below
`indexBound`. Other keys have none. -/
def indexKey? (key : String) : Option Nat :=
  let ds := key.toList
  if ds.isEmpty || !ds.all Char.isDigit then none
  else if ds.head? == some '0' && ds.length ≠ 1 then none
  else
    let n := ds.foldl (fun n c => 10 * n + (c.toNat - '0'.toNat)) 0
    if n < indexBound then some n else none

/-- Whether a new key `a` goes in front of the present key `b`: an index key goes in front of
larger index keys and of all other keys. -/
def goesBefore (a b : String) : Bool :=
  match indexKey? a, indexKey? b with
  | some m, some n => m < n
  | some _, none => true
  | none, _ => false

/-- The key that is never created by assignment: writing to it does not add an entry but sets the
parent of the map. -/
def reservedKey : String := "__proto__"

namespace Entries

variable {α β : Type}

/-! ## Looking up -/

/-- The keys in property order. -/
def keys (es : Entries α) : List String := es.map (·.1)

/-- The value under a key. -/
def get? : Entries α → String → Option α
  | [], _ => none
  | (k, v) :: rest, key => if k = key then some v else get? rest key

/-- Whether the map has an entry of that key. -/
def has (es : Entries α) (key : String) : Bool := (get? es key).isSome

@[simp] theorem get?_nil (key : String) : get? ([] : Entries α) key = none := rfl

@[simp] theorem has_nil (key : String) : has ([] : Entries α) key = false := rfl

theorem get?_cons (k : String) (v : α) (rest : Entries α) (key : String) :
    get? ((k, v) :: rest) key = if k = key then some v else get? rest key := rfl

theorem get?_eq_none_iff {es : Entries α} {key : String} :
    get? es key = none ↔ key ∉ keys es := by
  induction es with
  | nil => simp [keys]
  | cons e rest ih =>
    obtain ⟨k, v⟩ := e
    by_cases h : k = key
    · simp [get?_cons, keys, h]
    · simp only [get?_cons, if_neg h, ih]
      simp [keys, Ne.symm h]

theorem has_iff {es : Entries α} {key : String} : has es key = true ↔ key ∈ keys es := by
  rw [has, Option.isSome_iff_ne_none, ne_eq, get?_eq_none_iff, Decidable.not_not]

/-! ## Adding entries -/

/-- Puts an entry whose key is new where property order wants it. -/
def place (key : String) (value : α) : Entries α → Entries α
  | [] => [(key, value)]
  | (k, v) :: rest =>
    if goesBefore key k then (key, value) :: (k, v) :: rest else (k, v) :: place key value rest

/-- Gives a present key another value, where it stands. -/
def replace (key : String) (value : α) : Entries α → Entries α
  | [] => []
  | (k, v) :: rest => if k = key then (k, value) :: rest else (k, v) :: replace key value rest

/-- Gives `key` the value `value`. -/
def insert (es : Entries α) (key : String) (value : α) : Entries α :=
  if has es key then replace key value es else place key value es

/-- The entries of a map after an assignment: `insert`, except that the reserved key is not
created. -/
def assign (es : Entries α) (key : String) (value : α) : Entries α :=
  if key = reservedKey ∧ has es key = false then es else insert es key value

/-- The map that arises when entries are inserted one after the other. -/
def ofList (es : List (String × α)) : Entries α := es.foldl (fun m e => insert m e.1 e.2) []

/-- Assigns entries one after the other. -/
def assignAll (es : Entries α) (new : List (String × α)) : Entries α :=
  new.foldl (fun m e => assign m e.1 e.2) es

/-- The entries of the new map to which entries are assigned one after the other. -/
def rebuild (es : List (String × α)) : Entries α := assignAll [] es

/-- The entries of two maps together; under a common key the second one's value, at the place
that the key has in the first. -/
def union (es other : Entries α) : Entries α := other.foldl (fun m e => insert m e.1 e.2) es

theorem get?_place (key : String) (value : α) (es : Entries α) (h : key ∉ keys es)
    (other : String) :
    get? (place key value es) other = if key = other then some value else get? es other := by
  induction es with
  | nil => simp [place, get?_cons]
  | cons e rest ih =>
    obtain ⟨k, v⟩ := e
    simp only [keys, List.map_cons, List.mem_cons, not_or] at h
    simp only [place]
    split
    · simp [get?_cons]
    · rw [get?_cons, ih h.2, get?_cons]
      by_cases hk : k = other
      · simp [hk, hk ▸ h.1]
      · simp [hk]

theorem get?_replace (key : String) (value : α) (es : Entries α) (h : key ∈ keys es)
    (other : String) :
    get? (replace key value es) other = if key = other then some value else get? es other := by
  induction es with
  | nil => simp [keys] at h
  | cons e rest ih =>
    obtain ⟨k, v⟩ := e
    simp only [replace]
    by_cases hk : k = key
    · subst hk
      by_cases ho : k = other <;> simp [get?_cons, ho]
    · have h' : key ∈ keys rest := by simpa [keys, Ne.symm hk] using h
      rw [if_neg hk, get?_cons, ih h', get?_cons]
      by_cases ho : k = other
      · have hne : key ≠ other := fun e => hk (ho.trans e.symm)
        simp [ho, hne]
      · simp [ho]

/-- Inserting gives the key its value and leaves every other key alone. -/
@[simp] theorem get?_insert (es : Entries α) (key : String) (value : α) (other : String) :
    get? (insert es key value) other = if key = other then some value else get? es other := by
  unfold insert
  split
  · exact get?_replace key value es (has_iff.1 ‹_›) other
  · exact get?_place key value es (fun h => ‹¬ has es key = true› (has_iff.2 h)) other

theorem assign_of_ne {key : String} (h : key ≠ reservedKey) (es : Entries α) (value : α) :
    assign es key value = insert es key value := by simp [assign, h]

theorem get?_assign_of_ne {key : String} (h : key ≠ reservedKey) (es : Entries α) (value : α)
    (other : String) :
    get? (assign es key value) other = if key = other then some value else get? es other := by
  rw [assign_of_ne h, get?_insert]

end Entries

end LayeredConfig
