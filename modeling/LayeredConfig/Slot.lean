/-!
# Slots

A `Slot` is a declared key of a map together with what is to be done with the value under it:
complete it, lay another one over it, collect its leaves. One level of a schema is handled on
its slots alone; that the work of a slot may in turn handle a nested schema does not matter
there.
-/

namespace LayeredConfig

/-- A declared key and the work on its value. -/
structure Slot (α : Type) where
  key : String
  /-- Whether what is given under the key is handed down to nested sections. -/
  inherit : Bool
  run : α

namespace Slot

variable {α : Type}

/-- The slot of a key. -/
def find? (slots : List (Slot α)) (key : String) : Option (Slot α) :=
  slots.find? (·.key == key)

/-- Whether the key is declared. -/
def declares (slots : List (Slot α)) (key : String) : Bool := (find? slots key).isSome

/-- Whether the key is declared and its value handed down. -/
def handsDown (slots : List (Slot α)) (key : String) : Bool :=
  match find? slots key with
  | some slot => slot.inherit
  | none => false

theorem key_of_find? {slots : List (Slot α)} {key : String} {slot : Slot α}
    (h : find? slots key = some slot) : slot.key = key := by
  simpa using List.find?_some h

theorem mem_of_find? {slots : List (Slot α)} {key : String} {slot : Slot α}
    (h : find? slots key = some slot) : slot ∈ slots := List.mem_of_find?_eq_some h

theorem declares_iff {slots : List (Slot α)} {key : String} :
    declares slots key = true ↔ key ∈ slots.map Slot.key := by
  simp [declares, find?, List.find?_isSome]

end Slot

end LayeredConfig
