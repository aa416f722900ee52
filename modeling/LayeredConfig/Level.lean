import LayeredConfig.Slot
import LayeredConfig.Violation

/-!
# Completing one level

How a string-keyed map is completed, when it is known how to complete each setting and section
of it (`completeLevel`). The steps, each of which may end in the violation that is reported:

1. the given settings are completed, in the order of the map (`givenSettings`);
2. an undeclared key is rejected (`rejectUndeclared`);
3. the settings that are not given take what is inherited, and else complete from nothing, in
   declaration order (`fill`);
4. the given sections are completed, in the order of the map (`givenSections`);
5. the sections that are not given take what is inherited, and else complete from the empty map,
   in declaration order (`fill`).

The completed map has the settings in declaration order, then the sections, as far as property
order allows. It is known by its entries: of what assigning to the reserved key does, should a
schema declare it, only that there is no such entry is told.

What is inherited grows on the way. An inheriting setting hands down the raw value that is
given for it, before the sections are completed (`handDown`). An inheriting section hands down
its completed map, to the sections completed after it.
-/

namespace LayeredConfig

/-- How a value at a path is completed. -/
abbrev ValueCheck := Path → Value → Except Violation Value

/-- How a map at a path is completed, where some values are inherited. -/
abbrev LevelCheck := Entries Value → Path → Value → Except Violation (Entries Value)

/-- The completed values of the given settings, in the order of the given entries. -/
def givenSettings (settings : List (Slot ValueCheck)) (path : Path) :
    Entries Value → Except Violation (List (String × Value))
  | [] => .ok []
  | (k, v) :: rest =>
    match Slot.find? settings k with
    | none => givenSettings settings path rest
    | some slot => do
      let w ← slot.run (path.entry k) v
      let ws ← givenSettings settings path rest
      return (k, w) :: ws

/-- What is inherited, extended by the raw values of the inheriting settings. -/
def handDown (settings : List (Slot ValueCheck)) :
    (inherited given : Entries Value) → Entries Value
  | inherited, [] => inherited
  | inherited, (k, v) :: rest =>
    handDown settings
      (if Slot.handsDown settings k then Entries.assign inherited k v else inherited) rest

/-- The first given entry whose key is not declared. -/
def undeclared? (settings : List (Slot ValueCheck)) (sections : List (Slot LevelCheck))
    (given : Entries Value) : Option (String × Value) :=
  given.find? fun e => !Slot.declares settings e.1 && !Slot.declares sections e.1

/-- Rejects the first given entry whose key is not declared. -/
def rejectUndeclared (settings : List (Slot ValueCheck)) (sections : List (Slot LevelCheck))
    (path : Path) (given : Entries Value) : Except Violation Unit :=
  match undeclared? settings sections given with
  | some (k, v) => .error ⟨none, path.entry k, v⟩
  | none => .ok ()

/-- The value for a slot: the one at hand in `done`, else the inherited one, else what `absent`
says. -/
def slotValue {α : Type} (done : List (String × Value)) (inherited : Entries Value)
    (absent : Slot α → Except Violation Value) (slot : Slot α) : Except Violation Value :=
  match (Entries.get? done slot.key).or (Entries.get? inherited slot.key) with
  | some w => .ok w
  | none => absent slot

/-- The value for every slot, in declaration order. -/
def fill {α : Type} (done : List (String × Value)) (inherited : Entries Value)
    (absent : Slot α → Except Violation Value) :
    List (Slot α) → Except Violation (List (String × Value))
  | [] => .ok []
  | slot :: rest => do
    let w ← slotValue done inherited absent slot
    let ws ← fill done inherited absent rest
    return (slot.key, w) :: ws

/-- The completed maps of some given sections, and what is inherited after the last of them. -/
structure SectionProgress where
  done : List (String × Value)
  inherited : Entries Value

/-- What is inherited after a section: with its completed map, if the section hands it down. -/
def handDownSection (slot : Slot LevelCheck) (inherited completed : Entries Value) :
    Entries Value :=
  if slot.inherit then Entries.assign inherited slot.key (.ofEntries completed) else inherited

/-- Completes the given sections, in the order of the given entries. -/
def givenSections (sections : List (Slot LevelCheck)) (path : Path) :
    (inherited given : Entries Value) → Except Violation SectionProgress
  | inherited, [] => .ok ⟨[], inherited⟩
  | inherited, (k, v) :: rest =>
    match Slot.find? sections k with
    | none => givenSections sections path inherited rest
    | some slot => do
      let es ← slot.run inherited (path.entry k) v
      let later ← givenSections sections path (handDownSection slot inherited es) rest
      return ⟨(k, .ofEntries es) :: later.done, later.inherited⟩

/-- A setting that is not given completes from nothing. -/
def absentSetting (path : Path) (slot : Slot ValueCheck) : Except Violation Value :=
  slot.run (path.entry slot.key) .undefined

/-- A section that is not given completes from the empty map. -/
def absentSection (path : Path) (inherited : Entries Value) (slot : Slot LevelCheck) :
    Except Violation Value :=
  (slot.run inherited (path.entry slot.key) .emptyMap).map .ofEntries

/-- Completes the entries of a map. -/
def completeEntries (settings : List (Slot ValueCheck)) (sections : List (Slot LevelCheck))
    (inherited : Entries Value) (path : Path) (given : Entries Value) :
    Except Violation (Entries Value) := do
  let doneSettings ← givenSettings settings path given
  rejectUndeclared settings sections path given
  let inherited := handDown settings inherited given
  let filledSettings ← fill doneSettings inherited (absentSetting path) settings
  let progress ← givenSections sections path inherited given
  let filledSections ←
    fill progress.done progress.inherited (absentSection path progress.inherited) sections
  return Entries.rebuild (filledSettings ++ filledSections)

/-- Completes a value that is to be a map. Nothing given counts as the empty map. -/
def completeLevel (settings : List (Slot ValueCheck)) (sections : List (Slot LevelCheck)) :
    LevelCheck := fun inherited path value =>
  match value.orEmptyMap.entries? with
  | some given => completeEntries settings sections inherited path given
  | none => .error ⟨none, path, value⟩

end LayeredConfig
