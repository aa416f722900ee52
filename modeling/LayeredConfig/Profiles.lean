import LayeredConfig.Log.Traced
import LayeredConfig.Overlay

/-!
# Layers and profiles

A top-level raw map may hold, beside the settings and sections of its schema, named profiles:
maps that are laid over it on demand.

- `Layer`: a raw map taken apart into its base and its profiles.
- `Schema.mergeLayers`: several raw maps laid over each other. A profile of an upper layer
  replaces the profile of the same name below as a whole; its contents are not looked at.
- `Schema.overlayProfiles`: the base of a raw map with profiles laid over it, in the order in
  which they are named.
-/

namespace LayeredConfig

/-- The top-level key that holds the profiles by name. -/
def profilesKey : String := "profiles"

/-- A raw top-level map: the part that its schema describes, and its profiles, if it has any. -/
structure Layer where
  base : Value
  profiles : Option (Entries Value)

/-- Takes a raw map apart. A map that has no profiles is its own base; otherwise the base is built
by assigning the other entries to a new map. -/
def Layer.of (operation : Operation) (map : Value) : Except Fault Layer := do
  let es ← requireMap operation [] map
  match Entries.get? es profilesKey with
  | none => return ⟨map, none⟩
  | some v =>
    let profiles ← requireMap operation [.key profilesKey] v
    return ⟨.ofAssigned (es.filter fun e => e.1 ≠ profilesKey), some profiles⟩

/-- The profiles of two layers, those of the upper one replacing those below; none if neither
layer has any. -/
def mergeProfiles : (lower upper : Option (Entries Value)) → Option (Entries Value)
  | none, none => none
  | lower, upper => some (Entries.union (lower.getD []) (upper.getD []))

namespace Schema

/-- Lays a raw map over another, profiles included. -/
def mergePair (schema : Schema) (lower upper : Value) : Except Fault (Entries Value) := do
  let lower ← Layer.of .mergeLayers lower
  let upper ← Layer.of .mergeLayers upper
  let merged ← schema.overlay [] lower.base upper.base
  return match mergeProfiles lower.profiles upper.profiles with
    | none => merged
    | some profiles => Entries.insert merged profilesKey (.ofEntries profiles)

/-- Lays raw maps over each other, the first at the bottom. -/
def mergeLayers (schema : Schema) (first second : Value) (rest : List Value) :
    Except Fault (Entries Value) := do
  rest.foldlM (fun merged next => schema.mergePair (.ofEntries merged) next)
    (← schema.mergePair first second)

/-- The contents of the named profiles, in the order of the names. -/
def selectProfiles (available : Entries Value) : List String → Except Fault (List Value)
  | [] => .ok []
  | name :: rest =>
    match Entries.get? available name with
    | none => .error (.missingProfile name (Entries.keys available))
    | some content => (selectProfiles available rest).map (content :: ·)

/-- Lays the contents of profiles over a base. The base alone is left as it is. -/
def overlayAll (schema : Schema) (base : Value) (contents : List Value) : Except Fault Value :=
  contents.foldlM (fun map content => (schema.overlay [] map content).map .ofEntries) base

/-- Logs which profiles are about to be applied, if there are any. -/
def logSelection (package : Log.Logger) (names : List String) : Traced Unit :=
  if names.isEmpty then pure ()
  else Traced.log (package.child "merge") .debug "profiles_applied"
    [("profiles", Fault.textList names)]

/-- Lays the named profiles of a raw map over its base. Once all of them are found, this is
logged. -/
def overlayProfiles (schema : Schema) (package : Log.Logger) (map : Value) (names : List String) :
    Traced Value := do
  let layer ← Traced.ofExcept (Layer.of .overlayProfiles map)
  let contents ← Traced.ofExcept (selectProfiles (layer.profiles.getD []) names)
  logSelection package names
  Traced.ofExcept (schema.overlayAll layer.base contents)

end Schema

end LayeredConfig
