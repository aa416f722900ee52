import LayeredConfig.Proofs.Completion.Level
import Mathlib.Data.List.Forall2

/-!
# What completing does not look at

The value of a section is seen by the slot of the section only. So it may be replaced by any other
that the slot takes for the same, and the level as a whole comes to the same outcome, with the same
violation if there is one.

- `CompletedAlike`: two entries that come to the same, whatever is inherited.
- `completeEntries_congr`: entries that pairwise come to the same are completed alike. Each of the
  loops over the given entries has a lemma of its own for this.
- `Schema.complete_congr`: the same for maps. Which objects these are is not looked at either
  (`Schema.complete_ofEntries`).
-/

namespace LayeredConfig

/-- Two entries of a map at a path come to the same. Either they are equal, or they belong to a
section to which their values are the same. -/
inductive CompletedAlike (settings : List (Slot ValueCheck)) (sections : List (Slot LevelCheck))
    (path : Path) : (e e' : String × Value) → Prop
  | equal (e : String × Value) : CompletedAlike settings sections path e e
  | nested {key : String} {v v' : Value} {slot : Slot LevelCheck}
      (hsettings : Slot.find? settings key = none)
      (hslot : Slot.find? sections key = some slot)
      (hrun : ∀ inherited, slot.run inherited (path.entry key) v =
        slot.run inherited (path.entry key) v') :
      CompletedAlike settings sections path (key, v) (key, v')

section Loops

variable {settings : List (Slot ValueCheck)} {sections : List (Slot LevelCheck)} {path : Path}
  {given given' : Entries Value}
  (h : List.Forall₂ (CompletedAlike settings sections path) given given')

include h

theorem givenSettings_congr :
    givenSettings settings path given = givenSettings settings path given' := by
  induction h with
  | nil => rfl
  | cons hfirst _ ih =>
    cases hfirst with
    | equal e => simp only [givenSettings, ih]
    | nested hsettings hslot hrun => simp only [givenSettings, hsettings, ih]

theorem handDown_congr (inherited : Entries Value) :
    handDown settings inherited given = handDown settings inherited given' := by
  induction h generalizing inherited with
  | nil => rfl
  | cons hfirst _ ih =>
    cases hfirst with
    | equal e => exact ih _
    | @nested key v v' slot hsettings hslot hrun =>
      have hdown : Slot.handsDown settings key = false := by rw [Slot.handsDown, hsettings]
      simp only [handDown, hdown, Bool.false_eq_true, if_false, ih]

theorem rejectUndeclared_congr :
    rejectUndeclared settings sections path given =
      rejectUndeclared settings sections path given' := by
  suffices hfirst : undeclared? settings sections given = undeclared? settings sections given' by
    rw [rejectUndeclared, rejectUndeclared, hfirst]
  unfold undeclared?
  induction h with
  | nil => rfl
  | cons hfirst _ ih =>
    cases hfirst with
    | equal e => rw [List.find?_cons, List.find?_cons, ih]
    | @nested key v v' slot hsettings hslot hrun =>
      have hdeclared : Slot.declares sections key = true := by
        rw [Slot.declares, hslot]
        rfl
      simp only [List.find?_cons, hdeclared, Bool.not_true, Bool.and_false, ih]

theorem givenSections_congr (inherited : Entries Value) :
    givenSections sections path inherited given =
      givenSections sections path inherited given' := by
  induction h generalizing inherited with
  | nil => rfl
  | cons hfirst _ ih =>
    cases hfirst with
    | equal e => simp only [givenSections, ih]
    | nested hsettings hslot hrun => simp only [givenSections, hslot, hrun, ih]

/-- **Entries that pairwise come to the same are completed alike.** -/
theorem completeEntries_congr (inherited : Entries Value) :
    completeEntries settings sections inherited path given =
      completeEntries settings sections inherited path given' := by
  unfold completeEntries
  rw [givenSettings_congr h, rejectUndeclared_congr h, handDown_congr h]
  simp only [givenSections_congr h]

end Loops

namespace Schema

variable {schema : Schema} {path : Path} {v v' : Value}

/-- The values that are the same to a section of a schema. -/
theorem completedAlike_of_section (hd : schema.DistinctKeys) {node : Section}
    (hnode : node ∈ schema.sections)
    (h : ∀ inherited, node.schema.complete inherited (path.entry node.key) v =
      node.schema.complete inherited (path.entry node.key) v') :
    CompletedAlike schema.settingSlots schema.sectionSlots path (node.key, v) (node.key, v') := by
  have hsettings : Slot.find? schema.settingSlots node.key = none := by
    cases hfind : Slot.find? schema.settingSlots node.key with
    | none => rfl
    | some slot =>
      obtain ⟨s, hs, hkey, -⟩ := exists_of_find?_settingSlots hfind
      exact absurd hkey (hd.ne hs hnode)
  refine .nested hsettings (hd.find?_sectionSlots hnode) fun inherited => ?_
  rw [Section.run_slot]
  exact h inherited

/-- **Maps whose entries pairwise come to the same are completed alike.** -/
theorem complete_congr (hmap : v.isMap = true) (hmap' : v'.isMap = true)
    (h : List.Forall₂ (CompletedAlike schema.settingSlots schema.sectionSlots path)
      v.entriesOrEmpty v'.entriesOrEmpty) (inherited : Entries Value) :
    schema.complete inherited path v = schema.complete inherited path v' := by
  rw [complete_of_isMap schema hmap, complete_of_isMap schema hmap', completeEntries_congr h]

/-- Of a map, only the entries are looked at. -/
theorem complete_ofEntries (hmap : v.isMap = true) (inherited : Entries Value) :
    schema.complete inherited path (.ofEntries v.entriesOrEmpty) =
      schema.complete inherited path v := by
  rw [complete_of_isMap schema hmap]
  exact complete_of_isMap schema rfl inherited path

end Schema

end LayeredConfig
