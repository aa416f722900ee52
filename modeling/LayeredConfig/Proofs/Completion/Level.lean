import LayeredConfig.Proofs.Completion.Loops
import LayeredConfig.Proofs.Data.Walk

/-!
# What a completed level tells

A schema is completed level by level. This module says what one level comes to, for the settings
and sections of the schema, and from here on the level is not opened again.

- `Setting.outcome`: what becomes of a setting.
- `Schema.handedDown`: what is inherited below the settings of a level.
- `Schema.LevelDone`: the entries of a completed level. `Schema.levelDone_of_complete` says that
  every successful completion comes to that, and `LevelDone.complete_eq_ok` is the converse.
- Where no section hands its map down, all sections of the level inherit the same
  (`LevelDone.nested_steady`), and `Schema.complete_exists_iff` says exactly when the level can be
  completed.
-/

namespace LayeredConfig

@[simp] theorem Setting.key_slot (s : Setting) : s.slot.key = s.key := by rw [Setting.slot_eq]

@[simp] theorem Setting.inherit_slot (s : Setting) : s.slot.inherit = s.inherit := by
  rw [Setting.slot_eq]

@[simp] theorem Setting.run_slot (s : Setting) : s.slot.run = s.range.complete := by
  rw [Setting.slot_eq]

@[simp] theorem Section.key_slot (node : Section) : node.slot.key = node.key := by
  rw [Section.slot_eq]

@[simp] theorem Section.inherit_slot (node : Section) : node.slot.inherit = node.inherit := by
  rw [Section.slot_eq]

@[simp] theorem Section.run_slot (node : Section) : node.slot.run = node.schema.complete := by
  rw [Section.slot_eq]

/-- What becomes of a setting: the given value is completed; else the inherited one is taken as it
is; else nothing is completed. -/
def Setting.outcome (s : Setting) (inherited given : Entries Value) (path : Path) :
    Except Violation Value :=
  match Entries.get? given s.key with
  | some v => s.range.complete (path.entry s.key) v
  | none => match Entries.get? inherited s.key with
    | some w => .ok w
    | none => s.range.complete (path.entry s.key) .undefined

theorem Setting.outcome_of_given {s : Setting} {inherited given : Entries Value} {path : Path}
    {v : Value} (h : Entries.get? given s.key = some v) :
    s.outcome inherited given path = s.range.complete (path.entry s.key) v := by
  rw [Setting.outcome, h]

theorem Setting.outcome_of_inherited {s : Setting} {inherited given : Entries Value} {path : Path}
    {w : Value} (h : Entries.get? given s.key = none)
    (hw : Entries.get? inherited s.key = some w) :
    s.outcome inherited given path = .ok w := by
  rw [Setting.outcome, h, hw]

theorem Setting.outcome_of_absent {s : Setting} {inherited given : Entries Value} {path : Path}
    (h : Entries.get? given s.key = none) (hw : Entries.get? inherited s.key = none) :
    s.outcome inherited given path = s.range.complete (path.entry s.key) .undefined := by
  rw [Setting.outcome, h, hw]

/-- What becomes of a section, where its level inherits `scope`: the given map is completed; else
the inherited one is taken as it is; else the empty map is completed. -/
def Section.outcome (node : Section) (scope given : Entries Value) (path : Path) :
    Except Violation Value :=
  match Entries.get? given node.key with
  | some v => (node.schema.complete scope (path.entry node.key) v).map .ofEntries
  | none => match Entries.get? scope node.key with
    | some w => .ok w
    | none => (node.schema.complete scope (path.entry node.key) .emptyMap).map .ofEntries

theorem Section.outcome_of_given {node : Section} {scope given : Entries Value} {path : Path}
    {v : Value} (h : Entries.get? given node.key = some v) :
    node.outcome scope given path =
      (node.schema.complete scope (path.entry node.key) v).map .ofEntries := by
  rw [Section.outcome, h]

theorem Section.outcome_of_inherited {node : Section} {scope given : Entries Value} {path : Path}
    {w : Value} (h : Entries.get? given node.key = none)
    (hw : Entries.get? scope node.key = some w) : node.outcome scope given path = .ok w := by
  rw [Section.outcome, h, hw]

theorem Section.outcome_of_absent {node : Section} {scope given : Entries Value} {path : Path}
    (h : Entries.get? given node.key = none) (hw : Entries.get? scope node.key = none) :
    node.outcome scope given path =
      (node.schema.complete scope (path.entry node.key) .emptyMap).map .ofEntries := by
  rw [Section.outcome, h, hw]

/-- Nothing given counts as the empty map. -/
theorem Schema.complete_orEmptyMap (schema : Schema) (inherited : Entries Value) (path : Path)
    (v : Value) :
    schema.complete inherited path v.orEmptyMap = schema.complete inherited path v := by
  rw [Schema.complete_eq]
  cases v <;> rfl

/-- A section that is not inherited completes what is read for it, absent or not. -/
theorem Section.outcome_of_not_inherited {node : Section} {scope given : Entries Value}
    {path : Path} (h : Entries.get? scope node.key = none) :
    node.outcome scope given path =
      (node.schema.complete scope (path.entry node.key) (Entries.read given node.key)).map
        .ofEntries := by
  unfold Entries.read
  cases hv : Entries.get? given node.key with
  | some v => exact outcome_of_given hv
  | none =>
    rw [outcome_of_absent hv h]
    show (node.schema.complete scope _ Value.undefined.orEmptyMap).map _ = _
    rw [Schema.complete_orEmptyMap]
    rfl

/-- A section is completed in its place, or taken over from the scope. -/
theorem Section.outcome_cases {node : Section} {scope : Entries Value} {path : Path}
    {v w : Value} (hv : v.WellFormed)
    (h : node.outcome scope v.entriesOrEmpty path = .ok w) :
    (∃ x es, x.WellFormed ∧ node.schema.complete scope (path.entry node.key) x = .ok es ∧
      w = .ofEntries es) ∨ Entries.get? scope node.key = some w := by
  cases hscope : Entries.get? scope node.key with
  | none =>
    rw [Section.outcome_of_not_inherited hscope] at h
    obtain ⟨es, hes, rfl⟩ := map_eq_ok_iff.1 h
    exact .inl ⟨_, es, hv.read node.key, hes, rfl⟩
  | some y =>
    cases hx : Entries.get? v.entriesOrEmpty node.key with
    | none =>
      rw [Section.outcome_of_inherited hx hscope] at h
      exact .inr (congrArg some (Except.ok.inj h))
    | some x =>
      rw [Section.outcome_of_given hx] at h
      obtain ⟨es, hes, rfl⟩ := map_eq_ok_iff.1 h
      exact .inl ⟨x, es, hv.get? hx, hes, rfl⟩

namespace Schema

/-- The slots of the settings. -/
def settingSlots (schema : Schema) : List (Slot ValueCheck) := schema.settings.map Setting.slot

/-- The slots of the sections. -/
def sectionSlots (schema : Schema) : List (Slot LevelCheck) := schema.sections.map Section.slot

/-- A map is completed by its entries. -/
theorem complete_of_isMap (schema : Schema) {v : Value} (hmap : v.isMap = true)
    (inherited : Entries Value) (path : Path) :
    schema.complete inherited path v =
      completeEntries schema.settingSlots schema.sectionSlots inherited path v.entriesOrEmpty := by
  rw [complete_eq]
  cases v with
  | object i bare es => rfl
  | _ => cases hmap

/-- What is inherited below the settings of a level. -/
def handedDown (schema : Schema) (inherited given : Entries Value) : Entries Value :=
  handDown schema.settingSlots inherited given

theorem keys_settingSlots (schema : Schema) :
    schema.settingSlots.map Slot.key = schema.settings.map Setting.key := by
  simp [settingSlots, Function.comp_def]

theorem keys_sectionSlots (schema : Schema) :
    schema.sectionSlots.map Slot.key = schema.sections.map Section.key := by
  simp [sectionSlots, Function.comp_def]

theorem DistinctKeys.settingSlots {schema : Schema} (h : schema.DistinctKeys) :
    (schema.settingSlots.map Slot.key).Nodup := by
  rw [keys_settingSlots]
  exact h.settings

theorem DistinctKeys.sectionSlots {schema : Schema} (h : schema.DistinctKeys) :
    (schema.sectionSlots.map Slot.key).Nodup := by
  rw [keys_sectionSlots]
  exact h.sections

theorem DistinctKeys.find?_settingSlots {schema : Schema} (h : schema.DistinctKeys)
    {s : Setting} (hs : s ∈ schema.settings) :
    Slot.find? schema.settingSlots s.key = some s.slot := by
  have hmem : s.slot ∈ schema.settingSlots := List.mem_map_of_mem hs
  simpa using Slot.find?_of_mem h.settingSlots hmem

theorem DistinctKeys.find?_sectionSlots {schema : Schema} (h : schema.DistinctKeys)
    {node : Section} (hnode : node ∈ schema.sections) :
    Slot.find? schema.sectionSlots node.key = some node.slot := by
  have hmem : node.slot ∈ schema.sectionSlots := List.mem_map_of_mem hnode
  simpa using Slot.find?_of_mem h.sectionSlots hmem

theorem exists_of_find?_sectionSlots {schema : Schema} {key : String} {slot : Slot LevelCheck}
    (h : Slot.find? schema.sectionSlots key = some slot) :
    ∃ node ∈ schema.sections, node.key = key ∧ slot = node.slot := by
  obtain ⟨node, hnode, rfl⟩ := List.mem_map.1 (Slot.mem_of_find? h)
  exact ⟨node, hnode, by simpa using Slot.key_of_find? h, rfl⟩

theorem exists_of_find?_settingSlots {schema : Schema} {key : String} {slot : Slot ValueCheck}
    (h : Slot.find? schema.settingSlots key = some slot) :
    ∃ s ∈ schema.settings, s.key = key ∧ slot = s.slot := by
  obtain ⟨s, hs, rfl⟩ := List.mem_map.1 (Slot.mem_of_find? h)
  exact ⟨s, hs, by simpa using Slot.key_of_find? h, rfl⟩

theorem declares_iff_mem_keys (schema : Schema) (key : String) :
    (Slot.declares schema.settingSlots key = true ∨ Slot.declares schema.sectionSlots key = true) ↔
      key ∈ schema.keys := by
  rw [Slot.declares_iff, Slot.declares_iff, keys_settingSlots, keys_sectionSlots, keys,
    List.mem_append]

/-! ## What is handed down -/

/-- An inheriting setting of the schema has the key. -/
def Inherits (schema : Schema) (key : String) : Prop :=
  ∃ s ∈ schema.settings, s.key = key ∧ s.inherit = true

instance (schema : Schema) (key : String) : Decidable (schema.Inherits key) :=
  inferInstanceAs (Decidable (∃ s ∈ schema.settings, s.key = key ∧ s.inherit = true))

theorem handsDown_settingSlots {schema : Schema} (hd : schema.DistinctKeys) {key : String} :
    Slot.handsDown schema.settingSlots key = true ↔ schema.Inherits key := by
  rw [settingSlots, Slot.handsDown_map_iff hd.settingSlots]
  simp only [Setting.key_slot, Setting.inherit_slot, Inherits]

theorem get?_handedDown (schema : Schema) {inherited given : Entries Value} {key : String}
    (hkey : key ≠ reservedKey) (hn : (Entries.keys given).Nodup) :
    Entries.get? (schema.handedDown inherited given) key =
      if Slot.handsDown schema.settingSlots key then
        (Entries.get? given key).or (Entries.get? inherited key)
      else Entries.get? inherited key := get?_handDown hkey hn

/-! ## The completed level -/

/-- The entries of a level that was completed where `inherited` is inherited: `filled` are its
completed entries, settings first, and `progress` is what is known when the given sections are
done. -/
structure LevelDone (schema : Schema) (inherited : Entries Value) (path : Path)
    (given : Entries Value) (filled : List (String × Value)) (progress : SectionProgress) :
    Prop where
  declared : ∀ key ∈ Entries.keys given, key ∈ schema.keys
  keys : Entries.keys filled = schema.keys
  setting : ∀ s ∈ schema.settings, ∃ w, s.outcome inherited given path = .ok w ∧
    Entries.get? filled s.key = some w
  walked : givenSections schema.sectionSlots path (schema.handedDown inherited given) given =
    .ok progress
  nested : ∀ node ∈ schema.sections, ∃ w,
    slotValue progress.done progress.inherited (absentSection path progress.inherited) node.slot =
      .ok w ∧ Entries.get? filled node.key = some w

section Level

variable {schema : Schema} {inherited given out : Entries Value} {path : Path} {v : Value}
  {filled : List (String × Value)} {progress : SectionProgress}

/-- The value of a setting that is at hand among the completed ones, or else inherited or absent,
is its outcome. -/
theorem slotValue_eq_outcome (hp : schema.Proper) (hn : (Entries.keys given).Nodup)
    {done : List (String × Value)}
    (h : givenSettings schema.settingSlots path given = .ok done) {s : Setting}
    (hs : s ∈ schema.settings) :
    slotValue done (schema.handedDown inherited given) (absentSetting path) s.slot =
      s.outcome inherited given path := by
  have hkey : s.key ≠ reservedKey :=
    hp.ne_reservedKey schema.self_mem_nested (mem_keys_of_setting hs)
  unfold slotValue Setting.outcome absentSetting
  rw [Setting.key_slot, Setting.run_slot]
  cases hgiven : Entries.get? given s.key with
  | some v =>
    obtain ⟨w, hw, hdone⟩ :=
      givenSettings_of_get? h hgiven (hp.distinctKeys.find?_settingSlots hs)
    rw [Setting.run_slot] at hw
    rw [hdone]
    exact hw.symm
  | none =>
    have hdown : Entries.get? (schema.handedDown inherited given) s.key =
        Entries.get? inherited s.key := get?_handDown_of_get?_eq_none hkey hn hgiven
    rw [givenSettings_of_get?_eq_none h hgiven, hdown]
    rfl

/-- **What a completed level tells.** -/
theorem levelDone_of_complete (hp : schema.Proper)
    (hn : (Entries.keys v.entriesOrEmpty).Nodup)
    (h : schema.complete inherited path v = .ok out) :
    (v.isNil = true ∨ v.isMap = true) ∧
      ∃ filled progress, out = Entries.rebuild filled ∧
        schema.LevelDone inherited path v.entriesOrEmpty filled progress := by
  rw [Schema.complete_eq] at h
  unfold completeLevel at h
  split at h
  · rename_i given hgiven
    obtain ⟨hshape, rfl⟩ := Value.entries?_orEmptyMap_iff.1 hgiven
    -- the five steps, each of which succeeded
    obtain ⟨doneSettings, hdone, h⟩ := bind_eq_ok_iff.1 h
    obtain ⟨⟨⟩, hdeclared, h⟩ := bind_eq_ok_iff.1 h
    obtain ⟨filledSettings, hsettings, h⟩ := bind_eq_ok_iff.1 h
    obtain ⟨progress, hwalked, h⟩ := bind_eq_ok_iff.1 h
    obtain ⟨filledSections, hsections, h⟩ := bind_eq_ok_iff.1 h
    have hkeysSettings : Entries.keys filledSettings = schema.settings.map Setting.key := by
      rw [keys_fill hsettings]
      exact schema.keys_settingSlots
    have hkeysSections : Entries.keys filledSections = schema.sections.map Section.key := by
      rw [keys_fill hsections]
      exact schema.keys_sectionSlots
    refine ⟨hshape, filledSettings ++ filledSections, progress,
      (pure_eq_ok_iff.1 h).symm, ?_, ?_, ?_, hwalked, ?_⟩
    · intro key hkey
      exact (schema.declares_iff_mem_keys key).1 (rejectUndeclared_eq_ok_iff.1 hdeclared key hkey)
    · rw [Entries.keys_append, hkeysSettings, hkeysSections]
      rfl
    · intro s hs
      obtain ⟨w, hw, hget⟩ := fill_of_mem hp.distinctKeys.settingSlots hsettings
        (List.mem_map_of_mem hs : s.slot ∈ schema.settingSlots)
      rw [Setting.key_slot] at hget
      refine ⟨w, ?_, ?_⟩
      · rw [← slotValue_eq_outcome hp hn hdone hs]
        exact hw
      · rw [Entries.get?_append, hget]
        rfl
    · intro node hnode
      obtain ⟨w, hw, hget⟩ := fill_of_mem hp.distinctKeys.sectionSlots hsections
        (List.mem_map_of_mem hnode : node.slot ∈ schema.sectionSlots)
      rw [Section.key_slot] at hget
      -- no setting has the key of a section, so the settings do not hide it
      have hnone : Entries.get? filledSettings node.key = none := by
        refine Entries.get?_eq_none_iff.2 fun hmem => ?_
        rw [hkeysSettings] at hmem
        obtain ⟨s, hs, hkey⟩ := List.mem_map.1 hmem
        exact hp.distinctKeys.ne hs hnode hkey
      refine ⟨w, hw, ?_⟩
      rw [Entries.get?_append, hnone, hget]
      rfl
  · cases h

theorem LevelDone.nodup (h : schema.LevelDone inherited path given filled progress)
    (hp : schema.Proper) : (Entries.keys filled).Nodup := by
  rw [h.keys]
  exact hp.distinctKeys

/-- In the rebuilt map the declared keys have the values that they were filled with. -/
theorem get?_rebuild_of_mem_keys (hp : schema.Proper)
    (h : schema.LevelDone inherited path given filled progress) {key : String}
    (hkey : key ∈ schema.keys) :
    Entries.get? (Entries.rebuild filled) key = Entries.get? filled key :=
  Entries.get?_rebuild (hp.ne_reservedKey schema.self_mem_nested hkey) (h.nodup hp)

/-- **The settings of a completed map:** each comes to its outcome. -/
theorem setting_of_complete (hp : schema.Proper) (hn : (Entries.keys v.entriesOrEmpty).Nodup)
    (h : schema.complete inherited path v = .ok out) {s : Setting} (hs : s ∈ schema.settings) :
    ∃ w, s.outcome inherited v.entriesOrEmpty path = .ok w ∧ Entries.get? out s.key = some w := by
  obtain ⟨-, filled, progress, rfl, hdone⟩ := levelDone_of_complete hp hn h
  obtain ⟨w, hw, hget⟩ := hdone.setting s hs
  refine ⟨w, hw, ?_⟩
  rw [get?_rebuild_of_mem_keys hp hdone (mem_keys_of_setting hs), hget]

/-- A level is completed as soon as the walk through its sections is, and every slot has a value. -/
theorem complete_exists_of_walked (hp : schema.Proper)
    (hn : (Entries.keys v.entriesOrEmpty).Nodup) (hshape : v.isNil = true ∨ v.isMap = true)
    (hdeclared : ∀ key ∈ Entries.keys v.entriesOrEmpty, key ∈ schema.keys)
    (hsettings : ∀ s ∈ schema.settings, ∃ w, s.outcome inherited v.entriesOrEmpty path = .ok w)
    (hwalked : givenSections schema.sectionSlots path
      (schema.handedDown inherited v.entriesOrEmpty) v.entriesOrEmpty = .ok progress)
    (hsections : ∀ node ∈ schema.sections, ∃ w, slotValue progress.done progress.inherited
      (absentSection path progress.inherited) node.slot = .ok w) :
    ∃ out, schema.complete inherited path v = .ok out := by
  have hgiven : v.orEmptyMap.entries? = some v.entriesOrEmpty :=
    Value.entries?_orEmptyMap_iff.2 ⟨hshape, rfl⟩
  -- each of the five steps succeeds
  obtain ⟨done, hdone⟩ : ∃ done,
      givenSettings schema.settingSlots path v.entriesOrEmpty = .ok done := by
    refine givenSettings_exists fun e he slot hslot => ?_
    obtain ⟨s, hmem, hkey, rfl⟩ := exists_of_find?_settingSlots hslot
    obtain ⟨w, hw⟩ := hsettings s hmem
    rw [Setting.outcome_of_given (hkey ▸ (Entries.get?_eq_some_iff_mem hn).2 he)] at hw
    exact ⟨w, by rw [Setting.run_slot, ← hkey]; exact hw⟩
  have hreject : rejectUndeclared schema.settingSlots schema.sectionSlots path
      v.entriesOrEmpty = .ok () :=
    rejectUndeclared_eq_ok_iff.2 fun key hkey =>
      (schema.declares_iff_mem_keys key).2 (hdeclared key hkey)
  obtain ⟨filledSettings, hfilledSettings⟩ : ∃ filled,
      fill done (schema.handedDown inherited v.entriesOrEmpty) (absentSetting path)
        schema.settingSlots = .ok filled := by
    refine fill_exists fun slot hslot => ?_
    obtain ⟨s, hmem, rfl⟩ := List.mem_map.1 hslot
    rw [slotValue_eq_outcome hp hn hdone hmem]
    exact hsettings s hmem
  obtain ⟨filledSections, hfilledSections⟩ : ∃ filled,
      fill progress.done progress.inherited (absentSection path progress.inherited)
        schema.sectionSlots = .ok filled := by
    refine fill_exists fun slot hslot => ?_
    obtain ⟨node, hmem, rfl⟩ := List.mem_map.1 hslot
    exact hsections node hmem
  refine ⟨Entries.rebuild (filledSettings ++ filledSections), ?_⟩
  rw [Schema.complete_eq]
  unfold completeLevel
  rw [hgiven]
  exact bind_eq_ok_iff.2 ⟨done, hdone, bind_eq_ok_iff.2 ⟨(), hreject,
    bind_eq_ok_iff.2 ⟨filledSettings, hfilledSettings, bind_eq_ok_iff.2 ⟨progress, hwalked,
      bind_eq_ok_iff.2 ⟨filledSections, hfilledSections, rfl⟩⟩⟩⟩⟩

/-- **What tells of a level completes it:** the converse of `levelDone_of_complete`. -/
theorem LevelDone.complete_eq_ok
    (h : schema.LevelDone inherited path v.entriesOrEmpty filled progress) (hp : schema.Proper)
    (hn : (Entries.keys v.entriesOrEmpty).Nodup) (hshape : v.isNil = true ∨ v.isMap = true) :
    schema.complete inherited path v = .ok (Entries.rebuild filled) := by
  obtain ⟨out, hout⟩ : ∃ out, schema.complete inherited path v = .ok out := by
    refine complete_exists_of_walked hp hn hshape h.declared (fun s hs => ?_) h.walked
      fun node hnode => ?_
    · obtain ⟨w, hw, -⟩ := h.setting s hs
      exact ⟨w, hw⟩
    · obtain ⟨w, hw, -⟩ := h.nested node hnode
      exact ⟨w, hw⟩
  -- the level was filled with the same values, since both walks are one
  obtain ⟨-, filled', progress', rfl, h'⟩ := levelDone_of_complete hp hn hout
  cases h.walked.symm.trans h'.walked
  suffices hsame : filled' = filled by rw [hout, hsame]
  refine Entries.ext_of_get? (h'.keys.trans h.keys.symm) (h'.nodup hp) fun key hkey => ?_
  rw [h'.keys] at hkey
  rcases mem_keys_iff.1 hkey with ⟨s, hs, rfl⟩ | ⟨node, hnode, rfl⟩
  · obtain ⟨w, hw, hget⟩ := h.setting s hs
    obtain ⟨w', hw', hget'⟩ := h'.setting s hs
    cases hw.symm.trans hw'
    rw [hget, hget']
  · obtain ⟨w, hw, hget⟩ := h.nested node hnode
    obtain ⟨w', hw', hget'⟩ := h'.nested node hnode
    cases hw.symm.trans hw'
    rw [hget, hget']

/-- A section that is not given comes to its outcome after the walk through those that are. -/
theorem slotValue_eq_outcome_of_absent {node : Section} {scope : Entries Value}
    (h : givenSections schema.sectionSlots path scope given = .ok progress)
    (hx : Entries.get? given node.key = none) :
    slotValue progress.done progress.inherited (absentSection path progress.inherited) node.slot =
      node.outcome progress.inherited given path := by
  unfold slotValue Section.outcome absentSection
  rw [Section.key_slot, Section.run_slot, givenSections_of_get?_eq_none h hx, hx]
  rfl

/-! ## Levels whose sections hand nothing down -/

/-- The slots of sections that hand nothing down. -/
theorem steady_sectionSlots (h : ∀ node ∈ schema.sections, node.inherit = false) :
    Steady schema.sectionSlots := by
  intro slot hslot
  obtain ⟨node, hnode, rfl⟩ := List.mem_map.1 hslot
  rw [Section.inherit_slot]
  exact h node hnode

/-- Where no section hands its map down, the value of a section is its outcome under what the
settings hand down. -/
theorem slotValue_eq_outcome_of_steady (hp : schema.Proper)
    (hs : ∀ node ∈ schema.sections, node.inherit = false) {scope : Entries Value}
    (h : givenSections schema.sectionSlots path scope given = .ok progress) {node : Section}
    (hnode : node ∈ schema.sections) :
    slotValue progress.done progress.inherited (absentSection path progress.inherited) node.slot =
      node.outcome scope given path := by
  have hkept : ∀ scope' k v slot es, (k, v) ∈ given →
      Slot.find? schema.sectionSlots k = some slot → scope' = scope →
      slot.run scope' (path.entry k) v = .ok es → handDownSection slot scope' es = scope := by
    rintro _ k v slot es - hslot rfl -
    exact (steady_sectionSlots hs).handDownSection_eq hslot _ es
  obtain ⟨hscope, hdone⟩ := givenSections_invariant (I := (· = scope)) h rfl hkept
  -- the scope is the same at every section, since none of them hands anything down
  cases hgiven : Entries.get? given node.key with
  | some v =>
    obtain ⟨_, es, rfl, hes, hget⟩ :=
      hdone node.key v node.slot hgiven (hp.distinctKeys.find?_sectionSlots hnode)
    rw [Section.run_slot] at hes
    rw [Section.outcome_of_given hgiven, hes, slotValue, Section.key_slot, hget]
    rfl
  | none => rw [slotValue_eq_outcome_of_absent h hgiven, hscope]

theorem LevelDone.nested_steady (h : schema.LevelDone inherited path given filled progress)
    (hp : schema.Proper) (hs : ∀ node ∈ schema.sections, node.inherit = false) {node : Section}
    (hnode : node ∈ schema.sections) :
    ∃ w, node.outcome (schema.handedDown inherited given) given path = .ok w ∧
      Entries.get? filled node.key = some w := by
  obtain ⟨w, hw, hget⟩ := h.nested node hnode
  rw [slotValue_eq_outcome_of_steady hp hs h.walked hnode] at hw
  exact ⟨w, hw, hget⟩

/-- Where no section hands its map down, a level is completed if each of its parts can be. -/
theorem complete_exists (hp : schema.Proper)
    (hs : ∀ node ∈ schema.sections, node.inherit = false)
    (hn : (Entries.keys v.entriesOrEmpty).Nodup)
    (hshape : v.isNil = true ∨ v.isMap = true)
    (hdeclared : ∀ key ∈ Entries.keys v.entriesOrEmpty, key ∈ schema.keys)
    (hsettings : ∀ s ∈ schema.settings, ∃ w, s.outcome inherited v.entriesOrEmpty path = .ok w)
    (hsections : ∀ node ∈ schema.sections, ∃ w,
      node.outcome (schema.handedDown inherited v.entriesOrEmpty) v.entriesOrEmpty path = .ok w) :
    ∃ out, schema.complete inherited path v = .ok out := by
  obtain ⟨progress, hwalked⟩ : ∃ progress,
      givenSections schema.sectionSlots path (schema.handedDown inherited v.entriesOrEmpty)
        v.entriesOrEmpty = .ok progress := by
    refine givenSections_exists_of_steady (steady_sectionSlots hs) fun e he slot hslot => ?_
    obtain ⟨node, hmem, hkey, rfl⟩ := exists_of_find?_sectionSlots hslot
    obtain ⟨w, hw⟩ := hsections node hmem
    rw [Section.outcome, hkey, (Entries.get?_eq_some_iff_mem hn).2 he] at hw
    obtain ⟨es, hes, -⟩ := map_eq_ok_iff.1 hw
    exact ⟨es, by rw [Section.run_slot]; exact hes⟩
  refine complete_exists_of_walked hp hn hshape hdeclared hsettings hwalked fun node hnode => ?_
  rw [slotValue_eq_outcome_of_steady hp hs hwalked hnode]
  exact hsections node hnode

/-- **When a level can be completed,** if its sections hand nothing down: it is a map or nothing
is given, all its keys are declared, and every setting and section comes to a value. -/
theorem complete_exists_iff (hp : schema.Proper)
    (hs : ∀ node ∈ schema.sections, node.inherit = false) (hv : v.WellFormed) :
    (∃ out, schema.complete inherited path v = .ok out) ↔
      (v.isNil = true ∨ v.isMap = true) ∧
      (∀ key ∈ Entries.keys v.entriesOrEmpty, key ∈ schema.keys) ∧
      (∀ s ∈ schema.settings, ∃ w, s.outcome inherited v.entriesOrEmpty path = .ok w) ∧
      ∀ node ∈ schema.sections, ∃ w,
        node.outcome (schema.handedDown inherited v.entriesOrEmpty) v.entriesOrEmpty path =
          .ok w := by
  constructor
  · rintro ⟨out, h⟩
    obtain ⟨hshape, filled, progress, -, hdone⟩ := levelDone_of_complete hp hv.nodup h
    refine ⟨hshape, hdone.declared, ?_, ?_⟩
    · intro s hmem
      obtain ⟨w, hw, -⟩ := hdone.setting s hmem
      exact ⟨w, hw⟩
    · intro node hnode
      obtain ⟨w, hw, -⟩ := hdone.nested_steady hp hs hnode
      exact ⟨w, hw⟩
  · rintro ⟨hshape, hdeclared, hsettings, hsections⟩
    exact complete_exists hp hs hv.nodup hshape hdeclared hsettings hsections

end Level

end Schema

end LayeredConfig
