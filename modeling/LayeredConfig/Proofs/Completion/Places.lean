import LayeredConfig.Proofs.Completion.Level
import LayeredConfig.Proofs.Schema.Consistency

/-!
# What a completed map holds

A completed map holds a value at every declared setting, at any depth. Which one it is depends on
the raw map in that place and on what is inherited there, and on nothing else.

- `Schema.SectionsKept`: nothing that is inherited stands in for a section, so that every section
  is completed from its own raw map (`SectionsKept.entries_of_complete`).
- `Schema.inheritedAt`: what is inherited where nested sections lead.
- `Schema.held?_of_complete`: the value that is held at a declared setting is the outcome of the
  setting in that place.

Where nothing is handed down at all (`Schema.HandsNothingDown`), nothing is inherited anywhere.
-/

namespace LayeredConfig

namespace Schema

/-- Nothing that is inherited stands in for a section: sections hand nothing down, and no section
has the key of something inherited, or of an inheriting setting around it. -/
structure SectionsKept (schema : Schema) (inherited : Entries Value) : Prop where
  steady : ∀ inner ∈ schema.nested, ∀ node ∈ inner.sections, node.inherit = false
  apart : ∀ inner ∈ schema.nested, ∀ node ∈ inner.sections,
    Entries.get? inherited node.key = none
  setting : ∀ outer ∈ schema.nested, ∀ s ∈ outer.settings, s.inherit = true →
    ∀ inner ∈ outer.enclosed, ∀ node ∈ inner.sections, node.key ≠ s.key

instance (schema : Schema) (inherited : Entries Value) :
    Decidable (schema.SectionsKept inherited) :=
  decidable_of_iff
    ((∀ inner ∈ schema.nested, ∀ node ∈ inner.sections, node.inherit = false) ∧
      (∀ inner ∈ schema.nested, ∀ node ∈ inner.sections,
        (Entries.get? inherited node.key).isNone = true) ∧
      ∀ outer ∈ schema.nested, ∀ s ∈ outer.settings, s.inherit = true →
        ∀ inner ∈ outer.enclosed, ∀ node ∈ inner.sections, node.key ≠ s.key)
    ⟨fun ⟨hsteady, hapart, hsetting⟩ => ⟨hsteady, fun inner hinner node hnode =>
        Option.isNone_iff_eq_none.1 (hapart inner hinner node hnode), hsetting⟩,
      fun h => ⟨h.steady, fun inner hinner node hnode =>
        Option.isNone_iff_eq_none.2 (h.apart inner hinner node hnode), h.setting⟩⟩

/-- No setting and no section hands anything down. -/
def HandsNothingDown (schema : Schema) : Prop :=
  ∀ inner ∈ schema.nested, (∀ s ∈ inner.settings, s.inherit = false) ∧
    ∀ node ∈ inner.sections, node.inherit = false

instance (schema : Schema) : Decidable schema.HandsNothingDown :=
  inferInstanceAs (Decidable (∀ inner ∈ schema.nested,
    (∀ s ∈ inner.settings, s.inherit = false) ∧ ∀ node ∈ inner.sections, node.inherit = false))

section Kept

variable {schema : Schema} {inherited given out : Entries Value} {path : Path} {v : Value}

/-- Below the settings of the level, too, no section has the key of something inherited. -/
theorem SectionsKept.get?_handedDown (h : schema.SectionsKept inherited) (hp : schema.Proper)
    (hn : (Entries.keys given).Nodup) {inner : Schema} (hinner : inner ∈ schema.nested)
    {node : Section} (hnode : node ∈ inner.sections) :
    Entries.get? (schema.handedDown inherited given) node.key = none := by
  have hkey : node.key ≠ reservedKey := hp.ne_reservedKey hinner (mem_keys_of_section hnode)
  have hnone : Entries.get? inherited node.key = none := h.apart inner hinner node hnode
  rw [Schema.get?_handedDown schema hkey hn]
  split
  · -- an inheriting setting with the key stands on the same level, or around the section
    rename_i hdown
    obtain ⟨s, hs, hskey, hinherit⟩ := (handsDown_settingSlots hp.distinctKeys).1 hdown
    rw [nested_eq] at hinner
    rcases List.mem_cons.1 hinner with rfl | hinner
    · exact absurd hskey (hp.distinctKeys.ne hs hnode)
    · exact absurd hskey.symm
        (h.setting schema schema.self_mem_nested s hs hinherit inner hinner node hnode)
  · exact hnone

theorem SectionsKept.section (h : schema.SectionsKept inherited) (hp : schema.Proper)
    (hn : (Entries.keys given).Nodup) {node : Section} (hnode : node ∈ schema.sections) :
    node.schema.SectionsKept (schema.handedDown inherited given) where
  steady inner hinner := h.steady inner (mem_nested_of_section hnode hinner)
  apart _ hinner _ hnode' := h.get?_handedDown hp hn (mem_nested_of_section hnode hinner) hnode'
  setting outer houter := h.setting outer (mem_nested_of_section hnode houter)

/-- Every section comes to the completion of what is read for it. -/
theorem LevelDone.nested_kept {filled : List (String × Value)} {progress : SectionProgress}
    (hdone : schema.LevelDone inherited path given filled progress)
    (h : schema.SectionsKept inherited) (hp : schema.Proper) (hn : (Entries.keys given).Nodup)
    {node : Section} (hnode : node ∈ schema.sections) :
    ∃ es, node.schema.complete (schema.handedDown inherited given) (path.entry node.key)
        (Entries.read given node.key) = .ok es ∧
      Entries.get? filled node.key = some (.ofEntries es) := by
  have hself : schema ∈ schema.nested := schema.self_mem_nested
  have hnone : Entries.get? (schema.handedDown inherited given) node.key = none :=
    h.get?_handedDown hp hn hself hnode
  obtain ⟨w, hw, hget⟩ := hdone.nested_steady hp (h.steady schema hself) hnode
  rw [Section.outcome_of_not_inherited hnone] at hw
  obtain ⟨es, hes, rfl⟩ := map_eq_ok_iff.1 hw
  exact ⟨es, hes, hget⟩

/-- **The entries of a completed map:** the outcome of every setting, and for every section the
completion of what is read for it. -/
theorem SectionsKept.entries_of_complete (h : schema.SectionsKept inherited) (hp : schema.Proper)
    (hv : v.WellFormed) (hout : schema.complete inherited path v = .ok out) :
    (∀ s ∈ schema.settings, ∃ w, s.outcome inherited v.entriesOrEmpty path = .ok w ∧
      Entries.get? out s.key = some w) ∧
    ∀ node ∈ schema.sections, ∃ es,
      node.schema.complete (schema.handedDown inherited v.entriesOrEmpty) (path.entry node.key)
          (Entries.read v.entriesOrEmpty node.key) = .ok es ∧
        Entries.get? out node.key = some (.ofEntries es) := by
  refine ⟨fun s hs => setting_of_complete hp hv.nodup hout hs, ?_⟩
  intro node hnode
  obtain ⟨-, filled, progress, rfl, hdone⟩ := levelDone_of_complete hp hv.nodup hout
  obtain ⟨es, hes, hget⟩ := hdone.nested_kept h hp hv.nodup hnode
  refine ⟨es, hes, ?_⟩
  rw [get?_rebuild_of_mem_keys hp hdone (mem_keys_of_section hnode), hget]

theorem ordered_of_complete (hp : schema.Proper) (hv : v.WellFormed)
    (hout : schema.complete inherited path v = .ok out) : Entries.Ordered out := by
  obtain ⟨-, filled, progress, rfl, -⟩ := levelDone_of_complete hp hv.nodup hout
  exact Entries.ordered_rebuild filled

theorem nodup_of_complete (hp : schema.Proper) (hv : v.WellFormed)
    (hout : schema.complete inherited path v = .ok out) : (Entries.keys out).Nodup :=
  (ordered_of_complete hp hv hout).nodup

/-! ## At every depth -/

/-- What is inherited where nested sections lead, if `inherited` is at the top of the raw map
`v`. -/
def inheritedAt : Schema → (inherited : Entries Value) → (v : Value) → List String → Entries Value
  | _, inherited, _, [] => inherited
  | schema, inherited, v, key :: rest =>
    match schema.section? key with
    | some node =>
      node.schema.inheritedAt (schema.handedDown inherited v.entriesOrEmpty)
        (Entries.read v.entriesOrEmpty key) rest
    | none => inherited

/-- **A completed map holds, at every declared setting, the outcome of that setting in its
place.** -/
theorem held?_of_complete (hp : schema.Proper) (hk : schema.SectionsKept inherited)
    (hv : v.WellFormed) (h : schema.complete inherited path v = .ok out) {keys : List String}
    {inner : Schema} (hinner : schema.under? keys = some inner) {s : Setting}
    (hs : s ∈ inner.settings) :
    ∃ w, (Value.ofEntries out).held? keys s.key = some w ∧
      s.outcome (schema.inheritedAt inherited v keys) (v.within keys)
        (path ++ Path.ofKeys keys) = .ok w := by
  induction keys generalizing schema inherited path v out with
  | nil =>
    cases hinner
    obtain ⟨w, hw, hget⟩ := (hk.entries_of_complete hp hv h).1 s hs
    refine ⟨w, hget, ?_⟩
    show s.outcome inherited v.entriesOrEmpty (path ++ []) = .ok w
    rw [List.append_nil]
    exact hw
  | cons key rest ih =>
    obtain ⟨node, hfind, hrest⟩ := under?_cons_eq_some_iff.1 hinner
    obtain ⟨hnode, rfl⟩ := mem_of_section? hfind
    obtain ⟨es, hes, hget⟩ := (hk.entries_of_complete hp hv h).2 node hnode
    obtain ⟨w, hheld, hw⟩ :=
      ih (hp.section hnode) (hk.section hp hv.nodup hnode) (hv.read node.key) hes hrest
    refine ⟨w, ?_, ?_⟩
    · rw [← Value.entriesOrEmpty_ofEntries out] at hget
      rw [Value.held?_cons_of_get? hget]
      exact hheld
    · rw [inheritedAt, hfind, Value.within_cons]
      simpa [Path.entry, Path.ofKeys] using hw

/-- A completed map is built by assignment, which leaves it without the reserved key. -/
theorem reservedKey_not_mem_of_complete (hp : schema.Proper) (hv : v.WellFormed)
    (h : schema.complete inherited path v = .ok out) : reservedKey ∉ Entries.keys out := by
  obtain ⟨-, filled, progress, rfl, -⟩ := levelDone_of_complete hp hv.nodup h
  exact Entries.reservedKey_not_mem_keys_rebuild filled

/-- So its copy is an ordinary map. -/
theorem copy_of_complete (hp : schema.Proper) (hv : v.WellFormed)
    (h : schema.complete inherited path v = .ok out) :
    (Value.ofEntries out).copy = .ofEntries out.copy :=
  Value.copy_object (reservedKey_not_mem_of_complete hp hv h) .anonymous false

/-- On the way to a declared setting, the maps of a completed map have distinct keys, and none of
them is the reserved one. -/
theorem plainAlong_of_complete (hp : schema.Proper) (hk : schema.SectionsKept inherited)
    (hv : v.WellFormed) (h : schema.complete inherited path v = .ok out) {keys : List String}
    {inner : Schema} (hinner : schema.under? keys = some inner) :
    (Value.ofEntries out).PlainAlong keys := by
  induction keys generalizing schema inherited path v out with
  | nil => exact ⟨nodup_of_complete hp hv h, reservedKey_not_mem_of_complete hp hv h⟩
  | cons key rest ih =>
    obtain ⟨node, hfind, hrest⟩ := under?_cons_eq_some_iff.1 hinner
    obtain ⟨hnode, rfl⟩ := mem_of_section? hfind
    obtain ⟨es, hes, hget⟩ := (hk.entries_of_complete hp hv h).2 node hnode
    refine ⟨⟨nodup_of_complete hp hv h, reservedKey_not_mem_of_complete hp hv h⟩, ?_⟩
    rw [Value.entriesOrEmpty_ofEntries, Entries.read_of_get? hget]
    exact ih (hp.section hnode) (hk.section hp hv.nodup hnode) (hv.read node.key) hes hrest

/-! ## Where nothing is handed down -/

theorem HandsNothingDown.section (h : schema.HandsNothingDown) {node : Section}
    (hnode : node ∈ schema.sections) : node.schema.HandsNothingDown :=
  fun inner hinner => h inner (mem_nested_of_section hnode hinner)

theorem HandsNothingDown.sectionsKept (h : schema.HandsNothingDown) : schema.SectionsKept [] where
  steady inner hinner := (h inner hinner).2
  apart _ _ _ _ := rfl
  setting outer houter s hs hinherit := by
    rw [(h outer houter).1 s hs] at hinherit
    cases hinherit

theorem HandsNothingDown.handedDown_eq (h : schema.HandsNothingDown)
    (inherited given : Entries Value) : schema.handedDown inherited given = inherited := by
  have hkeys : ∀ key, Slot.handsDown schema.settingSlots key = false := by
    intro key
    unfold Slot.handsDown
    split
    · rename_i slot hfind
      obtain ⟨s, hs, -, rfl⟩ := exists_of_find?_settingSlots hfind
      rw [Setting.inherit_slot]
      exact (h schema schema.self_mem_nested).1 s hs
    · rfl
  unfold handedDown
  induction given with
  | nil => rfl
  | cons e rest ih =>
    rw [handDown, hkeys]
    exact ih

theorem HandsNothingDown.inheritedAt_eq (h : schema.HandsNothingDown) (inherited : Entries Value)
    (v : Value) (keys : List String) : schema.inheritedAt inherited v keys = inherited := by
  induction keys generalizing schema v with
  | nil => rfl
  | cons key rest ih =>
    rw [inheritedAt]
    split
    · rename_i node hfind
      rw [h.handedDown_eq]
      exact ih (h.section (mem_of_section? hfind).1) _
    · rfl

/-- Where nothing is inherited, a setting is what is read for it, completed. -/
theorem outcome_of_setting (s : Setting) (given : Entries Value) (path : Path) :
    s.outcome [] given path =
      s.range.complete (path.entry s.key) (Entries.read given s.key) := by
  unfold Setting.outcome Entries.read
  cases Entries.get? given s.key <;> rfl

/-- **Where nothing is handed down, a completed map holds at every declared setting the completion
of what the raw map holds there.** -/
theorem HandsNothingDown.held?_of_complete (hh : schema.HandsNothingDown) (hp : schema.Proper)
    (hv : v.WellFormed) (h : schema.complete [] path v = .ok out) {keys : List String}
    {inner : Schema} (hinner : schema.under? keys = some inner) {s : Setting}
    (hs : s ∈ inner.settings) :
    ∃ w, (Value.ofEntries out).held? keys s.key = some w ∧
      s.range.complete (path ++ Path.ofKeys (keys ++ [s.key]))
        ((v.held? keys s.key).getD .undefined) = .ok w := by
  obtain ⟨w, hheld, hw⟩ := Schema.held?_of_complete hp hh.sectionsKept hv h hinner hs
  rw [hh.inheritedAt_eq, outcome_of_setting, Path.append_entry] at hw
  exact ⟨w, hheld, hw⟩

end Kept

end Schema

end LayeredConfig
