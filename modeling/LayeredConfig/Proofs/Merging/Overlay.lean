import LayeredConfig.Overlay
import LayeredConfig.Proofs.Completion.Loops
import LayeredConfig.Proofs.Data.KeyOrder
import LayeredConfig.Proofs.Data.Walk

/-!
# What an overlay holds

Laying one raw map over another is seen setting by setting: the upper map's value counts wherever
it has an entry, also an explicit nil, and else the lower map's (`Schema.held?_overlay`).

- `Schema.Overlaid`: one level of an overlay. `Schema.overlaid_of_overlay` says that every
  successful overlay comes to that.
- `Schema.keys_overlay`: which keys there are, and in which order. `Schema.get?_overlay_setting`,
  `Schema.section_of_overlay`: what is found under a declared key.
- `Schema.overlay_within`: the same holds wherever nested sections lead, so that what is said of one
  level is said of every depth.
- `Schema.overlay_wellFormed`: overlays of well-formed maps are well-formed.
-/

namespace LayeredConfig

@[simp] theorem Section.key_overlay (node : Section) : node.overlay.key = node.key := by
  cases node; rfl

@[simp] theorem Section.run_overlay (node : Section) : node.overlay.run = node.schema.overlay := by
  cases node; rfl

theorem entriesOrEmpty_of_requireMap {operation : Operation} {path : Path} {v : Value}
    {es : Entries Value} (h : requireMap operation path v = .ok es) : v.entriesOrEmpty = es := by
  unfold requireMap at h
  split at h
  · rename_i hentries
    cases h
    exact Value.entriesOrEmpty_of_entries? hentries
  · cases h

theorem isMap_of_requireMap {operation : Operation} {path : Path} {v : Value} {es : Entries Value}
    (h : requireMap operation path v = .ok es) : v.isMap = true := by
  unfold requireMap at h
  split at h
  · exact Value.isMap_of_entries? ‹_›
  · cases h

/-! ## Joint keys -/

theorem mem_jointKeys_iff {lower upper : Entries Value} {key : String} :
    key ∈ jointKeys lower upper ↔ key ∈ Entries.keys lower ∨ key ∈ Entries.keys upper := by
  have hhas : Entries.has lower key = false ↔ key ∉ Entries.keys lower := by
    rw [Entries.has_eq_false_iff, Entries.get?_eq_none_iff]
  simp only [jointKeys, List.mem_append, List.mem_filter, Bool.not_eq_true', hhas]
  by_cases hlower : key ∈ Entries.keys lower <;> simp [hlower]

theorem nodup_jointKeys {lower upper : Entries Value} (hlower : (Entries.keys lower).Nodup)
    (hupper : (Entries.keys upper).Nodup) : (jointKeys lower upper).Nodup := by
  refine List.nodup_append.2 ⟨hlower, hupper.filter _, ?_⟩
  rintro key hkey _ hother rfl
  have hhas : Entries.has lower key = false := by simpa using (List.mem_filter.1 hother).2
  exact Entries.get?_eq_none_iff.1 (Entries.has_eq_false_iff.1 hhas) hkey

/-- An empty map has no keys to begin with. -/
@[simp] theorem jointKeys_nil (upper : Entries Value) :
    jointKeys [] upper = Entries.keys upper := by
  simp [jointKeys, Entries.has, Entries.get?]

/-- Keys that are there already are not added. -/
theorem jointKeys_of_subset {lower upper : Entries Value}
    (h : Entries.keys upper ⊆ Entries.keys lower) : jointKeys lower upper = Entries.keys lower := by
  have hnone : ((Entries.keys upper).filter fun key => !Entries.has lower key) = [] := by
    refine List.filter_eq_nil_iff.2 fun key hkey => ?_
    rw [Entries.has_iff.2 (h hkey)]
    decide
  rw [jointKeys, hnone, List.append_nil]

section Entries

variable {value : String → Except Fault Value} {ks : List String} {es : List (String × Value)}

theorem keys_entriesOf (h : entriesOf value ks = .ok es) : Entries.keys es = ks := by
  induction ks generalizing es with
  | nil =>
    cases h
    rfl
  | cons k rest ih =>
    obtain ⟨v, -, h⟩ := bind_eq_ok_iff.1 h
    obtain ⟨vs, hvs, h⟩ := bind_eq_ok_iff.1 h
    cases h
    simp [ih hvs]

theorem value_of_mem_entriesOf (h : entriesOf value ks = .ok es) {e : String × Value}
    (he : e ∈ es) : value e.1 = .ok e.2 := by
  induction ks generalizing es with
  | nil =>
    cases h
    cases he
  | cons k rest ih =>
    obtain ⟨v, hv, h⟩ := bind_eq_ok_iff.1 h
    obtain ⟨vs, hvs, h⟩ := bind_eq_ok_iff.1 h
    cases h
    rcases List.mem_cons.1 he with rfl | he
    · exact hv
    · exact ih hvs he

end Entries

namespace Schema

/-- The overlays of the sections. -/
def overlaySlots (schema : Schema) : List (Slot MapOverlay) := schema.sections.map Section.overlay

/-- One level of an overlay, `merged` being the entries that it is rebuilt from. -/
structure Overlaid (schema : Schema) (path : Path) (lower upper : Entries Value)
    (merged : List (String × Value)) : Prop where
  keys : Entries.keys merged = jointKeys lower upper
  value : ∀ e ∈ merged,
    overlayKey schema.description (schema.settings.map Setting.key) schema.overlaySlots path lower
      upper e.1 = .ok e.2

variable {schema : Schema} {path : Path} {lower upper : Value} {out : Entries Value}
  {merged : List (String × Value)}

/-- **What an overlay comes to.** -/
theorem overlaid_of_overlay (h : schema.overlay path lower upper = .ok out) :
    ∃ merged, out = Entries.rebuild merged ∧
      schema.Overlaid path lower.entriesOrEmpty upper.entriesOrEmpty merged := by
  rw [overlay_eq] at h
  obtain ⟨lowerEntries, hlower, h⟩ := bind_eq_ok_iff.1 h
  obtain ⟨upperEntries, hupper, h⟩ := bind_eq_ok_iff.1 h
  obtain ⟨merged, hmerged, h⟩ := bind_eq_ok_iff.1 h
  cases h
  rw [entriesOrEmpty_of_requireMap hlower, entriesOrEmpty_of_requireMap hupper]
  exact ⟨merged, rfl, keys_entriesOf hmerged, fun e he => value_of_mem_entriesOf hmerged he⟩

/-- Only maps are laid over each other. -/
theorem isMap_of_overlay (h : schema.overlay path lower upper = .ok out) :
    lower.isMap = true ∧ upper.isMap = true := by
  rw [overlay_eq] at h
  obtain ⟨lowerEntries, hlower, h⟩ := bind_eq_ok_iff.1 h
  obtain ⟨upperEntries, hupper, -⟩ := bind_eq_ok_iff.1 h
  exact ⟨isMap_of_requireMap hlower, isMap_of_requireMap hupper⟩

section Level

variable {lower upper : Entries Value}

/-- The value of a setting is the upper one if there is one. -/
theorem overlayKey_setting {s : Setting} (hs : s ∈ schema.settings) :
    overlayKey schema.description (schema.settings.map Setting.key) schema.overlaySlots path lower
      upper s.key = .ok (upperValue lower upper s.key) :=
  if_pos (List.mem_map_of_mem hs)

/-- The value of a section is the overlay of what is read for it. -/
theorem overlayKey_section (hd : schema.DistinctKeys) {node : Section}
    (hnode : node ∈ schema.sections) :
    overlayKey schema.description (schema.settings.map Setting.key) schema.overlaySlots path lower
        upper node.key =
      (node.schema.overlay (path.entry node.key) (Entries.read lower node.key).orEmptyMap
        (Entries.read upper node.key).orEmptyMap).map .ofEntries := by
  have hsetting : node.key ∉ schema.settings.map Setting.key := by
    intro hmem
    obtain ⟨s, hs, hkey⟩ := List.mem_map.1 hmem
    exact hd.ne hs hnode hkey
  have hn : (schema.overlaySlots.map Slot.key).Nodup := by
    simpa [overlaySlots, Function.comp_def] using hd.sections
  have hmem : node.overlay ∈ schema.overlaySlots := List.mem_map_of_mem hnode
  have hfind : Slot.find? schema.overlaySlots node.key = some node.overlay := by
    simpa using Slot.find?_of_mem hn hmem
  rw [overlayKey, if_neg hsetting, hfind]
  show (node.overlay.run _ _ _).map _ = _
  rw [Section.run_overlay]

/-- Only a declared key comes to a value. -/
theorem mem_keys_of_overlayKey {key : String} {v : Value}
    (h : overlayKey schema.description (schema.settings.map Setting.key) schema.overlaySlots path
      lower upper key = .ok v) : key ∈ schema.keys := by
  unfold overlayKey at h
  split at h
  · exact List.mem_append_left _ ‹_›
  · split at h
    · cases h
    · rename_i slot hfind
      obtain ⟨node, hnode, rfl⟩ := List.mem_map.1 (Slot.mem_of_find? hfind)
      rw [← Slot.key_of_find? hfind, Section.key_overlay]
      exact mem_keys_of_section hnode

/-- A key of either map is declared. -/
theorem Overlaid.declared (h : schema.Overlaid path lower upper merged) {e : String × Value}
    (he : e ∈ merged) : e.1 ∈ schema.keys := mem_keys_of_overlayKey (h.value e he)

theorem upperValue_eq {key : String} (h : key ∈ jointKeys lower upper) :
    some (upperValue lower upper key) =
      (Entries.get? upper key).or (Entries.get? lower key) := by
  unfold upperValue Entries.has Entries.read
  cases hupper : Entries.get? upper key with
  | some v => rfl
  | none =>
    cases hlower : Entries.get? lower key with
    | some v => rfl
    | none =>
      rcases mem_jointKeys_iff.1 h with hmem | hmem
      · exact absurd hmem (Entries.get?_eq_none_iff.1 hlower)
      · exact absurd hmem (Entries.get?_eq_none_iff.1 hupper)

theorem Overlaid.nodup (h : schema.Overlaid path lower upper merged)
    (hlower : (Entries.keys lower).Nodup) (hupper : (Entries.keys upper).Nodup) :
    (Entries.keys merged).Nodup := by
  rw [h.keys]
  exact nodup_jointKeys hlower hupper

/-- Under a declared key the overlay holds a value iff one of the maps does, and then the one that
is made for the key. -/
theorem Overlaid.get?_cases (h : schema.Overlaid path lower upper merged)
    (hp : schema.Proper) (hlower : (Entries.keys lower).Nodup)
    (hupper : (Entries.keys upper).Nodup) {key : String} (hkey : key ∈ schema.keys) :
    (Entries.get? (Entries.rebuild merged) key = none ∧ Entries.get? lower key = none ∧
      Entries.get? upper key = none) ∨
    (key ∈ jointKeys lower upper ∧ ∃ v, Entries.get? (Entries.rebuild merged) key = some v ∧
      overlayKey schema.description (schema.settings.map Setting.key) schema.overlaySlots path
        lower upper key = .ok v) := by
  rw [Entries.get?_rebuild (hp.ne_reservedKey schema.self_mem_nested hkey)
    (h.nodup hlower hupper)]
  cases hget : Entries.get? merged key with
  | none =>
    have hjoint : key ∉ jointKeys lower upper := by
      rw [← h.keys]
      exact Entries.get?_eq_none_iff.1 hget
    refine .inl ⟨rfl, ?_, ?_⟩
    · exact Entries.get?_eq_none_iff.2 fun hmem => hjoint (mem_jointKeys_iff.2 (.inl hmem))
    · exact Entries.get?_eq_none_iff.2 fun hmem => hjoint (mem_jointKeys_iff.2 (.inr hmem))
  | some v =>
    refine .inr ⟨?_, v, rfl, h.value (key, v) (Entries.mem_of_get? hget)⟩
    rw [← h.keys]
    exact Entries.mem_keys_of_get? hget

/-- A setting is held as in the upper map, or else as in the lower one. -/
theorem Overlaid.get?_setting (h : schema.Overlaid path lower upper merged) (hp : schema.Proper)
    (hlower : (Entries.keys lower).Nodup) (hupper : (Entries.keys upper).Nodup) {s : Setting}
    (hs : s ∈ schema.settings) :
    Entries.get? (Entries.rebuild merged) s.key =
      (Entries.get? upper s.key).or (Entries.get? lower s.key) := by
  rcases h.get?_cases hp hlower hupper (mem_keys_of_setting hs) with
    ⟨hget, hl, hu⟩ | ⟨hjoint, v, hget, hv⟩
  · rw [hget, hl, hu]
    rfl
  · rw [overlayKey_setting hs] at hv
    cases hv
    rw [hget, upperValue_eq hjoint]

/-- A section is held iff one of the maps has it, and then as the overlay of what is read for it. -/
theorem Overlaid.get?_section (h : schema.Overlaid path lower upper merged) (hp : schema.Proper)
    (hlower : (Entries.keys lower).Nodup) (hupper : (Entries.keys upper).Nodup) {node : Section}
    (hnode : node ∈ schema.sections) :
    (Entries.get? (Entries.rebuild merged) node.key = none ∧ Entries.get? lower node.key = none ∧
      Entries.get? upper node.key = none) ∨
    ∃ es, Entries.get? (Entries.rebuild merged) node.key = some (.ofEntries es) ∧
      node.schema.overlay (path.entry node.key) (Entries.read lower node.key).orEmptyMap
        (Entries.read upper node.key).orEmptyMap = .ok es := by
  rcases h.get?_cases hp hlower hupper (mem_keys_of_section hnode) with
    habsent | ⟨-, v, hget, hv⟩
  · exact .inl habsent
  · rw [overlayKey_section hp.distinctKeys hnode] at hv
    obtain ⟨es, hes, rfl⟩ := map_eq_ok_iff.1 hv
    exact .inr ⟨es, hget, hes⟩

end Level

/-- **The keys of an overlay:** those of the lower map, then the new ones of the upper map, in
property order. -/
theorem keys_overlay (hp : schema.Proper) (hlower : lower.WellFormed) (hupper : upper.WellFormed)
    (h : schema.overlay path lower upper = .ok out) :
    Entries.keys out = propertyOrder (jointKeys lower.entriesOrEmpty upper.entriesOrEmpty) := by
  obtain ⟨merged, rfl, hmerged⟩ := overlaid_of_overlay h
  have hreserved : reservedKey ∉ Entries.keys merged := by
    intro hmem
    obtain ⟨e, he, hkey⟩ := List.mem_map.1 hmem
    exact hp.ne_reservedKey schema.self_mem_nested (hmerged.declared he) hkey
  rw [Entries.keys_rebuild (hmerged.nodup hlower.nodup hupper.nodup) hreserved, hmerged.keys]

theorem mem_keys_overlay_iff (hp : schema.Proper) (hlower : lower.WellFormed)
    (hupper : upper.WellFormed) (h : schema.overlay path lower upper = .ok out) {key : String} :
    key ∈ Entries.keys out ↔
      key ∈ Entries.keys lower.entriesOrEmpty ∨ key ∈ Entries.keys upper.entriesOrEmpty := by
  rw [keys_overlay hp hlower hupper h, mem_propertyOrder, mem_jointKeys_iff]

/-- Only declared keys are held. -/
theorem mem_keys_of_overlay (hp : schema.Proper) (hlower : lower.WellFormed)
    (hupper : upper.WellFormed) (h : schema.overlay path lower upper = .ok out) {key : String}
    (hkey : key ∈ Entries.keys out) : key ∈ schema.keys := by
  rw [keys_overlay hp hlower hupper h, mem_propertyOrder] at hkey
  obtain ⟨merged, -, hmerged⟩ := overlaid_of_overlay h
  rw [← hmerged.keys] at hkey
  obtain ⟨e, he, rfl⟩ := List.mem_map.1 hkey
  exact hmerged.declared he

/-- An overlay looks at the entries of the maps only. -/
theorem overlay_ofEntries (h : schema.overlay path lower upper = .ok out) :
    schema.overlay path (.ofEntries lower.entriesOrEmpty) (.ofEntries upper.entriesOrEmpty) =
      .ok out := by
  rw [overlay_eq] at h ⊢
  obtain ⟨les, hlower, h⟩ := bind_eq_ok_iff.1 h
  obtain ⟨ues, hupper, h⟩ := bind_eq_ok_iff.1 h
  rw [entriesOrEmpty_of_requireMap hlower, entriesOrEmpty_of_requireMap hupper]
  exact h

theorem overlay_emptyMap (schema : Schema) (path : Path) :
    schema.overlay path .emptyMap .emptyMap = .ok [] := by
  rw [overlay_eq]
  rfl

/-- **A setting of an overlay** is that of the upper map, or else that of the lower one. -/
theorem get?_overlay_setting (hp : schema.Proper) (hlower : lower.WellFormed)
    (hupper : upper.WellFormed) (h : schema.overlay path lower upper = .ok out) {s : Setting}
    (hs : s ∈ schema.settings) :
    Entries.get? out s.key =
      (Entries.get? upper.entriesOrEmpty s.key).or (Entries.get? lower.entriesOrEmpty s.key) := by
  obtain ⟨merged, rfl, hmerged⟩ := overlaid_of_overlay h
  exact hmerged.get?_setting hp hlower.nodup hupper.nodup hs

/-- **A section of an overlay** is the overlay of what is read for it, whether it is given or not.
If it is given, that is what is held. -/
theorem section_of_overlay (hp : schema.Proper) (hlower : lower.WellFormed)
    (hupper : upper.WellFormed) (h : schema.overlay path lower upper = .ok out) {node : Section}
    (hnode : node ∈ schema.sections) :
    ∃ es, node.schema.overlay (path.entry node.key)
        (Entries.read lower.entriesOrEmpty node.key).orEmptyMap
        (Entries.read upper.entriesOrEmpty node.key).orEmptyMap = .ok es ∧
      (Entries.read out node.key).orEmptyMap = .ofEntries es ∧
      (node.key ∈ Entries.keys out → Entries.get? out node.key = some (.ofEntries es)) := by
  obtain ⟨merged, rfl, hmerged⟩ := overlaid_of_overlay h
  rcases hmerged.get?_section hp hlower.nodup hupper.nodup hnode with
    ⟨hget, hl, hu⟩ | ⟨es, hget, hes⟩
  · refine ⟨[], ?_, ?_, fun hmem => absurd hmem (Entries.get?_eq_none_iff.1 hget)⟩
    · rw [Entries.read, Entries.read, hl, hu]
      exact node.schema.overlay_emptyMap (path.entry node.key)
    · rw [Entries.read, hget]
      rfl
  · refine ⟨es, hes, ?_, fun _ => hget⟩
    rw [Entries.read_of_get? hget]
    rfl

/-! ## At every depth -/

theorem overlay_wellFormed (hp : schema.Proper) (hlower : lower.WellFormed)
    (hupper : upper.WellFormed) (h : schema.overlay path lower upper = .ok out) :
    (Value.ofEntries out).WellFormed := by
  induction schema using Schema.induction generalizing path lower upper out with
  | step schema ih =>
    obtain ⟨merged, rfl, hmerged⟩ := overlaid_of_overlay h
    refine Entries.wellFormed_rebuild fun e he => ?_
    have hvalue := hmerged.value e he
    rcases mem_keys_iff.1 (hmerged.declared he) with ⟨s, hs, hkey⟩ | ⟨node, hnode, hkey⟩
    · rw [← hkey, overlayKey_setting hs] at hvalue
      rw [← Except.ok.inj hvalue]
      unfold upperValue
      split
      · exact hupper.read s.key
      · exact hlower.read s.key
    · rw [← hkey, overlayKey_section hp.distinctKeys hnode] at hvalue
      obtain ⟨es, hes, heq⟩ := map_eq_ok_iff.1 hvalue
      rw [← heq]
      exact ih node hnode (hp.section hnode) (hlower.read node.key).orEmptyMap
        (hupper.read node.key).orEmptyMap hes

/-- Where nested sections lead, an overlay is the overlay of what either map has there. -/
theorem overlay_within (hp : schema.Proper) (hlower : lower.WellFormed) (hupper : upper.WellFormed)
    (h : schema.overlay path lower upper = .ok out) {keys : List String} {inner : Schema}
    (hinner : schema.under? keys = some inner) :
    inner.overlay (path ++ Path.ofKeys keys) (.ofEntries (lower.within keys))
      (.ofEntries (upper.within keys)) = .ok ((Value.ofEntries out).within keys) := by
  induction keys generalizing schema path lower upper out with
  | nil =>
    cases hinner
    rw [Path.ofKeys, List.map_nil, List.append_nil]
    exact overlay_ofEntries h
  | cons head rest ih =>
    obtain ⟨node, hfind, hrest⟩ := under?_cons_eq_some_iff.1 hinner
    obtain ⟨hnode, rfl⟩ := mem_of_section? hfind
    obtain ⟨es, hes, hread, -⟩ := section_of_overlay hp hlower hupper h hnode
    have hbelow := ih (hp.section hnode) (hlower.read node.key).orEmptyMap
      (hupper.read node.key).orEmptyMap hes hrest
    rw [← hread] at hbelow
    simp only [Value.within_orEmptyMap] at hbelow
    simpa [Path.entry, Path.ofKeys, Value.within_cons] using hbelow

/-- **An overlay holds what the upper map holds, and else what the lower map holds.** -/
theorem held?_overlay (hp : schema.Proper) (hlower : lower.WellFormed) (hupper : upper.WellFormed)
    (h : schema.overlay path lower upper = .ok out) {keys : List String} {inner : Schema}
    (hinner : schema.under? keys = some inner) {s : Setting} (hs : s ∈ inner.settings) :
    (Value.ofEntries out).held? keys s.key =
      (upper.held? keys s.key).or (lower.held? keys s.key) :=
  get?_overlay_setting (hp.under? hinner) (hlower.within keys) (hupper.within keys)
    (overlay_within hp hlower hupper h hinner) hs

/-- **No key is lost, and none is invented:** an overlay has those that one of the maps has. -/
theorem isSome_held?_overlay (hp : schema.Proper) (hlower : lower.WellFormed)
    (hupper : upper.WellFormed) (h : schema.overlay path lower upper = .ok out)
    {keys : List String} {inner : Schema} (hinner : schema.under? keys = some inner)
    (key : String) :
    ((Value.ofEntries out).held? keys key).isSome = true ↔
      (lower.held? keys key).isSome = true ∨ (upper.held? keys key).isSome = true := by
  have hkeys : key ∈ Entries.keys ((Value.ofEntries out).within keys) ↔
      key ∈ Entries.keys (lower.within keys) ∨ key ∈ Entries.keys (upper.within keys) :=
    mem_keys_overlay_iff (hp.under? hinner) (hlower.within keys) (hupper.within keys)
      (overlay_within hp hlower hupper h hinner)
  rw [← Entries.has_iff, ← Entries.has_iff, ← Entries.has_iff] at hkeys
  exact hkeys

/-- What an overlay holds for a section is a map. -/
theorem isMap_held?_overlay (hp : schema.Proper) (hlower : lower.WellFormed)
    (hupper : upper.WellFormed) (h : schema.overlay path lower upper = .ok out)
    {keys : List String} {inner : Schema} (hinner : schema.under? keys = some inner)
    {node : Section} (hnode : node ∈ inner.sections) {w : Value}
    (hw : (Value.ofEntries out).held? keys node.key = some w) : w.isMap = true := by
  obtain ⟨es, -, -, hget⟩ := section_of_overlay (hp.under? hinner) (hlower.within keys)
    (hupper.within keys) (overlay_within hp hlower hupper h hinner) hnode
  cases hw.symm.trans (hget (Entries.mem_keys_of_get? hw))
  rfl

end Schema

end LayeredConfig
