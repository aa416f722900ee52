import LayeredConfig.Proofs.Merging.Fitting

/-!
# What a failed overlay reports

An overlay fails where one of the two maps does not fit the schema, and its fault names a place
that is there: either it tells what that map has in place of a map, or a key of that map that is
not declared.

- `Value.reached?`: what a value has where nested sections lead, be it a map or not.
- `Schema.Blames`: a fault is due to a value.
- `Schema.overlay_blames`: every fault of an overlay is due to one of the two maps.
- `Schema.mapRanges`: the schema with other ranges. It overlays in the same way.
-/

namespace LayeredConfig

namespace Value

/-- What a value has where nested sections lead: the value itself, or what is held under the last
of the keys. -/
def reached? : Value → List String → Option Value
  | v, [] => some v
  | v, key :: rest => (Entries.get? v.entriesOrEmpty key).bind fun w => w.reached? rest

theorem reached?_cons_of_get? {v w : Value} {head : String}
    (h : Entries.get? v.entriesOrEmpty head = some w) (rest : List String) :
    v.reached? (head :: rest) = w.reached? rest := by
  rw [reached?, h]
  rfl

/-- All that is reached in the empty map is the empty map. -/
theorem eq_emptyMap_of_reached? {keys : List String} {w : Value}
    (h : emptyMap.reached? keys = some w) : w = emptyMap := by
  cases keys with
  | nil => exact (Option.some.inj h).symm
  | cons head rest => cases h

/-- What is no map, but is reached where the empty map stands in for a section that is not given,
is reached in the section that is given. There, it is not nil. -/
theorem reached?_of_read {v w : Value} {head : String} {rest : List String}
    (h : (Entries.read v.entriesOrEmpty head).orEmptyMap.reached? rest = some w)
    (hw : w.isMap = false) :
    v.reached? (head :: rest) = some w ∧ (rest = [] → w.isNil = false) := by
  have hgiven : (Entries.read v.entriesOrEmpty head).isNil = false := by
    cases hnil : (Entries.read v.entriesOrEmpty head).isNil with
    | false => rfl
    | true =>
      rw [orEmptyMap_of_isNil hnil] at h
      rw [eq_emptyMap_of_reached? h] at hw
      cases hw
  have hself : (Entries.read v.entriesOrEmpty head).orEmptyMap =
      Entries.read v.entriesOrEmpty head := by
    simp [orEmptyMap, hgiven]
  rw [hself] at h
  cases hx : Entries.get? v.entriesOrEmpty head with
  | none =>
    rw [Entries.read, hx] at hgiven
    cases hgiven
  | some x =>
    rw [Entries.read_of_get? hx] at h hgiven
    refine ⟨(reached?_cons_of_get? hx rest).trans h, ?_⟩
    rintro rfl
    cases h
    exact hgiven

end Value

/-! ## Faults by key -/

/-- Where several keys do not all come to a value, it is for a fault of one of them. -/
theorem error_of_entriesOf {value : String → Except Fault Value} {ks : List String} {fault : Fault}
    (h : entriesOf value ks = .error fault) : ∃ key ∈ ks, value key = .error fault := by
  induction ks with
  | nil => cases h
  | cons k rest ih =>
    rcases bind_eq_error_iff.1 h with hk | ⟨v, -, h⟩
    · exact ⟨k, List.mem_cons_self, hk⟩
    · rcases bind_eq_error_iff.1 h with hrest | ⟨vs, -, h⟩
      · obtain ⟨key, hkey, hfault⟩ := ih hrest
        exact ⟨key, List.mem_cons_of_mem k hkey, hfault⟩
      · cases h

theorem error_of_requireMap {operation : Operation} {path : Path} {v : Value} {fault : Fault}
    (h : requireMap operation path v = .error fault) :
    v.isMap = false ∧ fault = .notAMap operation path v := by
  unfold requireMap at h
  split at h
  · cases h
  · rename_i hnone
    cases h
    exact ⟨by rw [Value.isMap, hnone]; rfl, rfl⟩

namespace Schema

variable {schema : Schema} {path : Path} {lower upper v : Value} {fault : Fault}

/-- A fault of a key is that the key is not declared, or a fault of the section of that key. -/
theorem error_of_overlayKey {lower upper : Entries Value} {key : String}
    (h : overlayKey schema.description (schema.settings.map Setting.key) schema.overlaySlots path
      lower upper key = .error fault) :
    (key ∉ schema.keys ∧ fault = .unknownKey path key schema.description) ∨
      ∃ node ∈ schema.sections, node.key = key ∧
        node.schema.overlay (path.entry node.key) (Entries.read lower node.key).orEmptyMap
          (Entries.read upper node.key).orEmptyMap = .error fault := by
  unfold overlayKey at h
  split at h
  · cases h
  · rename_i hsetting
    split at h
    · rename_i hfind
      cases h
      refine .inl ⟨fun hkey => ?_, rfl⟩
      rcases List.mem_append.1 hkey with hkey | hkey
      · exact hsetting hkey
      · -- a section of the key would have been found
        have hdeclared : Slot.declares schema.overlaySlots key = true := by
          rw [Slot.declares_iff]
          simpa [overlaySlots, Function.comp_def] using hkey
        rw [Slot.declares, hfind] at hdeclared
        cases hdeclared
    · rename_i slot hfind
      obtain ⟨node, hnode, rfl⟩ := List.mem_map.1 (Slot.mem_of_find? hfind)
      obtain rfl : node.key = key := by simpa using Slot.key_of_find? hfind
      rw [map_eq_error_iff, Section.run_overlay] at h
      exact .inr ⟨node, hnode, rfl, h⟩

/-- What an overlay fails of: something else than a map, or a key that is not declared. -/
theorem code_of_overlay (h : schema.overlay path lower upper = .error fault) :
    fault.code = .notAMap ∨ fault.code = .unknownSchemaKey := by
  induction schema using Schema.induction generalizing path lower upper with
  | step schema ih =>
    rw [overlay_eq] at h
    rcases bind_eq_error_iff.1 h with hlower | ⟨les, -, h⟩
    · obtain ⟨-, rfl⟩ := error_of_requireMap hlower
      exact .inl rfl
    rcases bind_eq_error_iff.1 h with hupper | ⟨ues, -, h⟩
    · obtain ⟨-, rfl⟩ := error_of_requireMap hupper
      exact .inl rfl
    rcases bind_eq_error_iff.1 h with hkeys | ⟨merged, -, h⟩
    · obtain ⟨key, -, hfault⟩ := error_of_entriesOf hkeys
      rcases error_of_overlayKey hfault with ⟨-, rfl⟩ | ⟨node, hnode, -, hsection⟩
      · exact .inr rfl
      · exact ih node hnode hsection
    · cases h

/-! ## Which map a fault is due to -/

/-- A fault of an overlay at `path` is due to the value `v`, which is one of the two maps. -/
inductive Blames (schema : Schema) (path : Path) (v : Value) : Fault → Prop
  /-- Where sections lead, `v` has something that is no map. In place of a section, it is not nil
  either. -/
  | notAMap {keys : List String} {inner : Schema} {w : Value}
      (place : schema.under? keys = some inner) (reached : v.reached? keys = some w)
      (noMap : w.isMap = false) (given : keys ≠ [] → w.isNil = false) :
      Blames schema path v (.notAMap .overlay (path ++ Path.ofKeys keys) w)
  /-- Where sections lead, `v` has a key that is not declared. -/
  | unknownKey {keys : List String} {inner : Schema} {key : String}
      (place : schema.under? keys = some inner) (owned : (v.held? keys key).isSome = true)
      (undeclared : key ∉ inner.keys) :
      Blames schema path v (.unknownKey (path ++ Path.ofKeys keys) key inner.description)

/-- What is due to the map of a section is due to the map around it. -/
theorem Blames.of_section (hd : schema.DistinctKeys) {node : Section}
    (hnode : node ∈ schema.sections)
    (h : node.schema.Blames (path.entry node.key)
      (Entries.read v.entriesOrEmpty node.key).orEmptyMap fault) :
    schema.Blames path v fault := by
  cases h with
  | @notAMap keys inner w place reached noMap given =>
    obtain ⟨hreached, hnil⟩ := Value.reached?_of_read reached noMap
    rw [Path.entry_append]
    refine .notAMap ((hd.under?_cons hnode keys).trans place) hreached noMap fun _ => ?_
    by_cases hkeys : keys = []
    · exact hnil hkeys
    · exact given hkeys
  | @unknownKey keys inner key place owned undeclared =>
    rw [Path.entry_append]
    refine .unknownKey ((hd.under?_cons hnode keys).trans place) ?_ undeclared
    rw [Value.held?_orEmptyMap] at owned
    exact owned

/-- A value that is no map is to blame for it. -/
theorem blames_notAMap (schema : Schema) (path : Path) (hmap : v.isMap = false) :
    schema.Blames path v (.notAMap .overlay path v) := by
  have hplace : schema.Blames path v (.notAMap .overlay (path ++ Path.ofKeys []) v) :=
    .notAMap rfl rfl hmap fun hne => absurd rfl hne
  rwa [Path.ofKeys, List.map_nil, List.append_nil] at hplace

/-- A map with a key that is not declared is to blame for it. -/
theorem blames_unknownKey (path : Path) {key : String}
    (hkey : key ∈ Entries.keys v.entriesOrEmpty) (hundeclared : key ∉ schema.keys) :
    schema.Blames path v (.unknownKey path key schema.description) := by
  have hplace : schema.Blames path v
      (.unknownKey (path ++ Path.ofKeys []) key schema.description) :=
    .unknownKey rfl (Entries.has_iff.2 hkey) hundeclared
  rwa [Path.ofKeys, List.map_nil, List.append_nil] at hplace

/-- **Every fault of an overlay is due to one of the two maps.** -/
theorem overlay_blames (hp : schema.Proper)
    (h : schema.overlay path lower upper = .error fault) :
    schema.Blames path lower fault ∨ schema.Blames path upper fault := by
  induction schema using Schema.induction generalizing path lower upper with
  | step schema ih =>
    rw [overlay_eq] at h
    rcases bind_eq_error_iff.1 h with hlower | ⟨les, hlower, h⟩
    · obtain ⟨hmap, rfl⟩ := error_of_requireMap hlower
      exact .inl (schema.blames_notAMap path hmap)
    rcases bind_eq_error_iff.1 h with hupper | ⟨ues, hupper, h⟩
    · obtain ⟨hmap, rfl⟩ := error_of_requireMap hupper
      exact .inr (schema.blames_notAMap path hmap)
    obtain rfl := entriesOrEmpty_of_requireMap hlower
    obtain rfl := entriesOrEmpty_of_requireMap hupper
    rcases bind_eq_error_iff.1 h with hkeys | ⟨merged, -, h⟩
    · obtain ⟨key, hkey, hfault⟩ := error_of_entriesOf hkeys
      rcases error_of_overlayKey hfault with ⟨hundeclared, rfl⟩ | ⟨node, hnode, rfl, hsection⟩
      · -- the key comes from one of the maps
        rcases mem_jointKeys_iff.1 hkey with hmem | hmem
        · exact .inl (blames_unknownKey path hmem hundeclared)
        · exact .inr (blames_unknownKey path hmem hundeclared)
      · rcases ih node hnode (hp.section hnode) hsection with hblames | hblames
        · exact .inl (hblames.of_section hp.distinctKeys hnode)
        · exact .inr (hblames.of_section hp.distinctKeys hnode)
    · cases h

end Schema

/-! ## Other ranges -/

mutual

/-- The schema with the ranges of all its settings replaced. -/
def Schema.mapRanges (f : Range → Range) : Schema → Schema
  | ⟨description, settings, sections⟩ =>
    ⟨description, settings.map fun s => ⟨s.key, s.description, f s.range, s.inherit⟩,
      Section.mapRanges f sections⟩

/-- The sections with the ranges of all their settings replaced. -/
def Section.mapRanges (f : Range → Range) : List Section → List Section
  | [] => []
  | ⟨key, schema, inherit⟩ :: rest =>
    ⟨key, schema.mapRanges f, inherit⟩ :: Section.mapRanges f rest

end

theorem Section.mapRanges_eq_map (f : Range → Range) (sections : List Section) :
    Section.mapRanges f sections =
      sections.map fun node => ⟨node.key, node.schema.mapRanges f, node.inherit⟩ := by
  induction sections with
  | nil => rfl
  | cons node rest ih =>
    obtain ⟨key, schema, inherit⟩ := node
    rw [Section.mapRanges, ih]
    rfl

theorem Section.overlay_eq (node : Section) :
    node.overlay = ⟨node.key, node.inherit, node.schema.overlay⟩ := by
  cases node
  rfl

namespace Schema

theorem mapRanges_eq (f : Range → Range) (schema : Schema) :
    schema.mapRanges f =
      ⟨schema.description,
        schema.settings.map fun s => ⟨s.key, s.description, f s.range, s.inherit⟩,
        schema.sections.map fun node => ⟨node.key, node.schema.mapRanges f, node.inherit⟩⟩ := by
  obtain ⟨description, settings, sections⟩ := schema
  rw [mapRanges, Section.mapRanges_eq_map]

/-- **Overlaying asks no range.** -/
theorem overlay_mapRanges (f : Range → Range) (schema : Schema) :
    (schema.mapRanges f).overlay = schema.overlay := by
  induction schema using Schema.induction with
  | step schema ih =>
    have hsections : (schema.mapRanges f).sections.map Section.overlay =
        schema.sections.map Section.overlay := by
      rw [mapRanges_eq, List.map_map]
      refine List.map_congr_left fun node hnode => ?_
      show Section.overlay ⟨node.key, node.schema.mapRanges f, node.inherit⟩ = node.overlay
      rw [Section.overlay_eq, Section.overlay_eq, ih node hnode]
    have hsettings : (schema.mapRanges f).settings.map Setting.key =
        schema.settings.map Setting.key := by
      rw [mapRanges_eq, List.map_map]
      rfl
    have hdescription : (schema.mapRanges f).description = schema.description := by
      rw [mapRanges_eq]
    rw [Schema.overlay_eq, Schema.overlay_eq, hsections, hsettings, hdescription]

/-! ## When an overlay fails -/

variable {schema : Schema} {path : Path} {lower upper : Value}

/-- **When an overlay fails, and what it reports.** One map can be laid over another iff both fit
the schema, whatever its ranges are. Else the report is of one of two kinds, and names a place to
which sections lead:

- that there is no map: one of the two maps has there, in place of a map, the value that is
  reported, which is not nil unless it is the map as a whole;
- that a key is unknown: one of the two maps has the key there, and it is not declared. -/
theorem overlay_fault (hp : schema.Proper) :
    ((∃ out, schema.overlay path lower upper = .ok out) ↔
      schema.Fits lower ∧ schema.Fits upper) ∧
    (∀ f, (schema.mapRanges f).overlay path lower upper = schema.overlay path lower upper) ∧
    ∀ fault, schema.overlay path lower upper = .error fault →
      (fault.code = .notAMap ∧ ∃ keys w,
        fault.details = [("path", (path ++ Path.ofKeys keys).toValue), ("value", w)] ∧
        (schema.under? keys).isSome = true ∧
        (lower.reached? keys = some w ∨ upper.reached? keys = some w) ∧
        w.isMap = false ∧ (keys ≠ [] → w.isNil = false)) ∨
      (fault.code = .unknownSchemaKey ∧ ∃ keys inner key,
        fault.details = [("path", (path ++ Path.ofKeys keys).toValue), ("key", .text key)] ∧
        schema.under? keys = some inner ∧
        ((lower.held? keys key).isSome = true ∨ (upper.held? keys key).isSome = true) ∧
        key ∉ inner.keys) := by
  refine ⟨overlay_exists_iff hp, fun f => by rw [overlay_mapRanges], fun fault h => ?_⟩
  rcases overlay_blames hp h with hblames | hblames
  · cases hblames with
    | @notAMap keys inner w place reached noMap given =>
      exact .inl ⟨rfl, keys, w, rfl, Option.isSome_iff_exists.2 ⟨inner, place⟩, .inl reached,
        noMap, given⟩
    | @unknownKey keys inner key place owned undeclared =>
      exact .inr ⟨rfl, keys, inner, key, rfl, place, .inl owned, undeclared⟩
  · cases hblames with
    | @notAMap keys inner w place reached noMap given =>
      exact .inl ⟨rfl, keys, w, rfl, Option.isSome_iff_exists.2 ⟨inner, place⟩, .inr reached,
        noMap, given⟩
    | @unknownKey keys inner key place owned undeclared =>
      exact .inr ⟨rfl, keys, inner, key, rfl, place, .inr owned, undeclared⟩

/-- A sample schema of a gate with a lock. -/
def sampleGate : Schema :=
  ⟨"gate", [⟨"width", "width of the gate", Range.string (.text "narrow"), false⟩],
    [⟨"lock", ⟨"lock", [⟨"code", "code of the lock", .nonNil, false⟩], []⟩, false⟩]⟩

/-- A gate whose lock is not given. -/
def sampleGateBelow : Value := .ofEntries [("lock", .null)]

/-- A gate whose lock has a key that locks do not have. -/
def sampleGateAbove : Value := .ofEntries [("lock", .ofEntries [("colour", .text "red")])]

/-- The gates are not laid over each other, and the unknown key is found in the lock. -/
theorem overlay_fault_sampleGate :
    ∃ fault, sampleGate.overlay [.key "north"] sampleGateBelow sampleGateAbove = .error fault ∧
      fault.code = .unknownSchemaKey ∧ ∃ keys inner key,
        fault.details = [("path", Path.toValue (.key "north" :: Path.ofKeys keys)),
          ("key", .text key)] ∧
        sampleGate.under? keys = some inner ∧
        ((sampleGateBelow.held? keys key).isSome = true ∨
          (sampleGateAbove.held? keys key).isSome = true) ∧
        key ∉ inner.keys := by
  obtain ⟨fault, hfault⟩ : ∃ fault,
      sampleGate.overlay [.key "north"] sampleGateBelow sampleGateAbove = .error fault := ⟨_, rfl⟩
  have hcode : fault.code ≠ .notAMap := by
    cases hfault
    decide
  obtain ⟨-, -, hreport⟩ :=
    @overlay_fault sampleGate [.key "north"] sampleGateBelow sampleGateAbove (by decide)
  rcases hreport fault hfault with ⟨hmap, -⟩ | hkey
  · exact absurd hmap hcode
  · exact ⟨fault, hfault, hkey⟩

end Schema

end LayeredConfig
