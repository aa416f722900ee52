import LayeredConfig.Proofs.Merging.EmptyOverlay

/-!
# Laying a map over itself

An overlay of one and the same map, or of the map and the empty one, adds nothing to the map. It
only brings it to a canonical form, in which overlays leave it from then on.

- `Schema.canonical`: the canonical form. Where a section is nil it has the empty map, and where a
  section is a map it has an ordinary one. Keys, their order and the values of settings are kept.
  What is canonical is kept as it is (`Schema.canonical_canonical`).
- `Schema.ComesTo`: a map that is empty, or of a given canonical form. Two such maps laid over each
  other have that form, unless both are empty (`Schema.overlay_of_comesTo`).
- `Schema.overlay_self`: what follows for one map. Completing cannot tell it from its canonical
  form either, by `Schema.complete_overlay_empty`.
-/

namespace LayeredConfig

/-! ## The canonical form -/

mutual

/-- The canonical form of the entries of a map: sections that are nil have become empty maps, and
all section maps are ordinary ones, in their canonical form. -/
def Schema.canonical : Schema → Entries Value → Entries Value
  | ⟨_, _, sections⟩, es => es.map fun e => (e.1, Section.canonicalValue sections e.1 e.2)

/-- The canonical form of the value under a key, which may be that of one of the sections. -/
def Section.canonicalValue : List Section → String → Value → Value
  | [], _, v => v
  | ⟨key, schema, _⟩ :: rest, k, v =>
    if key = k then
      match v.orEmptyMap.entries? with
      | some es => .ofEntries (schema.canonical es)
      | none => v
    else Section.canonicalValue rest k v

end

namespace Section

variable {sections : List Section} {node : Section} {v : Value} {key : String}

/-- A value that does not belong to a section is kept. -/
theorem canonicalValue_of_ne (h : ∀ node ∈ sections, node.key ≠ key) :
    canonicalValue sections key v = v := by
  induction sections with
  | nil => rfl
  | cons first rest ih =>
    obtain ⟨k, schema, inherit⟩ := first
    obtain ⟨hfirst, hrest⟩ := List.forall_mem_cons.1 h
    rw [canonicalValue, if_neg hfirst, ih hrest]

/-- What is given for a section has become an ordinary map. -/
theorem canonicalValue_of_mem (hn : (sections.map Section.key).Nodup) (hnode : node ∈ sections)
    (hv : v.orEmptyMap.isMap = true) :
    canonicalValue sections node.key v = .ofEntries (node.schema.canonical v.entriesOrEmpty) := by
  induction sections with
  | nil => cases hnode
  | cons first rest ih =>
    obtain ⟨k, schema, inherit⟩ := first
    obtain ⟨hk, hn⟩ := List.nodup_cons.1 hn
    rcases List.mem_cons.1 hnode with rfl | hmem
    · obtain ⟨es, hes⟩ := Option.isSome_iff_exists.1 hv
      rw [canonicalValue, if_pos rfl, hes, (Value.entries?_orEmptyMap_iff.1 hes).2]
    · have hne : k ≠ node.key := by
        rintro rfl
        exact hk (List.mem_map.2 ⟨node, hmem, rfl⟩)
      rw [canonicalValue, if_neg hne, ih hn hmem]

/-- What is canonical under a key is kept, if this holds of what the sections have. -/
theorem canonicalValue_canonicalValue
    (h : ∀ node ∈ sections, ∀ es,
      node.schema.canonical (node.schema.canonical es) = node.schema.canonical es)
    (key : String) (v : Value) :
    canonicalValue sections key (canonicalValue sections key v) =
      canonicalValue sections key v := by
  induction sections with
  | nil => rfl
  | cons first rest ih =>
    obtain ⟨k, schema, inherit⟩ := first
    obtain ⟨hfirst, hrest⟩ := List.forall_mem_cons.1 h
    simp only [canonicalValue]
    by_cases hk : k = key
    · simp only [if_pos hk]
      cases hes : v.orEmptyMap.entries? with
      | none => simp only [hes]
      | some es => exact congrArg Value.ofEntries (hfirst es)
    · simp only [if_neg hk]
      exact ih hrest

end Section

namespace Schema

variable {schema : Schema} {path : Path} {a v lower upper : Value}
  {es c inner out : Entries Value} {node : Section}

theorem canonical_eq (schema : Schema) (es : Entries Value) :
    schema.canonical es =
      es.map fun e => (e.1, Section.canonicalValue schema.sections e.1 e.2) := by
  cases schema
  rfl

/-- Keys and their order are kept. -/
@[simp] theorem keys_canonical (schema : Schema) (es : Entries Value) :
    Entries.keys (schema.canonical es) = Entries.keys es := by
  rw [canonical_eq, Entries.keys_mapEntries]

/-- Settings are kept. -/
theorem get?_canonical_setting (hd : schema.DistinctKeys) {s : Setting} (hs : s ∈ schema.settings)
    (es : Entries Value) : Entries.get? (schema.canonical es) s.key = Entries.get? es s.key := by
  rw [canonical_eq, Entries.get?_mapEntries]
  cases Entries.get? es s.key with
  | none => rfl
  | some x =>
    exact congrArg some (Section.canonicalValue_of_ne fun node hnode => (hd.ne hs hnode).symm)

/-- A section that is given is held as an ordinary map, in its own canonical form. -/
theorem get?_canonical_section (hd : schema.DistinctKeys) (hnode : node ∈ schema.sections)
    (hkey : node.key ∈ Entries.keys es)
    (hmap : (Entries.read es node.key).orEmptyMap.isMap = true) :
    Entries.get? (schema.canonical es) node.key = some (.ofEntries
      (node.schema.canonical (Entries.read es node.key).orEmptyMap.entriesOrEmpty)) := by
  obtain ⟨x, hx⟩ := Option.isSome_iff_exists.1 (Entries.has_iff.2 hkey)
  rw [Entries.read_of_get? hx] at hmap ⊢
  rw [canonical_eq, Entries.get?_mapEntries, hx, Value.entriesOrEmpty_orEmptyMap]
  exact congrArg some (Section.canonicalValue_of_mem hd.sections hnode hmap)

/-- **What is canonical is kept as it is.** -/
@[simp] theorem canonical_canonical (schema : Schema) (es : Entries Value) :
    schema.canonical (schema.canonical es) = schema.canonical es := by
  induction schema using Schema.induction generalizing es with
  | step schema ih =>
    rw [canonical_eq, canonical_eq, List.map_map]
    exact List.map_congr_left fun e _ =>
      congrArg (Prod.mk e.1) (Section.canonicalValue_canonicalValue ih e.1 e.2)

/-! ## Maps of one canonical form -/

/-- A map without entries, or of the given canonical form. -/
def ComesTo (schema : Schema) (c : Entries Value) (v : Value) : Prop :=
  v.entriesOrEmpty = [] ∨ schema.canonical v.entriesOrEmpty = c

/-- Such a map has no keys, or those of the canonical form. -/
theorem ComesTo.keys (h : schema.ComesTo c v) :
    Entries.keys v.entriesOrEmpty = [] ∨ Entries.keys v.entriesOrEmpty = Entries.keys c := by
  rcases h with hempty | rfl
  · exact .inl (by rw [hempty]; rfl)
  · exact .inr (keys_canonical schema _).symm

/-- Such a map has no value for a setting, or the one of the canonical form. -/
theorem ComesTo.get?_setting (h : schema.ComesTo c v) (hd : schema.DistinctKeys) {s : Setting}
    (hs : s ∈ schema.settings) :
    Entries.get? v.entriesOrEmpty s.key = none ∨
      Entries.get? v.entriesOrEmpty s.key = Entries.get? c s.key := by
  rcases h with hempty | rfl
  · exact .inl (by rw [hempty]; rfl)
  · exact .inr (get?_canonical_setting hd hs _).symm

/-- A map that fits has a map, or nothing, for a section. -/
theorem isMap_of_fits (h : schema.Fits v) (hnode : node ∈ schema.sections) :
    (Entries.read v.entriesOrEmpty node.key).orEmptyMap.isMap = true :=
  ((fits_iff _ _).1 (((fits_iff schema v).1 h).2.2 node hnode)).1

/-- What is read for a section is empty, or of the form that the canonical form has there. -/
theorem ComesTo.section (h : schema.ComesTo c v) (hd : schema.DistinctKeys)
    (hnode : node ∈ schema.sections) (hfits : schema.Fits v)
    (hinner : Entries.get? c node.key = some (.ofEntries inner)) :
    node.schema.ComesTo inner (Entries.read v.entriesOrEmpty node.key).orEmptyMap := by
  rcases h with hempty | rfl
  · refine .inl ?_
    rw [hempty]
    rfl
  · have hkey := Entries.mem_keys_of_get? hinner
    rw [keys_canonical] at hkey
    rw [get?_canonical_section hd hnode hkey (isMap_of_fits hfits hnode)] at hinner
    cases hinner
    exact .inr rfl

/-! ## Overlays of such maps -/

/-- The overlay has the keys of the canonical form. -/
theorem keys_overlay_of_comesTo (hp : schema.Proper) (hlower : lower.WellFormed)
    (hupper : upper.WellFormed) (hl : schema.ComesTo c lower) (hu : schema.ComesTo c upper)
    (hone : schema.canonical lower.entriesOrEmpty = c ∨ schema.canonical upper.entriesOrEmpty = c)
    (h : schema.overlay path lower upper = .ok out) : Entries.keys out = Entries.keys c := by
  rw [keys_overlay hp hlower hupper h]
  by_cases hempty : Entries.keys lower.entriesOrEmpty = []
  · -- everything comes from the upper map, also where the lower one has the canonical form
    have hupperKeys : Entries.keys upper.entriesOrEmpty = Entries.keys c := by
      rcases hone with hone | hone
      · have hc : Entries.keys c = [] := by rw [← hone, keys_canonical, hempty]
        rcases hu.keys with hnone | hkeys
        · rw [hnone, hc]
        · exact hkeys
      · rw [← hone, keys_canonical]
    rw [List.map_eq_nil_iff.1 hempty, jointKeys_nil, hupper.entriesOrEmpty.1.propertyOrder_keys,
      hupperKeys]
  · have hlowerKeys := hl.keys.resolve_left hempty
    have hsubset : Entries.keys upper.entriesOrEmpty ⊆ Entries.keys lower.entriesOrEmpty := by
      rcases hu.keys with hnone | hkeys
      · rw [hnone]
        exact List.nil_subset _
      · rw [hkeys, hlowerKeys]
        exact List.Subset.refl _
    rw [jointKeys_of_subset hsubset, hlower.entriesOrEmpty.1.propertyOrder_keys, hlowerKeys]

/-- The overlay has the settings of the canonical form. -/
theorem get?_overlay_of_comesTo (hp : schema.Proper) (hlower : lower.WellFormed)
    (hupper : upper.WellFormed) (hl : schema.ComesTo c lower) (hu : schema.ComesTo c upper)
    (hone : schema.canonical lower.entriesOrEmpty = c ∨ schema.canonical upper.entriesOrEmpty = c)
    (h : schema.overlay path lower upper = .ok out) {s : Setting} (hs : s ∈ schema.settings) :
    Entries.get? out s.key = Entries.get? c s.key := by
  have hd := hp.distinctKeys
  rw [get?_overlay_setting hp hlower hupper h hs]
  rcases hone with hone | hone
  · rw [← get?_canonical_setting hd hs lower.entriesOrEmpty, hone]
    rcases hu.get?_setting hd hs with hnone | hvalue
    · rw [hnone, Option.none_or]
    · rw [hvalue, Option.or_self]
  · rw [← get?_canonical_setting hd hs upper.entriesOrEmpty, hone]
    rcases hl.get?_setting hd hs with hnone | hvalue
    · rw [hnone, Option.or_none]
    · rw [hvalue, Option.or_self]

/-- **The overlay of two maps that come to one canonical form** has this form, if either map has
it. -/
theorem overlay_of_comesTo (hp : schema.Proper) (hlower : lower.WellFormed)
    (hupper : upper.WellFormed) (hl : schema.ComesTo c lower) (hu : schema.ComesTo c upper)
    (hone : schema.canonical lower.entriesOrEmpty = c ∨ schema.canonical upper.entriesOrEmpty = c)
    (h : schema.overlay path lower upper = .ok out) : out = c := by
  induction schema using Schema.induction generalizing path lower upper c out with
  | step schema ih =>
    have hd := hp.distinctKeys
    obtain ⟨hlfits, hufits⟩ := (overlay_exists_iff hp).1 ⟨out, h⟩
    have hkeys := keys_overlay_of_comesTo hp hlower hupper hl hu hone h
    have hnodup := (overlay_wellFormed hp hlower hupper h).nodup
    refine Entries.ext_of_get? hkeys hnodup fun key hkey => ?_
    rcases mem_keys_iff.1 (mem_keys_of_overlay hp hlower hupper h hkey) with
      ⟨s, hs, rfl⟩ | ⟨node, hnode, rfl⟩
    · exact get?_overlay_of_comesTo hp hlower hupper hl hu hone h hs
    · obtain ⟨es, hes, -, hget⟩ := section_of_overlay hp hlower hupper h hnode
      have hckey : node.key ∈ Entries.keys c := hkeys ▸ hkey
      obtain ⟨inner, hinner, hone⟩ : ∃ inner,
          Entries.get? c node.key = some (.ofEntries inner) ∧
          (node.schema.canonical
              (Entries.read lower.entriesOrEmpty node.key).orEmptyMap.entriesOrEmpty = inner ∨
            node.schema.canonical
              (Entries.read upper.entriesOrEmpty node.key).orEmptyMap.entriesOrEmpty = inner) := by
        rcases hone with rfl | rfl
        · rw [keys_canonical] at hckey
          exact ⟨_, get?_canonical_section hd hnode hckey (isMap_of_fits hlfits hnode), .inl rfl⟩
        · rw [keys_canonical] at hckey
          exact ⟨_, get?_canonical_section hd hnode hckey (isMap_of_fits hufits hnode), .inr rfl⟩
      rw [hget hkey, hinner]
      refine congrArg (some ∘ Value.ofEntries) ?_
      exact ih node hnode (hp.section hnode) (hlower.read node.key).orEmptyMap
        (hupper.read node.key).orEmptyMap (hl.section hd hnode hlfits hinner)
        (hu.section hd hnode hufits hinner) hone hes

/-- **Maps that fit and come to one canonical form** can be laid over each other. -/
theorem overlay_eq_canonical (hp : schema.Proper) (hlower : lower.WellFormed)
    (hupper : upper.WellFormed) (hlfits : schema.Fits lower) (hufits : schema.Fits upper)
    (hl : schema.ComesTo c lower) (hu : schema.ComesTo c upper)
    (hone : schema.canonical lower.entriesOrEmpty = c ∨ schema.canonical upper.entriesOrEmpty = c)
    (path : Path) : schema.overlay path lower upper = .ok c := by
  obtain ⟨out, h⟩ : ∃ out, schema.overlay path lower upper = .ok out :=
    (overlay_exists_iff hp).2 ⟨hlfits, hufits⟩
  rw [h, overlay_of_comesTo hp hlower hupper hl hu hone h]

/-- **Laying a map over the empty one or over itself.** If the empty map can be laid over a map,
then the map can be laid over the empty one and over itself, and all of these overlays are the
canonical form of the map. Overlays with the empty map and with itself leave the canonical form as
it is, and it is completed like the map, with the same outcome in any place. -/
theorem overlay_self (hp : schema.Proper) (ha : a.WellFormed)
    (h : schema.overlay path a .emptyMap = .ok out) :
    (schema.overlay path .emptyMap a = .ok out ∧ schema.overlay path a a = .ok out) ∧
    out = schema.canonical a.entriesOrEmpty ∧
    (schema.overlay path (.ofEntries out) .emptyMap = .ok out ∧
      schema.overlay path .emptyMap (.ofEntries out) = .ok out ∧
      schema.overlay path (.ofEntries out) (.ofEntries out) = .ok out) ∧
    ∀ path', (Range.schema schema).complete path' (.ofEntries out) =
      (Range.schema schema).complete path' a := by
  have hempty := Value.wellFormed_emptyMap
  have hfits : schema.Fits a := ((overlay_exists_iff hp).1 ⟨out, h⟩).1
  have hfitsEmpty := schema.fits_emptyMap
  have hout : (Value.ofEntries out).WellFormed := overlay_wellFormed hp ha hempty h
  have hfitsOut : schema.Fits (.ofEntries out) := fits_overlay hp ha hempty h
  have hnone : ∀ c, schema.ComesTo c .emptyMap := fun _ => .inl rfl
  have hcanonical : out = schema.canonical a.entriesOrEmpty :=
    overlay_of_comesTo hp ha hempty (.inr rfl) (hnone _) (.inl rfl) h
  have hself : schema.canonical a.entriesOrEmpty = out := hcanonical.symm
  have hagain : schema.canonical (Value.ofEntries out).entriesOrEmpty = out := by
    rw [hcanonical]
    exact canonical_canonical schema _
  refine ⟨⟨?_, ?_⟩, hcanonical, ⟨?_, ?_, ?_⟩, fun path' => ?_⟩
  · exact overlay_eq_canonical hp hempty ha hfitsEmpty hfits (hnone _) (.inr hself) (.inr hself)
      path
  · exact overlay_eq_canonical hp ha ha hfits hfits (.inr hself) (.inr hself) (.inl hself) path
  · exact overlay_eq_canonical hp hout hempty hfitsOut hfitsEmpty (.inr hagain) (hnone _)
      (.inl hagain) path
  · exact overlay_eq_canonical hp hempty hout hfitsEmpty hfitsOut (hnone _) (.inr hagain)
      (.inr hagain) path
  · exact overlay_eq_canonical hp hout hout hfitsOut hfitsOut (.inr hagain) (.inr hagain)
      (.inl hagain) path
  · rw [Range.complete, Range.complete, complete_overlay_empty hp ha hempty rfl h [] path']

/-- A sample schema of a well, with a section that is handed down. -/
def sampleWell : Schema :=
  ⟨"well", [⟨"depth", "how deep", Range.string (.text "10 m"), true⟩],
    [⟨"pump", ⟨"pump", [⟨"power", "how strong", Range.string (.text "weak"), false⟩], []⟩, true⟩,
      ⟨"tap", ⟨"tap", [⟨"depth", "how deep", Range.string (.text "none"), false⟩],
        [⟨"pump", ⟨"pump", [⟨"power", "how strong", Range.string (.text "none"), false⟩], []⟩,
          false⟩]⟩, false⟩]⟩

/-- A well whose tap is a map without a prototype, and has nothing for its pump. -/
def sampleWellMap : Value :=
  .ofEntries [("tap", .object .anonymous true [("pump", .null)]), ("depth", .text "30 m")]

/-- The tap becomes an ordinary map with an empty pump. Completing does not see the difference,
since a pump that is nil is not taken from the well either. -/
theorem overlay_self_sampleWell :
    ∃ out, out = [("tap", .ofEntries [("pump", .emptyMap)]), ("depth", .text "30 m")] ∧
      sampleWell.overlay [] sampleWellMap .emptyMap = .ok out ∧
      sampleWell.overlay [] .emptyMap sampleWellMap = .ok out ∧
      sampleWell.overlay [] sampleWellMap sampleWellMap = .ok out ∧
      (Range.schema sampleWell).complete [] (.ofEntries out) =
        (Range.schema sampleWell).complete [] sampleWellMap := by
  have htap : (Value.object .anonymous true [("pump", .null)]).WellFormed :=
    .object (by decide) (by simp [Value.WellFormed.null])
  have hmap : sampleWellMap.WellFormed := by
    simp +decide [sampleWellMap, Value.wellFormed_ofEntries_iff, Value.WellFormed.text, htap]
  have hempty : sampleWell.overlay [] sampleWellMap .emptyMap =
      .ok [("tap", .ofEntries [("pump", .emptyMap)]), ("depth", .text "30 m")] := rfl
  have hself := overlay_self (by decide) hmap hempty
  exact ⟨_, rfl, hempty, hself.1.1, hself.1.2, hself.2.2.2 []⟩

end Schema

end LayeredConfig
