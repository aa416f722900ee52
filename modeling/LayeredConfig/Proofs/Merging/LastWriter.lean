import LayeredConfig.Proofs.Merging.Layers

/-!
# The last writer wins

Raw maps that are laid over each other have the entries that one of them has, no more and no less,
and under each key what the last of them has there (`Schema.mergeLayers_lastWriter`).

- `Schema.Gathers`: a map has what some of several maps have. One more map laid over it keeps this
  (`Gathers.mergePair`), by what two maps come to (`isSome_held?_mergePair`,
  `isMap_held?_mergePair`).
- Sections are overlaid and not replaced, so under the key of one there is always a map. Profiles
  are replaced as a whole.
-/

namespace LayeredConfig

/-- Something is held by the last of several maps iff it is held by one of them. -/
theorem isSome_lastHeld_iff {maps : List Value} {keys : List String} {key : String} :
    (lastHeld maps keys key).isSome = true ↔ ∃ map ∈ maps, (map.held? keys key).isSome = true := by
  rw [lastHeld, List.getLast?_isSome, ne_eq, List.filterMap_eq_nil_iff]
  simp only [not_forall, exists_prop, Option.isSome_iff_ne_none, ne_eq]

/-- A layer has profiles iff the raw map has an entry for them. -/
theorem Layer.isSome_profiles_of_eq_ok {operation : Operation} {map : Value} {layer : Layer}
    (h : Layer.of operation map = .ok layer) :
    layer.profiles.isSome = (map.held? [] profilesKey).isSome := by
  show _ = (Entries.get? map.entriesOrEmpty profilesKey).isSome
  rcases Layer.cases_of_eq_ok h with ⟨hnone, rfl⟩ | ⟨profiles, hsome, rfl⟩
  · rw [hnone]
    rfl
  · rw [hsome]
    rfl

theorem isSome_mergeProfiles (lower upper : Option (Entries Value)) :
    (mergeProfiles lower upper).isSome = (lower.isSome || upper.isSome) := by
  cases lower <;> cases upper <;> rfl

namespace Schema

variable {schema inner : Schema} {lower upper : Value} {out : Entries Value} {files : List Value}
  {keys : List String}

/-! ## Two maps -/

/-- A way through declared sections leads into the base, unless it ends at the profiles at once. -/
theorem leadsIntoBase_or (hp : schema.Proper) (hprofiles : profilesKey ∉ schema.keys)
    (hinner : schema.under? keys = some inner) {key : String} (hkey : key ≠ reservedKey) :
    LeadsIntoBase keys key ∨ keys = [] ∧ key = profilesKey := by
  cases keys with
  | nil =>
    by_cases hprofilesKey : key = profilesKey
    · exact .inr ⟨rfl, hprofilesKey⟩
    · refine .inl fun head hhead => ?_
      cases hhead
      exact ⟨hprofilesKey, hkey⟩
  | cons first rest =>
    obtain ⟨node, hnode, -⟩ := under?_cons_eq_some_iff.1 hinner
    obtain ⟨hmem, rfl⟩ := mem_of_section? hnode
    have hself : schema.under? [] = some schema := rfl
    exact .inl (leadsIntoBase hp hprofiles hself (mem_keys_of_section hmem))

/-- **Two merged maps have the entries that one of them has.** -/
theorem isSome_held?_mergePair (hp : schema.Proper) (hprofiles : profilesKey ∉ schema.keys)
    (hlower : lower.WellFormed) (hupper : upper.WellFormed)
    (h : schema.mergePair lower upper = .ok out) (hinner : schema.under? keys = some inner)
    {key : String} (hkey : key ≠ reservedKey) :
    ((Value.ofEntries out).held? keys key).isSome = true ↔
      (lower.held? keys key).isSome = true ∨ (upper.held? keys key).isSome = true := by
  obtain ⟨below, above, merged, hbelow, habove, hmerged, hwell, rfl⟩ :=
    joined_of_mergePair hp hlower hupper h
  obtain ⟨hbelowMap, haboveMap⟩ := isMap_of_overlay hmerged
  have hb : below.Splits lower := Layer.splits_of_eq_ok hlower hbelow hbelowMap
  have ha : above.Splits upper := Layer.splits_of_eq_ok hupper habove haboveMap
  rcases leadsIntoBase_or hp hprofiles hinner hkey with hway | ⟨rfl, rfl⟩
  · rw [Layer.held?_entries _ hway,
      isSome_held?_overlay hp hb.wellFormed ha.wellFormed hmerged hinner, hb.held?_base hway,
      ha.held?_base hway]
  · -- the entry for the profiles is there iff one of the layers has profiles
    show (Entries.get? (Layer.entries _) profilesKey).isSome = true ↔ _
    rw [Layer.get?_entries_profilesKey hwell.stripped, Option.isSome_map, isSome_mergeProfiles,
      Bool.or_eq_true, Layer.isSome_profiles_of_eq_ok hbelow, Layer.isSome_profiles_of_eq_ok habove]

/-- What two merged maps hold for a section is a map, even if either had a nil. -/
theorem isMap_held?_mergePair (hp : schema.Proper) (hprofiles : profilesKey ∉ schema.keys)
    (hlower : lower.WellFormed) (hupper : upper.WellFormed)
    (h : schema.mergePair lower upper = .ok out) (hinner : schema.under? keys = some inner)
    {node : Section} (hnode : node ∈ inner.sections) {w : Value}
    (hw : (Value.ofEntries out).held? keys node.key = some w) : w.isMap = true := by
  obtain ⟨below, above, merged, hbelow, habove, hmerged, -, rfl⟩ :=
    joined_of_mergePair hp hlower hupper h
  obtain ⟨hbelowMap, haboveMap⟩ := isMap_of_overlay hmerged
  have hb : below.Splits lower := Layer.splits_of_eq_ok hlower hbelow hbelowMap
  have ha : above.Splits upper := Layer.splits_of_eq_ok hupper habove haboveMap
  rw [Layer.held?_entries _ (leadsIntoBase hp hprofiles hinner (mem_keys_of_section hnode))] at hw
  exact isMap_held?_overlay hp hb.wellFormed ha.wellFormed hmerged hinner hnode hw

/-! ## Any number of maps -/

/-- A map stands for several ones, and has the entries that one of them has. If there are at least
two, it has maps for sections. -/
structure Gathers (schema : Schema) (v : Value) (files : List Value) : Prop
    extends StandsFor schema v files where
  owned : ∀ keys inner, schema.under? keys = some inner → ∀ key, key ≠ reservedKey →
    ((v.held? keys key).isSome = true ↔ ∃ file ∈ files, (file.held? keys key).isSome = true)
  nested : 2 ≤ files.length → ∀ keys inner, schema.under? keys = some inner →
    ∀ node ∈ inner.sections, ∀ w, v.held? keys node.key = some w → w.isMap = true

theorem gathers_self {file : Value} (h : file.WellFormed) : schema.Gathers file [file] where
  toStandsFor := standsFor_self h
  owned keys inner _ key _ := by simp
  nested htwo := absurd htwo (by simp)

/-- One more map laid over it. -/
theorem Gathers.mergePair (hl : schema.Gathers lower files) (hp : schema.Proper)
    (hprofiles : profilesKey ∉ schema.keys) (hupper : upper.WellFormed)
    (h : schema.mergePair lower upper = .ok out) :
    schema.Gathers (.ofEntries out) (files ++ [upper]) where
  toStandsFor := hl.toStandsFor.mergePair hp hprofiles hupper h
  owned keys inner hinner key hkey := by
    rw [isSome_held?_mergePair hp hprofiles hl.wellFormed hupper h hinner hkey,
      hl.owned keys inner hinner key hkey]
    simp [List.mem_append, or_and_right, exists_or]
  nested _ _ _ hinner _ hnode _ hw :=
    isMap_held?_mergePair hp hprofiles hl.wellFormed hupper h hinner hnode hw

/-- **The last writer wins,** nothing is lost and nothing is invented. Where raw maps can be merged,
the merged map

- has an entry in a place iff one of the maps has one there: for a setting, for a section, and for
  the profiles at the top;
- holds for a setting what the last of the maps holds that has an entry there, also an explicit nil;
- holds a map for a section, also where all the maps have nil;
- has the profiles that one of the maps has, each with the content that the last of them has. -/
theorem mergeLayers_lastWriter {first second : Value} {rest : List Value} (hp : schema.Proper)
    (hprofiles : profilesKey ∉ schema.keys)
    (hfiles : ∀ file ∈ first :: second :: rest, file.WellFormed)
    (h : schema.mergeLayers first second rest = .ok out) :
    (∀ keys inner, schema.under? keys = some inner → ∀ key, key ≠ reservedKey →
      (((Value.ofEntries out).held? keys key).isSome = true ↔
        ∃ file ∈ first :: second :: rest, (file.held? keys key).isSome = true)) ∧
    (∀ keys inner, schema.under? keys = some inner → ∀ s ∈ inner.settings,
      (Value.ofEntries out).held? keys s.key = lastHeld (first :: second :: rest) keys s.key) ∧
    (∀ keys inner, schema.under? keys = some inner → ∀ node ∈ inner.sections, ∀ w,
      (Value.ofEntries out).held? keys node.key = some w → w.isMap = true) ∧
    ∀ name,
      (((Value.ofEntries out).held? [profilesKey] name).isSome = true ↔
        ∃ file ∈ first :: second :: rest, (file.held? [profilesKey] name).isSome = true) ∧
      (Value.ofEntries out).held? [profilesKey] name =
        lastHeld (first :: second :: rest) [profilesKey] name := by
  have hall : schema.Gathers (.ofEntries out) (first :: second :: rest) :=
    mergeLayers_induction h (gathers_self (hfiles first List.mem_cons_self))
      fun _ _ upper _ hupper hlower hmerged =>
        hlower.mergePair hp hprofiles (hfiles upper (List.mem_cons_of_mem first hupper)) hmerged
  refine ⟨hall.owned, hall.setting, hall.nested (by simp), fun name => ⟨?_, hall.profile name⟩⟩
  rw [hall.profile name, isSome_lastHeld_iff]

/-- A sample schema of a pump. -/
def samplePump : Schema :=
  ⟨"pump", [⟨"rate", "how fast", Range.string (.text "slow"), false⟩],
    [⟨"log", ⟨"log", [⟨"level", "log level", Range.string (.text "info"), false⟩], []⟩, false⟩]⟩

/-- A file that gives the pump a rate, and nothing for its log. -/
def samplePumpFile : Value := .ofEntries [("rate", .text "fast"), ("log", .null)]

/-- A file that takes the rate back, and has a profile. -/
def samplePumpNight : Value :=
  .ofEntries [("rate", .null), ("log", .undefined),
    ("profiles", .ofEntries [("night", .ofEntries [("rate", .text "slow")])])]

/-- A file that empties the profile. -/
def samplePumpClear : Value := .ofEntries [("profiles", .ofEntries [("night", .emptyMap)])]

/-- In the merged pump the rate is an explicit nil, the log is a map, and the profile is empty. -/
theorem mergeLayers_samplePump :
    ∃ out log, samplePump.mergeLayers samplePumpFile samplePumpNight [samplePumpClear] = .ok out ∧
      (Value.ofEntries out).held? [] "rate" = some .null ∧
      (Value.ofEntries out).held? [] "log" = some log ∧ log.isMap = true ∧
      (Value.ofEntries out).held? ["profiles"] "night" = some .emptyMap := by
  have hfiles : ∀ file ∈ [samplePumpFile, samplePumpNight, samplePumpClear], file.WellFormed := by
    simp +decide [samplePumpFile, samplePumpNight, samplePumpClear, Value.emptyMap,
      Value.wellFormed_ofEntries_iff, Value.WellFormed.text, Value.WellFormed.null,
      Value.WellFormed.undefined]
  obtain ⟨out, hout⟩ : ∃ out, samplePump.mergeLayers samplePumpFile samplePumpNight
      [samplePumpClear] = .ok out := ⟨_, rfl⟩
  have hplace : samplePump.under? [] = some samplePump := rfl
  obtain ⟨howned, hsetting, hsection, hprofile⟩ :=
    mergeLayers_lastWriter (by decide) (by decide) hfiles hout
  obtain ⟨log, hlog⟩ := Option.isSome_iff_exists.1
    ((howned [] samplePump hplace "log" (by decide)).2 ⟨_, List.mem_cons_self, rfl⟩)
  exact ⟨out, log, hout, hsetting [] samplePump hplace _ List.mem_cons_self, hlog,
    hsection [] samplePump hplace _ List.mem_cons_self log hlog, (hprofile "night").2⟩

end Schema

end LayeredConfig
