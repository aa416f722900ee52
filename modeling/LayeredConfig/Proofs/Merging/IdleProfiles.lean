import LayeredConfig.Proofs.Completion.Rejection
import LayeredConfig.Proofs.Merging.EmptyOverlay
import LayeredConfig.Proofs.Merging.ValidOverlays

/-!
# Profiles that change nothing

A raw map may hold profiles that are not asked for, and profiles without content. Neither of them
says anything of a setting, so one expects that they make no difference.

- `Schema.normalize_of_unnamed`: profiles that are not named are not seen, whatever the schema is.
  This needs the map to have no reserved key: such a key is rejected where there are no profiles,
  and does not get into the base where there are some.
- `Schema.normalize_of_emptyProfile`: a profile without content makes no difference to a map that
  fits the schema, be it accepted or not. To a map that does not fit it does. Completing rejects
  the map, and the overlay, which comes before that, ends in a fault.
-/

namespace LayeredConfig

namespace Schema

variable {schema : Schema} {map profiles : Value}

/-! ## The base of a map with profiles -/

/-- The base of a map with profiles is the map without them, unless it has the reserved key. -/
theorem layer_of_profiles_without (operation : Operation) (hmap : map.WellFormed)
    (hreserved : reservedKey ∉ Entries.keys (map.entriesOrEmpty.without profilesKey))
    (hprofiles : map.held? [] profilesKey = some profiles) (hprofilesMap : profiles.isMap = true) :
    Layer.of operation map = .ok
      ⟨.ofEntries (map.entriesOrEmpty.without profilesKey), some profiles.entriesOrEmpty⟩ := by
  rw [layer_of_profiles operation hprofiles hprofilesMap, Value.ofAssigned_of_not_mem hreserved,
    Entries.rebuild_eq_self (hmap.entriesOrEmpty.1.without profilesKey) hreserved]

/-! ## Profiles that are not named -/

/-- **Profiles that are not named are not seen.** A map without profiles and without the reserved
key, and the same map with profiles added, are normalized alike: the same is answered and the same
is logged. If the map has an undeclared key, this is a violation in both cases, for such a key or
for a setting that is rejected before. -/
theorem normalize_of_unnamed {extended : Value} (hmap : map.isMap = true)
    (hreserved : reservedKey ∉ Entries.keys map.entriesOrEmpty) (hextended : extended.WellFormed)
    (hrest : extended.entriesOrEmpty.without profilesKey = map.entriesOrEmpty)
    (hprofiles : extended.held? [] profilesKey = some profiles)
    (hprofilesMap : profiles.isMap = true) (schema : Schema) (package : Log.Logger)
    (inherited : Entries Value) (path : Path) :
    schema.normalize package [] extended inherited path =
      schema.normalize package [] map inherited path ∧
    ∀ key ∈ Entries.keys map.entriesOrEmpty, key ∉ schema.keys → ∃ violation,
      (schema.normalize package [] extended inherited path).result = .ok (.error violation) ∧
      ((∃ s ∈ schema.settings, ∃ x, (s.key, x) ∈ map.entriesOrEmpty ∧
        s.range.complete (path.entry s.key) x = .error violation) ∨
      ∃ key' x, (key', x) ∈ map.entriesOrEmpty ∧ key' ∉ schema.keys ∧
        violation = ⟨none, path.entry key', x⟩) := by
  have hlayer : Layer.of .overlayProfiles extended = .ok
      ⟨.ofEntries map.entriesOrEmpty, some profiles.entriesOrEmpty⟩ := by
    rw [← hrest] at hreserved ⊢
    exact layer_of_profiles_without _ hextended hreserved hprofiles hprofilesMap
  have hnone : Entries.get? map.entriesOrEmpty profilesKey = none := by
    rw [← hrest, Entries.get?_without, if_pos rfl]
  have hsame : schema.normalize package [] extended inherited path =
      schema.normalize package [] map inherited path := by
    rw [normalize_without_names (Value.isMap_of_held? hprofiles) hlayer,
      normalize_without_names hmap (layer_of_without_profiles hmap hnone), complete_ofEntries hmap]
  refine ⟨hsame, fun key hkey hundeclared => ?_⟩
  obtain ⟨violation, hviolation, hreason⟩ :=
    complete_of_undeclared hmap hkey hundeclared inherited path
  refine ⟨violation, ?_, hreason⟩
  have hself : Layer.of .overlayProfiles map = .ok ⟨map, none⟩ :=
    layer_of_without_profiles hmap hnone
  rw [hsame, result_normalize_without_names hmap hself, hviolation]

/-- A sample schema of a lamp. -/
def sampleLamp : Schema :=
  ⟨"lamp", [⟨"shade", "colour of the shade", Range.string (.text "white"), false⟩], []⟩

/-- A lamp for which one thing is said to be true. -/
def sampleLampMap (key : String) : Value := .ofEntries [(key, .bool true)]

/-- The same lamp with a profile that says nothing. -/
def sampleLampProfiled (key : String) : Value :=
  .ofEntries [(key, .bool true), ("profiles", .ofEntries [("plain", .emptyMap)])]

theorem wellFormed_sampleLampProfiled (key : String) (hkey : key ≠ "profiles")
    (hafter : goesBefore "profiles" key = false) : (sampleLampProfiled key).WellFormed := by
  simp +decide [sampleLampProfiled, Value.wellFormed_ofEntries_iff, Value.WellFormed.bool,
    Value.wellFormed_emptyMap, Entries.ordered_cons_iff, hkey, hafter]

/-- A switch, which lamps do not have, is rejected as well if there is a profile. -/
theorem normalize_of_unnamed_sampleSwitch :
    sampleLamp.normalize (Log.Logger.root true) [] (sampleLampProfiled "switch") [] [] =
        sampleLamp.normalize (Log.Logger.root true) [] (sampleLampMap "switch") [] [] ∧
      ∃ violation, (sampleLamp.normalize (Log.Logger.root true) []
        (sampleLampProfiled "switch") [] []).result = .ok (.error violation) := by
  obtain ⟨hsame, hrejected⟩ := @normalize_of_unnamed (sampleLampMap "switch") _
    (sampleLampProfiled "switch") rfl (by decide)
    (wellFormed_sampleLampProfiled "switch" (by decide) (by decide)) rfl rfl rfl sampleLamp
    (Log.Logger.root true) [] []
  obtain ⟨violation, hviolation, -⟩ := hrejected "switch" (by decide) (by decide)
  exact ⟨hsame, violation, hviolation⟩

/-- The reserved key is rejected if there are no profiles, and is lost if there are. -/
theorem normalize_of_unnamed_sampleReserved :
    (∃ violation, (sampleLamp.normalize (Log.Logger.root true) []
      (sampleLampMap reservedKey) [] []).result = .ok (.error violation)) ∧
    ∃ out, (sampleLamp.normalize (Log.Logger.root true) []
      (sampleLampProfiled reservedKey) [] []).result = .ok (.ok out) :=
  ⟨⟨_, rfl⟩, _, rfl⟩

/-! ## Profiles without content -/

theorem fits_of_empty {content : Value} (schema : Schema) (hempty : content.entries? = some []) :
    schema.Fits content := by
  refine (fits_iff schema content).2 ⟨Value.isMap_of_entries? hempty, ?_⟩
  rw [Value.entriesOrEmpty_of_entries? hempty]
  exact ⟨fun _ hkey => absurd hkey List.not_mem_nil, fun node _ => node.schema.fits_emptyMap⟩

/-- With one profile named, what is completed is the overlay of its content over the base. -/
theorem result_normalize_of_name (hmap : map.isMap = true) {base content : Value}
    {available : Entries Value}
    (hlayer : Layer.of .overlayProfiles map = .ok ⟨base, some available⟩) {name : String}
    (hcontent : Entries.get? available name = some content) (package : Log.Logger)
    (inherited : Entries Value) (path : Path) :
    (schema.normalize package [name] map inherited path).result =
      (schema.overlay [] base content).map fun out =>
        schema.complete inherited path (.ofEntries out) := by
  have hselected : selectProfiles available [name] = .ok [content] := by
    rw [selectProfiles, hcontent]
    rfl
  rw [result_normalize hmap, result_overlayProfiles hlayer hselected, overlayAll,
    List.foldlM_cons]
  cases schema.overlay [] base content <;> rfl

/-- **A profile without content** makes no difference to a map that fits the schema. It is answered
the same map or the same violation, with the profile and without. A map that does not fit is
rejected without the profile, and cannot be overlaid with it. -/
theorem normalize_of_emptyProfile (hp : schema.Proper) (hmap : map.WellFormed)
    (hreserved : reservedKey ∉ Entries.keys map.entriesOrEmpty)
    (hprofiles : map.held? [] profilesKey = some profiles) (hprofilesMap : profiles.isMap = true)
    (name : String) {content : Value} (hcontent : profiles.held? [] name = some content)
    (hempty : content.entries? = some []) (package : Log.Logger) (inherited : Entries Value)
    (path : Path) :
    (schema.Fits (.ofEntries (map.entriesOrEmpty.without profilesKey)) → ∃ outcome,
      (schema.normalize package [name] map inherited path).result = .ok outcome ∧
      (schema.normalize package [] map inherited path).result = .ok outcome) ∧
    (¬schema.Fits (.ofEntries (map.entriesOrEmpty.without profilesKey)) →
      (∃ fault, (schema.normalize package [name] map inherited path).result = .error fault ∧
        (fault.code = .unknownSchemaKey ∨ fault.code = .notAMap)) ∧
      ∃ violation,
        (schema.normalize package [] map inherited path).result = .ok (.error violation)) := by
  have hself : map.isMap = true := Value.isMap_of_held? hprofiles
  have hwell : content.WellFormed := (hmap.get? hprofiles).get? hcontent
  have hbase : (Value.ofEntries (map.entriesOrEmpty.without profilesKey)).WellFormed :=
    Entries.wellFormed_without (Value.wellFormed_ofEntries_iff.2 hmap.entriesOrEmpty) profilesKey
  have hentries : content.entriesOrEmpty = [] := Value.entriesOrEmpty_of_entries? hempty
  have hlayer := layer_of_profiles_without .overlayProfiles hmap
    (fun hmem => hreserved (Entries.mem_keys_of_mem_keys_without hmem)) hprofiles hprofilesMap
  rw [result_normalize_without_names hself hlayer, result_normalize_of_name hself hlayer hcontent]
  constructor
  · intro hfits
    obtain ⟨out, hout⟩ := (overlay_exists_iff hp).2 ⟨hfits, schema.fits_of_empty hempty⟩
    refine ⟨_, ?_, rfl⟩
    rw [hout]
    exact congrArg Except.ok (complete_overlay_empty hp hbase hwell hentries hout inherited path)
  · intro hfits
    obtain ⟨fault, hfault, hcode⟩ := overlay_of_not_fits hp hfits [] content
    obtain ⟨violation, hviolation⟩ := complete_of_not_fits hp hbase rfl hfits inherited path
    refine ⟨⟨fault, ?_, hcode⟩, violation, congrArg Except.ok hviolation⟩
    rw [hfault]
    rfl

/-- A lamp whose shade is no colour is rejected for that, with the profile and without. A lamp with
a switch cannot be overlaid. -/
theorem normalize_of_emptyProfile_sampleShade :
    (∃ violation, (sampleLamp.normalize (Log.Logger.root true) ["plain"]
        (sampleLampProfiled "shade") [] []).result = .ok (.error violation) ∧
      (sampleLamp.normalize (Log.Logger.root true) []
        (sampleLampProfiled "shade") [] []).result = .ok (.error violation)) ∧
    ∃ fault, (sampleLamp.normalize (Log.Logger.root true) ["plain"]
      (sampleLampProfiled "switch") [] []).result = .error fault := by
  have hlamp : sampleLamp.Proper := by decide
  constructor
  · have hfits : sampleLamp.Fits (sampleLampMap "shade") :=
      ((@overlay_exists_iff sampleLamp [] (sampleLampMap "shade") .emptyMap hlamp).1 ⟨_, rfl⟩).1
    obtain ⟨outcome, hwith, hwithout⟩ :=
      (normalize_of_emptyProfile hlamp
        (wellFormed_sampleLampProfiled "shade" (by decide) (by decide)) (by decide) rfl rfl
        "plain" rfl rfl (Log.Logger.root true) [] []).1 hfits
    obtain rfl : outcome = .error _ := (Except.ok.inj hwithout).symm
    exact ⟨_, hwith, hwithout⟩
  · have hfits : ¬sampleLamp.Fits (sampleLampMap "switch") := by
      intro hfits
      have hkey : "switch" ∈ sampleLamp.keys := ((fits_iff _ _).1 hfits).2.1 "switch" (by decide)
      exact absurd hkey (by decide)
    obtain ⟨⟨fault, hfault, -⟩, -⟩ :=
      (normalize_of_emptyProfile hlamp
        (wellFormed_sampleLampProfiled "switch" (by decide) (by decide)) (by decide) rfl rfl
        "plain" rfl rfl (Log.Logger.root true) [] []).2 hfits
    exact ⟨fault, hfault⟩

/-- A lamp with a switch is rejected, but a fault if the profile is asked for. -/
theorem normalize_of_emptyProfile_sampleSwitch :
    (∃ violation, (sampleLamp.normalize (Log.Logger.root true) []
      (sampleLampProfiled "switch") [] []).result = .ok (.error violation)) ∧
    ∃ fault, (sampleLamp.normalize (Log.Logger.root true) ["plain"]
      (sampleLampProfiled "switch") [] []).result = .error fault ∧
        fault.code = .unknownSchemaKey :=
  ⟨⟨_, rfl⟩, _, rfl, rfl⟩

end Schema

end LayeredConfig
