import LayeredConfig.Proofs.Completion.Conformance
import LayeredConfig.Proofs.Completion.Settled
import LayeredConfig.Proofs.Completion.Shape
import LayeredConfig.Proofs.Configuration.Access
import LayeredConfig.Proofs.Data.Copies
import LayeredConfig.Proofs.Merging.Layers

/-!
# Configurations that are validated again

Making a configuration of the map of a configuration only copies it once more, if all settings have
standard ranges and nothing is handed down (`Configuration.make_of_made`). The copy is the same,
unless there are bare maps in it: these come of null under the reserved key, and are ordinary maps
in the next copy.

- `Schema.complete_eq_self`: a map with exactly the declared keys, in property order, is completed
  to itself as soon as its parts are.
- `Schema.complete_copy`: the copy of a completed map is such a map, at every depth. Its settings
  are kept because their values are settled (`Range.IsStandard.keeps_rebuilt`).
-/

namespace LayeredConfig

namespace Schema

variable {schema : Schema} {path : Path} {v : Value} {es out : Entries Value}

/-- All settings, at every depth, have standard ranges. -/
def HasStandardSettings (schema : Schema) : Prop :=
  ∀ inner ∈ schema.nested, ∀ s ∈ inner.settings, s.range.IsStandard

theorem HasStandardSettings.section (h : schema.HasStandardSettings) {node : Section}
    (hnode : node ∈ schema.sections) : node.schema.HasStandardSettings :=
  fun inner hinner => h inner (mem_nested_of_section hnode hinner)

/-! ## Completed maps are completed to themselves -/

/-- **A map with the declared keys is completed to itself,** if its parts are. -/
theorem complete_eq_self (hp : schema.Proper) (hh : schema.HandsNothingDown)
    (hkeys : Entries.keys es = propertyOrder schema.keys)
    (hsettings : ∀ s ∈ schema.settings, ∃ w, Entries.get? es s.key = some w ∧ s.range.Keeps w)
    (hsections : ∀ node ∈ schema.sections, ∃ inner,
      Entries.get? es node.key = some (.ofEntries inner) ∧
        node.schema.complete [] (path.entry node.key) (.ofEntries inner) = .ok inner) :
    schema.complete [] path (.ofEntries es) = .ok es := by
  have hn : (Entries.keys es).Nodup := by
    rw [hkeys]
    exact nodup_propertyOrder hp.distinctKeys
  have hsetting : ∀ s ∈ schema.settings, ∃ w, Entries.get? es s.key = some w ∧
      s.outcome [] es path = .ok w := by
    intro s hs
    obtain ⟨w, hget, hkeeps⟩ := hsettings s hs
    refine ⟨w, hget, ?_⟩
    rw [outcome_of_setting, Entries.read_of_get? hget]
    exact hkeeps _
  have hsection : ∀ node ∈ schema.sections, ∃ w, Entries.get? es node.key = some w ∧
      node.outcome (schema.handedDown [] es) es path = .ok w := by
    intro node hnode
    obtain ⟨inner, hget, hinner⟩ := hsections node hnode
    refine ⟨.ofEntries inner, hget, ?_⟩
    rw [hh.outcome_of_section, Entries.read_of_get? hget, hinner]
    rfl
  have hsteady := (hh schema schema.self_mem_nested).2
  obtain ⟨out, hout⟩ : ∃ out, schema.complete [] path (.ofEntries es) = .ok out := by
    refine complete_exists hp hsteady hn (.inr rfl) (fun key hkey => ?_) (fun s hs => ?_)
      fun node hnode => ?_
    · rw [Value.entriesOrEmpty_ofEntries, hkeys, mem_propertyOrder] at hkey
      exact hkey
    · obtain ⟨w, -, hw⟩ := hsetting s hs
      exact ⟨w, hw⟩
    · obtain ⟨w, -, hw⟩ := hsection node hnode
      exact ⟨w, hw⟩
  -- what comes out has the same keys, and holds the same under each of them
  obtain ⟨-, filled, progress, rfl, hdone⟩ :=
    levelDone_of_complete (v := .ofEntries es) hp hn hout
  suffices hsame : Entries.rebuild filled = es by rw [hout, hsame]
  have hreserved : reservedKey ∉ Entries.keys filled := by
    rw [hdone.keys]
    exact hp.unreserved schema schema.self_mem_nested
  have hfilled : Entries.keys (Entries.rebuild filled) = propertyOrder schema.keys := by
    rw [Entries.keys_rebuild (hdone.nodup hp) hreserved, hdone.keys]
  refine Entries.ext_of_get? (hfilled.trans hkeys.symm) (Entries.ordered_rebuild filled).nodup ?_
  intro key hkey
  rw [hfilled, mem_propertyOrder] at hkey
  rw [get?_rebuild_of_mem_keys hp hdone hkey]
  rcases mem_keys_iff.1 hkey with ⟨s, hs, rfl⟩ | ⟨node, hnode, rfl⟩
  · obtain ⟨w, hget, hw⟩ := hsetting s hs
    obtain ⟨w', hw', hget'⟩ := hdone.setting s hs
    cases hw.symm.trans hw'
    rw [hget, hget']
  · obtain ⟨w, hget, hw⟩ := hsection node hnode
    obtain ⟨w', hw', hget'⟩ := hdone.nested_steady hp hsteady hnode
    cases hw.symm.trans hw'
    rw [hget, hget']

theorem keys_copy_of_complete (hp : schema.Proper) (hv : v.WellFormed)
    (h : schema.complete [] path v = .ok out) :
    Entries.keys out.copy = propertyOrder schema.keys := by
  rw [Entries.keys_copy (ordered_of_complete hp hv h) (reservedKey_not_mem_of_complete hp hv h),
    keys_of_complete hp hv h]

/-- A copied map holds the copies of what was completed. -/
theorem get?_copy_of_complete (hp : schema.Proper) (hv : v.WellFormed)
    (h : schema.complete [] path v = .ok out) (key : String) :
    Entries.get? out.copy key = (Entries.get? out key).map Value.copy := by
  have hcopied := Value.get?_copy (v := .ofEntries out) (nodup_of_complete hp hv h)
    (reservedKey_not_mem_of_complete hp hv h) key
  rwa [copy_of_complete hp hv h] at hcopied

/-- **The copy of a completed map is completed to itself,** at any path. -/
theorem complete_copy (hp : schema.Proper) (hh : schema.HandsNothingDown)
    (hs : schema.HasStandardSettings) (hv : v.WellFormed)
    (h : schema.complete [] path v = .ok out) (path' : Path) :
    schema.complete [] path' (.ofEntries out.copy) = .ok out.copy := by
  induction schema using Schema.induction generalizing path path' v out with
  | step schema ih =>
    obtain ⟨hsettings, hsections⟩ := hh.entries_of_complete hp hv h
    refine complete_eq_self hp hh (keys_copy_of_complete hp hv h) (fun s hs' => ?_)
      fun node hnode => ?_
    · obtain ⟨w, hw, hheld⟩ := hsettings s hs'
      refine ⟨w.copy, ?_, ?_⟩
      · rw [get?_copy_of_complete hp hv h, hheld]
        rfl
      · exact (hs schema schema.self_mem_nested s hs').keeps_rebuilt Value.rebuilds_copy hw
    · obtain ⟨inner, hinner, hheld⟩ := hsections node hnode
      refine ⟨inner.copy, ?_, ?_⟩
      · rw [get?_copy_of_complete hp hv h, hheld]
        exact congrArg some (copy_of_complete (hp.section hnode) (hv.read node.key) hinner)
      · exact ih node hnode (hp.section hnode) (hh.section hnode) (hs.section hnode)
          (hv.read node.key) hinner _

/-! ## Profiles -/

/-- Overlaid profiles leave a well-formed map. -/
theorem wellFormed_of_overlayProfiles (hp : schema.Proper) {package : Log.Logger} {map : Value}
    {names : List String} {applied : Value} (hmap : map.WellFormed)
    (h : (schema.overlayProfiles package map names).result = .ok applied) :
    applied.WellFormed := by
  obtain ⟨layer, contents, hlayer, hcontents, happlied⟩ := overlayProfiles_eq_ok_iff.1 h
  have hwell : layer.WellFormed := Layer.wellFormed_of_eq_ok hmap hlayer
  obtain rfl := selectProfiles_eq_ok hcontents
  exact (held?_overlayAll hp hwell.base (wellFormed_of_mem_filterMap hwell.profiles) happlied).1

end Schema

namespace Configuration

variable {schema : Schema} {package : Log.Logger} {names : List String} {map : Value}
  {logger : Option Log.Logger} {config : Configuration}

/-- **Validating a configuration again.** Where nothing is handed down and all settings have
standard ranges, a configuration is made of the map of every configuration, without profiles. It has
the copy of that map: the same keys in the same order, and the same values, but for bare maps that
become ordinary ones. So a configuration re-validates to itself exactly if no bare map is reached in
it, and none is reached in what it re-validates to. -/
theorem make_of_made (hp : schema.Proper) (hh : schema.HandsNothingDown)
    (hprofiles : profilesKey ∉ schema.keys) (hs : schema.HasStandardSettings)
    (hmap : map.WellFormed) (h : (make package schema names map logger).result = .ok config)
    (package' : Log.Logger) (logger' : Option Log.Logger) :
    ∃ again, (make package' schema [] (.ofEntries config.map) logger').result = .ok again ∧
      again.schema = config.schema ∧ again.map = config.map.copy ∧
      (Value.ofEntries config.map).RebuiltAs (.ofEntries again.map) ∧
      ¬(Value.ofEntries again.map).ReachesBare ∧
      (again = config ↔ ¬(Value.ofEntries config.map).ReachesBare) := by
  obtain ⟨out, hout, rfl⟩ := make_eq_ok h
  obtain ⟨-, applied, happlied, hcomplete⟩ := Schema.normalize_eq_ok_iff.1 hout
  have hwell : applied.WellFormed :=
    Schema.wellFormed_of_overlayProfiles hp hmap.orEmptyMap happlied
  have hagain : schema.complete [] [] (.ofEntries out.copy) = .ok out.copy :=
    Schema.complete_copy hp hh hs hwell hcomplete []
  -- the copied map holds no profiles, since its keys are the declared ones
  have hnone : Entries.get? out.copy profilesKey = none := by
    rw [Entries.get?_eq_none_iff, Schema.keys_copy_of_complete hp hwell hcomplete,
      mem_propertyOrder]
    exact hprofiles
  have hnormalized :
      (schema.normalize package' [] (.ofEntries out.copy) [] []).result = .ok (.ok out.copy) :=
    Schema.normalize_of_complete rfl hnone hagain
  -- the normalized map is copied once more
  have hcopied : (Value.ofEntries out.copy).IsCopy := Value.isCopy_copiedEntries out
  refine ⟨_, make_of_normalize logger' hnormalized, rfl, rfl, ?_,
    hcopied.not_reachesBare_copiedEntries, ?_⟩
  · have hrebuilt := hcopied.rebuiltAs_copy
    rwa [hcopied.copy_ofEntries] at hrebuilt
  · refine Iff.trans ?_ hcopied.copiedEntries_eq_self_iff
    exact ⟨congrArg Configuration.map, congrArg fun es => Configuration.mk es schema⟩

/-- A sample schema of a jar with a set of sizes, a label of two parts and a lid with codes. -/
def sampleJar : Schema :=
  ⟨"jar", [⟨"sizes", "sizes to fill", .set (.optional (Range.integer .null)), false⟩,
      ⟨"label", "name and maker", .tuple [Range.string (.text "none"), .any .undefined], false⟩],
    [⟨"lid", ⟨"lid", [⟨"codes", "codes by number",
        .mapOf (Range.integer .null) (.sequence .nonNil), false⟩], []⟩, false⟩]⟩

/-- A jar whose lid has a code under the negatively signed zero, with a profile for its sizes. -/
def sampleJarMap : Value :=
  .ofEntries [("lid", .ofEntries
      [("codes", .map .anonymous [(.number .negativeZero, .set .anonymous [.text "a"])])]),
    ("label", .ofList [.null]),
    ("profiles", .ofEntries
      [("small", .ofEntries [("sizes", .ofList [.number .negativeZero, .null, .undefined])])])]

/-- The sample jar has a set of zero and nothing, and re-validates to itself. -/
theorem make_of_made_sampleJar :
    ∃ config, (make (Log.Logger.root false) sampleJar ["small"] sampleJarMap none).result =
        .ok config ∧
      Entries.get? config.map "sizes" = some (.set .anonymous [.number (.finite 0), .undefined]) ∧
      (make (Log.Logger.root false) sampleJar [] (.ofEntries config.map) none).result =
        .ok config := by
  have hstandard : sampleJar.HasStandardSettings := by
    have hinteger : (Range.integer .null).IsStandard := .named .integer (.inl rfl)
    have hstring : (Range.string (.text "none")).IsStandard := .named .string (.inr ⟨_, rfl⟩)
    simp only [Schema.HasStandardSettings, sampleJar, Schema.nested, Section.allNested,
      List.append_nil, List.forall_mem_cons]
    exact ⟨⟨.set (.optional hinteger), .tuple (by simp [hstring, Range.IsStandard.any]), by simp⟩,
      ⟨.mapOf hinteger (.sequence .nonNil), by simp⟩, by simp⟩
  have hmap : sampleJarMap.WellFormed := by
    have hcode : (Value.set .anonymous [.text "a"]).WellFormed :=
      .set (List.pairwise_singleton _ _) (by simp [Value.WellFormed.text])
    have hcodes : (Value.map .anonymous
        [(.number .negativeZero, .set .anonymous [.text "a"])]).WellFormed :=
      .map (List.pairwise_singleton _ _) (by simp [Value.WellFormed.number]) (by simp [hcode])
    have hlabel : (Value.ofList [.null]).WellFormed := .list (by simp [Value.WellFormed.null])
    have hsizes : (Value.ofList [.number .negativeZero, .null, .undefined]).WellFormed :=
      .list (by simp [Value.WellFormed.number, Value.WellFormed.null, Value.WellFormed.undefined])
    simp +decide [sampleJarMap, Value.wellFormed_ofEntries_iff, hcodes, hlabel, hsizes]
  have hmade : (make (Log.Logger.root false) sampleJar ["small"] sampleJarMap none).result =
      .ok _ := rfl
  refine ⟨_, hmade, rfl, ?_⟩
  obtain ⟨again, hagain, -, -, -, -, hsame⟩ :=
    make_of_made (by decide) (by decide) (by decide) hstandard hmap hmade (Log.Logger.root false)
      none
  rw [hagain, hsame.2 (by decide)]

/-- A sample schema of a chest with room for anything. -/
def sampleChest : Schema :=
  ⟨"chest", [⟨"inside", "what is in it", .any .undefined, false⟩], []⟩

/-- In the chest there is a map that holds null under the reserved key. -/
def sampleChestMap : Value := .ofEntries [("inside", .ofEntries [(reservedKey, .null)])]

/-- There is a bare map in the sample chest, and an ordinary one once the chest is validated
again. -/
theorem make_of_made_sampleChest :
    (sampleChest.Proper ∧ sampleChest.HandsNothingDown ∧ profilesKey ∉ sampleChest.keys ∧
      sampleChest.HasStandardSettings ∧ sampleChestMap.WellFormed) ∧
    ∃ config again, (make (Log.Logger.root false) sampleChest [] sampleChestMap none).result =
        .ok config ∧
      (make (Log.Logger.root false) sampleChest [] (.ofEntries config.map) none).result =
        .ok again ∧
      Entries.get? config.map "inside" = some (.object .anonymous true []) ∧
      Entries.get? again.map "inside" = some .emptyMap ∧ again.map ≠ config.map := by
  refine ⟨⟨by decide, by decide, by decide, ?_, ?_⟩, _, _, rfl, rfl, rfl, rfl, fun h => ?_⟩
  · simp [Schema.HasStandardSettings, sampleChest, Schema.nested, Section.allNested,
      Range.IsStandard.any]
  · simp +decide [sampleChestMap, Value.wellFormed_ofEntries_iff, Value.WellFormed.null]
  · cases h

end Configuration

end LayeredConfig
