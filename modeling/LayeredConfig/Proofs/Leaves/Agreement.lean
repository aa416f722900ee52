import LayeredConfig.Proofs.Leaves.Mirrors

/-!
# Leaves and completed maps agree

The leaves of a schema are read off the raw map, while completing builds a new one. Where
inheritance fits, and no inheriting setting is given an explicit nil, both come to the same: the
leaves are what the completed map stores at the declared settings, in document order
(`Schema.fold_eq_stored`). This takes in the settings and the whole sections that are inherited.

- `settingLeaves_of_levelDone`, `sectionLeaves_of_levelDone`: the leaves of one level are what the
  completed level stores.
- `Schema.leavesShow_of_complete`: the induction over the schema, for a level that inherits on both
  sides what `Mirrors` relates.
-/

namespace LayeredConfig

section Levels

variable {schema : Schema} {inherited given : Entries Value} {bequests scope : Bequests}
  {path : Path} {filled : List (String × Value)} {progress : SectionProgress}

/-- What is found by walking the given sections below the settings of a level. -/
def Schema.walked (schema : Schema) (bequests : Bequests) (given : Entries Value) :
    SectionBequests :=
  sectionBequests schema.sectionVisits (settingBequests schema.settingVisits bequests given) given

/-- A key that is not given is not present, and is inherited as the level itself inherits it. -/
theorem Schema.walked_of_get?_eq_none (schema : Schema) (bequests : Bequests) {key : String}
    (h : Entries.get? given key = none) :
    Entries.get? (schema.walked bequests given).present key = none ∧
      Entries.get? (schema.walked bequests given).inherited key = Entries.get? bequests key := by
  obtain ⟨hpresent, hinherited⟩ := sectionBequests_of_get?_eq_none h
  exact ⟨hpresent, hinherited.trans (get?_settingBequests_of_get?_eq_none h)⟩

/-! ## Settings -/

/-- A setting shows its outcome as its only leaf. -/
theorem leaves_of_setting (hplain : schema.HasPlainSettings)
    (h : Mirrors schema.nested inherited bequests) {s : Setting} (hs : s ∈ schema.settings)
    (hscope : Entries.get? given s.key = none →
      Entries.get? scope s.key = Entries.get? bequests s.key)
    {w : Value} (hw : s.outcome inherited given path = .ok w) (path' : Path) :
    s.range.leaves path' (rawSetting given scope s.key) = .ok [⟨s.range, path', w⟩] := by
  have hself : schema ∈ schema.nested := schema.self_mem_nested
  have hsplain : s.range.IsPlain := hplain schema hself s hs
  suffices hcomplete : s.range.complete path' (rawSetting given scope s.key) = .ok w from
    hsplain.leaves_eq hcomplete
  unfold rawSetting
  cases hgiven : Entries.get? given s.key with
  | some x =>
    rw [Setting.outcome_of_given hgiven] at hw
    exact hsplain.complete_at hw path'
  | none =>
    rw [hscope hgiven]
    cases hb : Entries.get? bequests s.key with
    | some b =>
      -- the raw value is inherited, and was accepted where it was given
      obtain ⟨hget, haccept⟩ := h.setting schema hself s hs b hb
      rw [Setting.outcome_of_inherited hgiven hget] at hw
      cases hw
      exact haccept path'
    | none =>
      have hget : Entries.get? inherited s.key = none :=
        h.absent schema hself s.key (Schema.mem_keys_of_setting hs) hb
      rw [Setting.outcome_of_absent hgiven hget] at hw
      exact hsplain.complete_at hw path'

/-- The leaves of the settings are what the completed level stores under their keys. -/
theorem settingLeaves_of_levelDone (hp : schema.Proper) (hplain : schema.HasPlainSettings)
    (h : Mirrors schema.nested inherited bequests)
    (hdone : schema.LevelDone inherited path given filled progress) (path' : Path) :
    ∃ leaves,
      settingLeaves given (schema.walked bequests given).inherited path' schema.settingVisits =
          .ok leaves ∧
        leaves.map Leaf.view = schema.settings.map fun s =>
          (path'.entry s.key, Entries.get? (Entries.rebuild filled) s.key) := by
  rw [List.map_eq_flatMap]
  refine settingLeaves_shows fun s hs => ?_
  obtain ⟨w, hw, hget⟩ := hdone.setting s hs
  have hscope : Entries.get? given s.key = none →
      Entries.get? (schema.walked bequests given).inherited s.key =
        Entries.get? bequests s.key :=
    fun hx => (schema.walked_of_get?_eq_none bequests hx).2
  refine ⟨[⟨s.range, path'.entry s.key, w⟩], ?_, ?_⟩
  · rw [Setting.run_visit, Setting.key_visit]
    exact leaves_of_setting hplain h hs hscope hw _
  · rw [Schema.get?_rebuild_of_mem_keys hp hdone (Schema.mem_keys_of_setting hs), hget]
    rfl

/-! ## Sections -/

/-- A section has a completed map that is shown by the leaves of the raw map it is read from. -/
theorem leavesShow_of_section (hp : schema.Proper) (hn : (Entries.keys given).Nodup)
    (hprogress : givenSections schema.sectionSlots path (schema.handedDown inherited given) given =
      .ok progress)
    (h : Mirrors schema.nested inherited bequests) {node : Section} (hnode : node ∈ schema.sections)
    (hgiven : ∀ x, Entries.get? given node.key = some x →
      ∃ es b, Entries.get? progress.done node.key = some (.ofEntries es) ∧
        Entries.get? (schema.walked bequests given).present node.key = some b ∧
        b.Shows node.schema es)
    (habsent : ∀ es, node.schema.complete progress.inherited (path.entry node.key) .emptyMap =
      .ok es → node.schema.LeavesShow (schema.walked bequests given).inherited .emptyMap es)
    {w : Value} (hw : slotValue progress.done progress.inherited
      (absentSection path progress.inherited) node.slot = .ok w) :
    ∃ es, w = .ofEntries es ∧
      (rawSection (schema.walked bequests given).present
        (schema.walked bequests given).inherited node.key).Shows node.schema es := by
  have hself : schema ∈ schema.nested := schema.self_mem_nested
  have hdeclared : node.key ∈ schema.keys := Schema.mem_keys_of_section hnode
  have hkey : node.key ≠ reservedKey := hp.ne_reservedKey hself hdeclared
  unfold slotValue at hw
  rw [Section.key_slot] at hw
  unfold rawSection
  cases hx : Entries.get? given node.key with
  | some x =>
    obtain ⟨es, b, hdone, hpresent, hshow⟩ := hgiven x hx
    rw [hdone] at hw
    cases hw
    rw [hpresent]
    exact ⟨es, rfl, hshow⟩
  | none =>
    -- what is inherited under a key that is not given is what the level itself inherits
    have hE : Entries.get? progress.inherited node.key = Entries.get? inherited node.key := by
      rw [get?_inherited_of_get?_eq_none hprogress hkey hx]
      exact get?_handDown_of_get?_eq_none hkey hn hx
    obtain ⟨hpresent, hB⟩ := schema.walked_of_get?_eq_none bequests hx
    rw [givenSections_of_get?_eq_none hprogress hx, Option.none_or, hE] at hw
    rw [hpresent, Option.none_or, hB]
    cases hb : Entries.get? bequests node.key with
    | some b =>
      obtain ⟨es, hes, hshow⟩ := h.nested schema hself node hnode b hb
      rw [hes] at hw
      cases hw
      exact ⟨es, rfl, hshow⟩
    | none =>
      rw [h.absent schema hself node.key hdeclared hb] at hw
      obtain ⟨es, hes, rfl⟩ := map_eq_ok_iff.1 hw
      rw [Section.key_slot, Section.run_slot] at hes
      exact ⟨es, rfl, habsent es hes⟩

/-- The leaves of the sections are what their completed maps store. -/
theorem sectionLeaves_of_levelDone (bequests : Bequests) (hp : schema.Proper)
    (hdone : schema.LevelDone inherited path given filled progress)
    (hshow : ∀ node ∈ schema.sections, ∀ w, slotValue progress.done progress.inherited
      (absentSection path progress.inherited) node.slot = .ok w →
        ∃ es, w = .ofEntries es ∧
          (rawSection (schema.walked bequests given).present
            (schema.walked bequests given).inherited node.key).Shows node.schema es)
    (path' : Path) :
    ∃ leaves,
      sectionLeaves (schema.walked bequests given).present
          (schema.walked bequests given).inherited path' schema.sectionVisits = .ok leaves ∧
        leaves.map Leaf.view = schema.sections.flatMap fun node =>
          node.schema.stored (path'.entry node.key)
            (Entries.read (Entries.rebuild filled) node.key).entriesOrEmpty := by
  refine sectionLeaves_shows fun node hnode => ?_
  obtain ⟨w, hw, hget⟩ := hdone.nested node hnode
  obtain ⟨es, rfl, hes⟩ := hshow node hnode w hw
  obtain ⟨leaves, hleaves, hview⟩ := hes (path'.entry node.key)
  have hstored : Entries.get? (Entries.rebuild filled) node.key = some (.ofEntries es) := by
    rw [Schema.get?_rebuild_of_mem_keys hp hdone (Schema.mem_keys_of_section hnode), hget]
  refine ⟨leaves, ?_, ?_⟩
  · rw [Section.run_visit, Section.key_visit]
    exact hleaves
  · rw [hview, Entries.read_of_get? hstored, Value.entriesOrEmpty_ofEntries]

/-! ## Schemas -/

/-- **The leaves of a raw map show its completed map,** if what is inherited on both sides does. -/
theorem Schema.leavesShow_of_complete (hp : schema.Proper) (hc : schema.InheritanceConsistent)
    (hplain : schema.HasPlainSettings) {v : Value} (hv : v.WellFormed) (hnil : schema.GivesNoNil v)
    (h : Mirrors schema.nested inherited bequests) {out : Entries Value}
    (hw : schema.complete inherited path v = .ok out) : schema.LeavesShow bequests v out := by
  induction schema using Schema.induction generalizing inherited bequests path v out with
  | step schema ih =>
    obtain ⟨-, filled, progress, rfl, hdone⟩ := Schema.levelDone_of_complete hp hv.nodup hw
    -- below the settings of the level both sides inherit alike
    have hdown : Mirrors schema.enclosed (schema.handedDown inherited v.entriesOrEmpty)
        (settingBequests schema.settingVisits bequests v.entriesOrEmpty) := by
      refine mirrors_handedDown hp hc hplain hv.nodup ?_
        (h.mono fun _ => Schema.mem_nested_of_mem_enclosed)
      intro s hs hinherit x hx
      obtain ⟨w, hw, -⟩ := hdone.setting s hs
      rw [Setting.outcome_of_given hx] at hw
      exact ⟨hnil.setting hs hinherit hx, _, w, hw⟩
    have hbelow : ∀ node ∈ schema.sections, ∀ {x scope bequests path es}, x.WellFormed →
        node.schema.GivesNoNil x → Mirrors schema.enclosed scope bequests →
        node.schema.complete scope path x = .ok es → node.schema.LeavesShow bequests x es := by
      intro node hnode x scope bequests path es hx hxnil hmirrors hes
      exact ih node hnode (hp.section hnode) (hc.section hnode) (hplain.section hnode) hx hxnil
        (hmirrors.mono fun inner hinner => Schema.mem_enclosed_iff.2 ⟨node, hnode, hinner⟩) hes
    -- and so they do after the given sections
    have hsections : ∀ node ∈ schema.sections, ∀ x, (node.key, x) ∈ v.entriesOrEmpty →
        ∀ {scope bequests path es}, Mirrors schema.enclosed scope bequests →
          node.schema.complete scope path x = .ok es → node.schema.LeavesShow bequests x es := by
      intro node hnode x hx scope bequests path es hmirrors hes
      have hget : Entries.get? v.entriesOrEmpty node.key = some x :=
        (Entries.get?_eq_some_iff_mem hv.nodup).2 hx
      exact hbelow node hnode (hv.get? hget) (hnil.section hnode hget) hmirrors hes
    obtain ⟨hlast, hgiven⟩ := mirrors_sections hp hc hdone.walked hsections hdown
    intro path'
    obtain ⟨ofSettings, hofSettings, hviewSettings⟩ :=
      settingLeaves_of_levelDone hp hplain h hdone path'
    obtain ⟨ofSections, hofSections, hviewSections⟩ :=
      sectionLeaves_of_levelDone bequests hp hdone (by
        intro node hnode w hw
        exact leavesShow_of_section hp hv.nodup hdone.walked h hnode (hgiven node hnode)
          (fun es hes => hbelow node hnode Value.wellFormed_emptyMap
            (Schema.givesNoNil_emptyMap _) hlast hes) hw) path'
    refine ⟨ofSettings ++ ofSections, ?_, ?_⟩
    · rw [Schema.leaves_eq]
      exact bind_eq_ok_iff.2
        ⟨ofSettings, hofSettings, bind_eq_ok_iff.2 ⟨ofSections, hofSections, rfl⟩⟩
    · rw [List.map_append, hviewSettings, hviewSections, Schema.stored_eq]

end Levels

/-! ## Folding a configuration map -/

/-- Appends a leaf to those seen so far. -/
def collectLeaf (_ : Range) (path : Path) (seen : List (Path × Value)) (v : Value) :
    List (Path × Value) := seen ++ [(path, v)]

theorem foldl_collectLeaf (leaves : List Leaf) (seen : List (Path × Value)) :
    leaves.foldl (fun acc leaf => collectLeaf leaf.range leaf.path acc leaf.value) seen =
      seen ++ leaves.map fun leaf => (leaf.path, leaf.value) := by
  induction leaves generalizing seen with
  | nil => simp
  | cons leaf rest ih =>
    rw [List.foldl_cons, ih, collectLeaf, List.append_assoc]
    rfl

/-- **Folding agrees with completing.** Where inheritance fits and no inheriting setting is given an
explicit nil, folding over an accepted map succeeds. It visits every declared setting once, in
document order, and finds there what the completed map stores. -/
theorem Schema.fold_eq_stored {schema : Schema} {map out : Value} (hp : schema.Proper)
    (hc : schema.InheritanceConsistent) (hplain : schema.HasPlainSettings)
    (hmap : map.WellFormed) (hnil : schema.GivesNoNil map)
    (h : (Range.schema schema).complete [] map = .ok out) :
    schema.settingPaths.Nodup ∧
      ∃ leaves, schema.fold collectLeaf [] map = .ok leaves ∧
        leaves.map (fun leaf => (leaf.1, some leaf.2)) =
          schema.declaredSettings.map fun d =>
            (Path.ofKeys (d.1 ++ [d.2.key]), out.held? d.1 d.2.key) := by
  refine ⟨schema.nodup_settingPaths hp, ?_⟩
  have hcheck : completeForFold (.schema schema) [] map = .ok out := mapError_eq_ok_iff.2 h
  obtain ⟨es, hes, rfl⟩ := map_eq_ok_iff.1 h
  obtain ⟨leaves, hleaves, hview⟩ := Schema.leavesShow_of_complete hp hc hplain hmap hnil
    (mirrors_nil schema.nested) hes []
  have hrange : (Range.schema schema).leaves [] map = .ok leaves :=
    bind_eq_ok_iff.2 ⟨_, hcheck, hleaves⟩
  refine ⟨leaves.map fun leaf => (leaf.path, leaf.value), ?_, ?_⟩
  · rw [Schema.fold, Range.fold, hrange]
    exact congrArg Except.ok (foldl_collectLeaf leaves [])
  · rw [List.map_map]
    exact hview

/-- The limits of a sample service. -/
def sampleLimits : Schema :=
  ⟨"limits", [⟨"mode", "how strict", Range.string (.text "strict"), false⟩], []⟩

/-- The worker of a sample service. -/
def sampleWorker : Schema :=
  ⟨"worker", [⟨"level", "log level", Range.string (.text "info"), false⟩],
    [⟨"limits", sampleLimits, false⟩]⟩

/-- A sample service that hands its log level and its limits down to its worker. -/
def sampleService : Schema :=
  ⟨"service", [⟨"level", "log level", Range.string (.text "info"), true⟩],
    [⟨"limits", sampleLimits, true⟩, ⟨"worker", sampleWorker, false⟩]⟩

/-- Level and limits are given for the service alone. -/
def sampleServiceMap : Value :=
  .ofEntries [("level", .text "debug"), ("limits", .ofEntries [("mode", .text "lax")])]

/-- The worker of the sample service shows the level and the limits that it inherits. -/
theorem fold_sampleService :
    ∃ leaves, sampleService.fold collectLeaf [] sampleServiceMap = .ok leaves ∧
      leaves.map (fun leaf => (leaf.1, some leaf.2)) =
        [(Path.ofKeys ["level"], some (.text "debug")),
          (Path.ofKeys ["limits", "mode"], some (.text "lax")),
          (Path.ofKeys ["worker", "level"], some (.text "debug")),
          (Path.ofKeys ["worker", "limits", "mode"], some (.text "lax"))] := by
  have hconsistent : sampleService.InheritanceConsistent := by
    refine ⟨⟨?_, ?_⟩, ?_⟩ <;>
      simp [sampleService, sampleWorker, sampleLimits, Schema.enclosed, Schema.nested,
        Section.allNested, forall_and]
  have hplain : sampleService.HasPlainSettings := by
    simp [Schema.HasPlainSettings, sampleService, sampleWorker, sampleLimits, Schema.nested,
      Section.allNested, Range.string, Range.IsPlain]
  have hmap : sampleServiceMap.WellFormed := by
    simp +decide [sampleServiceMap, Value.wellFormed_ofEntries_iff, Value.WellFormed.text]
  exact (Schema.fold_eq_stored (by decide) hconsistent hplain hmap (by decide) rfl).2

end LayeredConfig
