import LayeredConfig.Proofs.Completion.Places
import LayeredConfig.Proofs.Configuration.Access
import LayeredConfig.Proofs.Merging.Layers

/-!
# Which value a setting has in the end

Files are merged, profiles are laid over the result, and what comes out is completed and copied. For
a schema in which nothing is handed down, all this comes to one rule: `given?` says which raw value
counts for a setting, and the setting is a copy of its completion
(`Configuration.access_of_merged`).
-/

namespace LayeredConfig

/-- The raw value that counts in a place: the one held by the last of the named profiles that holds
any, else the one held by the last of the files that holds any. A profile is what the last file
that has a profile of its name says it is. -/
def given? (files : List Value) (names : List String) (sections : List String) (key : String) :
    Option Value :=
  (lastHeld (names.filterMap fun name => lastHeld files [profilesKey] name) sections key).or
    (lastHeld files sections key)

variable {schema : Schema}

/-- The base of a layer is something given. -/
theorem Layer.isNil_base_of_eq_ok {operation : Operation} {map : Value} {layer : Layer}
    (h : Layer.of operation map = .ok layer) : layer.base.isNil = false := by
  obtain ⟨es, hes, -⟩ := bind_eq_ok_iff.1 h
  rcases Layer.cases_of_eq_ok h with ⟨-, rfl⟩ | ⟨profiles, -, rfl⟩
  · cases map with
    | object _ _ _ => rfl
    | _ => cases hes
  · exact Value.isNil_ofAssigned _

/-- If a layer with contents laid over its base is completed, then its base is a map. -/
theorem Schema.isMap_base_of_complete (hp : schema.Proper) {operation : Operation}
    {map applied : Value} {layer : Layer} {contents : List Value} {path : Path}
    {out : Entries Value} (hmap : map.WellFormed) (hlayer : Layer.of operation map = .ok layer)
    (happlied : schema.overlayAll layer.base contents = .ok applied)
    (h : schema.complete [] path applied = .ok out) : layer.base.isMap = true := by
  cases contents with
  | nil =>
    cases happlied
    have hbase : layer.base.WellFormed := (Layer.wellFormed_of_eq_ok hmap hlayer).base
    obtain ⟨hshape, -⟩ := levelDone_of_complete hp hbase.nodup h
    rw [Layer.isNil_base_of_eq_ok hlayer] at hshape
    exact hshape.resolve_left Bool.false_ne_true
  | cons content rest =>
    rw [overlayAll, List.foldlM_cons] at happlied
    obtain ⟨_, hlaid, -⟩ := bind_eq_ok_iff.1 happlied
    obtain ⟨es, hes, -⟩ := map_eq_ok_iff.1 hlaid
    exact (isMap_of_overlay hes).1

/-- **Precedence from end to end.** Reading a setting of a configuration that was made of merged
files, with profiles applied, gives a copy of the completion of the raw value that counts. -/
theorem Configuration.access_of_merged (hp : schema.Proper) (hh : schema.HandsNothingDown)
    (hprofiles : profilesKey ∉ schema.keys) {first second : Value} {rest : List Value}
    (hfiles : ∀ file ∈ first :: second :: rest, file.WellFormed) {merged : Entries Value}
    (hmerged : schema.mergeLayers first second rest = .ok merged) {package : Log.Logger}
    {logger : Option Log.Logger} {names : List String} {config : Configuration}
    (hconfig : (make package schema names (.ofEntries merged) logger).result = .ok config)
    {keys : List String} {inner : Schema} (hinner : schema.under? keys = some inner) {s : Setting}
    (hs : s ∈ inner.settings) :
    ∃ w, s.range.complete (Path.ofKeys (keys ++ [s.key]))
        ((given? (first :: second :: rest) names keys s.key).getD .undefined) = .ok w ∧
      config.access s.key keys = .ok w.copy := by
  obtain ⟨out, hout, rfl⟩ := make_eq_ok hconfig
  obtain ⟨-, applied, happlied, hcomplete⟩ := Schema.normalize_eq_ok_iff.1 hout
  obtain ⟨layer, contents, hlayer, hcontents, happlied⟩ :=
    Schema.overlayProfiles_eq_ok_iff.1 happlied
  -- the merged map stands for the files, and its layer is taken apart
  have hstands := Schema.standsFor_of_mergeLayers hp hprofiles hfiles hmerged
  have hsplits : layer.Splits (.ofEntries merged) :=
    Layer.splits_of_eq_ok hstands.wellFormed hlayer
      (Schema.isMap_base_of_complete hp hstands.wellFormed hlayer happlied hcomplete)
  have hselected : contents = names.filterMap fun name =>
      lastHeld (first :: second :: rest) [profilesKey] name := by
    rw [Schema.selectProfiles_eq_ok hcontents]
    refine congrArg (List.filterMap · names) (funext fun name => ?_)
    rw [hsplits.profiles, hstands.profile]
  have hcontentsWell : ∀ content ∈ contents, content.WellFormed := by
    rw [Schema.selectProfiles_eq_ok hcontents]
    intro content hcontent
    obtain ⟨name, -, hget⟩ := List.mem_filterMap.1 hcontent
    exact hsplits.profilesWellFormed.get? hget
  -- the profiles count before the files
  obtain ⟨happliedWell, hheld⟩ :=
    Schema.held?_overlayAll hp hsplits.wellFormed hcontentsWell happlied
  have hgiven : applied.held? keys s.key =
      given? (first :: second :: rest) names keys s.key := by
    rw [hheld keys inner hinner s hs, Schema.held?_base hp hprofiles hsplits hinner hs,
      hstands.setting keys inner hinner s hs, hselected]
    rfl
  obtain ⟨w, hw, hrange⟩ := hh.held?_of_complete hp happliedWell hcomplete hinner hs
  rw [hgiven] at hrange
  refine ⟨w, hrange, access_of_held hinner (hp.distinct inner (Schema.mem_nested_of_under? hinner))
    hs ?_⟩
  have hplain : (Value.ofEntries out).PlainAlong keys :=
    Schema.plainAlong_of_complete hp hh.sectionsKept happliedWell hcomplete hinner
  show (Value.ofEntries (Entries.copy out)).held? keys s.key = some w.copy
  rw [← Schema.copy_of_complete hp happliedWell hcomplete, Value.held?_copy hplain, hw]
  rfl

/-- A sample schema with a log level. -/
def sampleLog : Schema :=
  ⟨"service", [], [⟨"log",
    ⟨"log", [⟨"level", "log level", Range.string (.text "info"), false⟩], []⟩, false⟩]⟩

/-- A file with a level of its own and one in each of two profiles. -/
def sampleBaseFile : Value :=
  .ofEntries [("log", .ofEntries [("level", .text "error")]),
    ("profiles", .ofEntries [
      ("test", .ofEntries [("log", .ofEntries [("level", .text "warn")])]),
      ("dev", .ofEntries [("log", .ofEntries [("level", .text "debug")])])])]

/-- A file that replaces one of the profiles by an empty one. -/
def sampleUpperFile : Value := .ofEntries [("profiles", .ofEntries [("dev", .ofEntries [])])]

/-- The replaced profile, though named last, leaves the level to the one before it. -/
theorem access_sampleLog :
    ∃ merged config, sampleLog.mergeLayers sampleBaseFile sampleUpperFile [] = .ok merged ∧
      (Configuration.make (Log.Logger.root false) sampleLog ["test", "dev"] (.ofEntries merged)
        none).result = .ok config ∧
      config.access "level" ["log"] = .ok (.text "warn") := by
  have hfiles : ∀ file ∈ [sampleBaseFile, sampleUpperFile], file.WellFormed := by
    simp +decide [sampleBaseFile, sampleUpperFile, Value.wellFormed_ofEntries_iff,
      Value.WellFormed.text]
  obtain ⟨merged, config, hmerged, hconfig⟩ : ∃ merged config,
      sampleLog.mergeLayers sampleBaseFile sampleUpperFile [] = .ok merged ∧
      (Configuration.make (Log.Logger.root false) sampleLog ["test", "dev"] (.ofEntries merged)
        none).result = .ok config := ⟨_, _, rfl, rfl⟩
  have hplace : sampleLog.under? ["log"] =
      some ⟨"log", [⟨"level", "log level", Range.string (.text "info"), false⟩], []⟩ := rfl
  obtain ⟨w, hw, haccess⟩ := Configuration.access_of_merged (by decide) (by decide) (by decide)
    hfiles hmerged hconfig hplace List.mem_cons_self
  cases hw
  exact ⟨merged, config, hmerged, hconfig, haccess⟩

end LayeredConfig
