import LayeredConfig.Proofs.Merging.IdleProfiles

/-!
# Profiles that are named

Applying profiles and merging raw maps are written one apart from the other. The former takes the
map apart once, finds all contents and lays them over the base. The latter takes both maps apart at
every step, and puts base and profiles together again. That they agree is
`Schema.overlayProfiles_eq_merge`.

- `Schema.selectProfiles_of_undefined`: one name that is not defined is enough to end in a fault,
  which names the first such name. Contents are not looked at by then.
- `Schema.mergePair_of_unprofiled`: two maps without profiles are merged by laying one over the
  other.
- `Schema.overlayAll_of_unprofiled`: so are any number of maps, since no profiles arise on the way.
  The schema may declare a setting or section under the key of the profiles; it is never given.
-/

namespace LayeredConfig

namespace Schema

variable {schema : Schema} {map lower upper : Value}

/-! ## Finding the contents -/

/-- The first name that is not defined is the one that is reported. -/
theorem selectProfiles_of_undefined {available : Entries Value} {names : List String}
    {name : String}
    (h : names.find? (fun name => (Entries.get? available name).isNone) = some name) :
    selectProfiles available names = .error (.missingProfile name (Entries.keys available)) := by
  induction names with
  | nil => cases h
  | cons first rest ih =>
    rw [List.find?_cons] at h
    rw [selectProfiles]
    cases hfirst : Entries.get? available first with
    | none =>
      rw [hfirst] at h
      cases h
      rfl
    | some content =>
      rw [hfirst] at h
      exact map_eq_error_iff.2 (ih h)

/-- Contents are found iff all names are defined. -/
theorem selectProfiles_exists_iff {available : Entries Value} {names : List String} :
    (∃ contents, selectProfiles available names = .ok contents) ↔
      (names.all fun name => (Entries.get? available name).isSome) = true := by
  rw [List.all_eq_true]
  constructor
  · rintro ⟨contents, hcontents⟩ name hname
    cases hfind : names.find? fun name => (Entries.get? available name).isNone with
    | none =>
      rw [List.find?_eq_none] at hfind
      have hdefined : ¬(Entries.get? available name).isNone = true := hfind name hname
      rwa [Bool.not_eq_true, Option.isNone_eq_false_iff] at hdefined
    | some undefined =>
      rw [selectProfiles_of_undefined hfind] at hcontents
      cases hcontents
  · intro hall
    exact selectProfiles_exists fun name hname => Option.isSome_iff_exists.1 (hall name hname)

theorem selectProfiles_of_defined {available : Entries Value} {names : List String}
    {contents : List Value} (h : names.map (Entries.get? available) = contents.map some) :
    selectProfiles available names = .ok contents := by
  induction names generalizing contents with
  | nil =>
    cases contents with
    | nil => rfl
    | cons content rest => cases h
  | cons name names ih =>
    cases contents with
    | nil => cases h
    | cons content rest =>
      obtain ⟨hname, hrest⟩ := List.cons.inj h
      rw [selectProfiles, hname]
      exact map_eq_ok_iff.2 ⟨rest, ih hrest, rfl⟩

/-- Once a map is taken apart, its profiles are what it holds under their key. -/
theorem available_of_layer {operation : Operation} {layer : Layer}
    (h : Layer.of operation map = .ok layer) :
    layer.profiles.getD [] = map.within [profilesKey] := by
  rw [Value.within_cons, Entries.read]
  rcases Layer.cases_of_eq_ok h with ⟨hnone, rfl⟩ | ⟨profiles, hsome, rfl⟩
  · rw [hnone]
    rfl
  · rw [hsome]
    rfl

/-- The base of a map is the map without its profiles, if these are a map, or if there are none. -/
theorem layer_exists (operation : Operation) (hmap : map.WellFormed) (hself : map.isMap = true)
    (hreserved : reservedKey ∉ Entries.keys map.entriesOrEmpty)
    (hprofiles : ∀ profiles, map.held? [] profilesKey = some profiles → profiles.isMap = true) :
    ∃ layer, Layer.of operation map = .ok layer ∧
      layer.base.entries? = some (map.entriesOrEmpty.without profilesKey) := by
  cases hget : Entries.get? map.entriesOrEmpty profilesKey with
  | none =>
    refine ⟨⟨map, none⟩, layer_of_without_profiles hself hget, ?_⟩
    rw [Entries.without_of_not_mem (Entries.get?_eq_none_iff.1 hget)]
    obtain ⟨es, hes⟩ := Option.isSome_iff_exists.1 hself
    rw [Value.entriesOrEmpty_of_entries? hes]
    exact hes
  | some profiles =>
    exact ⟨_, layer_of_profiles_without operation hmap
      (fun hmem => hreserved (Entries.mem_keys_of_mem_keys_without hmem)) hget
      (hprofiles profiles hget), rfl⟩

/-! ## Merging maps without profiles -/

theorem isMap_of_layer {operation : Operation} {layer : Layer}
    (h : Layer.of operation map = .ok layer) : map.isMap = true := by
  obtain ⟨es, hes, -⟩ := bind_eq_ok_iff.1 h
  exact isMap_of_requireMap hes

/-- **Two maps without profiles** are merged by laying one over the other. What is no map is refused
by either operation, each in its own name. -/
theorem mergePair_of_unprofiled (hlower : lower.held? [] profilesKey = none)
    (hupper : upper.held? [] profilesKey = none) :
    (schema.mergePair lower upper).toOption = (schema.overlay [] lower upper).toOption := by
  have hmaps : lower.isMap = true → upper.isMap = true →
      schema.mergePair lower upper = schema.overlay [] lower upper := by
    intro hl hu
    unfold mergePair
    rw [layer_of_without_profiles hl hlower, layer_of_without_profiles hu hupper]
    exact bind_pure (schema.overlay [] lower upper)
  refine toOption_congr fun out => ⟨fun h => ?_, fun h => ?_⟩
  · obtain ⟨below, above, joined, hbelow, habove, -⟩ := mergePair_eq_ok_iff.1 h
    rw [← hmaps (isMap_of_layer hbelow) (isMap_of_layer habove)]
    exact h
  · obtain ⟨hl, hu⟩ := isMap_of_overlay h
    rw [hmaps hl hu]
    exact h

/-- **Any number of maps without profiles.** Laying them over a base comes to what merging them into
it comes to, in the same order. -/
theorem overlayAll_of_unprofiled (hp : schema.Proper) {below : Entries Value}
    {contents : List Value} (hbelow : (Value.ofEntries below).WellFormed)
    (hstripped : profilesKey ∉ Entries.keys below)
    (hcontents : ∀ content ∈ contents,
      content.WellFormed ∧ content.held? [] profilesKey = none) :
    (schema.overlayAll (.ofEntries below) contents).toOption =
      (contents.foldlM (fun merged next => schema.mergePair (.ofEntries merged) next)
        below).toOption.map .ofEntries := by
  unfold overlayAll
  induction contents generalizing below with
  | nil => rfl
  | cons content rest ih =>
    obtain ⟨hwell, hunprofiled⟩ := hcontents content List.mem_cons_self
    have hstep : (schema.mergePair (.ofEntries below) content).toOption =
        (schema.overlay [] (.ofEntries below) content).toOption :=
      mergePair_of_unprofiled (Entries.get?_eq_none_iff.2 hstripped) hunprofiled
    rw [List.foldlM_cons, List.foldlM_cons]
    cases hlaid : schema.overlay [] (.ofEntries below) content with
    | error fault =>
      rw [hlaid] at hstep
      cases hmerged : schema.mergePair (.ofEntries below) content with
      | error fault' => rfl
      | ok out =>
        rw [hmerged] at hstep
        cases hstep
    | ok out =>
      rw [hlaid] at hstep
      cases hmerged : schema.mergePair (.ofEntries below) content with
      | error fault =>
        rw [hmerged] at hstep
        cases hstep
      | ok merged =>
        rw [hmerged] at hstep
        cases hstep
        -- neither of the two maps has profiles, so what they come to has none
        have hout : profilesKey ∉ Entries.keys out := by
          rw [mem_keys_overlay_iff hp hbelow hwell hlaid, not_or]
          exact ⟨hstripped, Entries.get?_eq_none_iff.1 hunprofiled⟩
        exact ih (overlay_wellFormed hp hbelow hwell hlaid) hout
          fun c hc => hcontents c (List.mem_cons_of_mem content hc)

/-! ## Applying profiles -/

/-- Of the base, its entries alone matter to what is laid over it. -/
theorem overlayAll_of_entries? {base : Value} {es : Entries Value} (h : base.entries? = some es)
    (first : Value) (rest : List Value) :
    schema.overlayAll base (first :: rest) = schema.overlayAll (.ofEntries es) (first :: rest) := by
  have hsame : schema.overlay [] base first = schema.overlay [] (.ofEntries es) first := by
    rw [overlay_eq, overlayLevel, overlayLevel, requireMap, h]
    rfl
  rw [overlayAll, overlayAll, List.foldlM_cons, List.foldlM_cons, hsame]

/-- **Applying profiles is merging.** For a map whose profiles, if it has any, are a map:

1. If a name is not defined, this is a fault which names the first such name.
2. If there are names, all of them are defined and no content has profiles of its own, then applying
   the profiles and merging their contents over the base, in the order of the names, both fail or
   both come to the same map, order of keys included.
3. If there are no names, the base is left. -/
theorem overlayProfiles_eq_merge (hp : schema.Proper) (hmap : map.WellFormed)
    (hself : map.isMap = true) (hreserved : reservedKey ∉ Entries.keys map.entriesOrEmpty)
    (hprofiles : ∀ profiles, map.held? [] profilesKey = some profiles → profiles.isMap = true)
    (package : Log.Logger) (names : List String) :
    (∀ name, names.find? (fun name => (map.held? [profilesKey] name).isNone) = some name →
      (schema.overlayProfiles package map names).result =
        .error (.missingProfile name (Entries.keys (map.within [profilesKey])))) ∧
    (∀ first rest, names.map (map.held? [profilesKey]) = (first :: rest).map some →
      (∀ content ∈ first :: rest, content.held? [] profilesKey = none) →
      (schema.overlayProfiles package map names).result.toOption =
        (schema.mergeLayers (.ofEntries (map.entriesOrEmpty.without profilesKey)) first
          rest).toOption.map .ofEntries) ∧
    (names = [] → ∃ base, (schema.overlayProfiles package map names).result = .ok base ∧
      base.entries? = some (map.entriesOrEmpty.without profilesKey)) := by
  obtain ⟨layer, hlayer, hbase⟩ := layer_exists .overlayProfiles hmap hself hreserved hprofiles
  have havailable := available_of_layer hlayer
  refine ⟨fun name hname => ?_, fun first rest hnames hcontents => ?_, ?_⟩
  · have hselect := selectProfiles_of_undefined hname
    rw [← havailable] at hselect ⊢
    rw [overlayProfiles, hlayer, Traced.result_bind]
    refine bind_eq_error_iff.2 (.inr ⟨layer, rfl, ?_⟩)
    rw [hselect]
    rfl
  · have hselect := selectProfiles_of_defined hnames
    rw [← havailable] at hselect
    have hstripped : profilesKey ∉ Entries.keys (map.entriesOrEmpty.without profilesKey) := by
      rw [← Entries.get?_eq_none_iff, Entries.get?_without, if_pos rfl]
    have hwell : (Value.ofEntries (map.entriesOrEmpty.without profilesKey)).WellFormed :=
      Entries.wellFormed_without (Value.wellFormed_ofEntries_iff.2 hmap.entriesOrEmpty) _
    have hcontentsWell : ∀ content ∈ first :: rest,
        content.WellFormed ∧ content.held? [] profilesKey = none := by
      intro content hcontent
      refine ⟨?_, hcontents content hcontent⟩
      obtain ⟨name, -, hname⟩ := List.mem_map.1 (hnames ▸ List.mem_map_of_mem hcontent)
      exact (hmap.within [profilesKey]).get? hname
    rw [result_overlayProfiles hlayer hselect, overlayAll_of_entries? hbase,
      overlayAll_of_unprofiled hp hwell hstripped hcontentsWell, List.foldlM_cons]
    rfl
  · rintro rfl
    refine ⟨layer.base, ?_, hbase⟩
    rw [result_overlayProfiles hlayer rfl]
    rfl

/-- A sample schema of a desk with a numbered drawer. -/
def sampleDesk : Schema :=
  ⟨"desk", [⟨"lamp", "the lamp", Range.string (.text "off"), false⟩],
    [⟨"2", ⟨"drawer", [⟨"holds", "what is in it", Range.string (.text "none"), false⟩], []⟩,
      false⟩]⟩

/-- A desk with two profiles. -/
def sampleDeskMap : Value :=
  .ofEntries [("lamp", .text "on"),
    ("profiles", .ofEntries [("tidy", .ofEntries [("2", .ofEntries [("holds", .text "pens")])]),
      ("work", .ofEntries [("2", .null), ("lamp", .text "bright")])])]

/-- The sample desk with its profiles applied, one of them twice; with two names that are not
defined; and with no names. -/
theorem overlayProfiles_sampleDesk :
    (sampleDesk.overlayProfiles (Log.Logger.root true) sampleDeskMap
        ["tidy", "nap", "rest"]).result = .error (.missingProfile "nap" ["tidy", "work"]) ∧
      (sampleDesk.overlayProfiles (Log.Logger.root true) sampleDeskMap
        ["tidy", "work", "tidy"]).result.toOption = some (.ofEntries
          [("2", .ofEntries [("holds", .text "pens")]), ("lamp", .text "bright")]) ∧
      ∃ base, (sampleDesk.overlayProfiles (Log.Logger.root true) sampleDeskMap []).result =
        .ok base ∧ base.entries? = some [("lamp", .text "on")] := by
  have hmap : sampleDeskMap.WellFormed := by
    simp +decide [sampleDeskMap, Value.wellFormed_ofEntries_iff, Value.WellFormed.text,
      Value.WellFormed.null]
  have hprofiles : ∀ profiles, sampleDeskMap.held? [] profilesKey = some profiles →
      profiles.isMap = true := by
    rintro profiles ⟨⟩
    rfl
  refine ⟨?_, ?_, ?_⟩
  · exact (overlayProfiles_eq_merge (by decide) hmap rfl (by decide) hprofiles _ _).1 "nap" rfl
  · refine ((overlayProfiles_eq_merge (by decide) hmap rfl (by decide) hprofiles _ _).2.1
      (.ofEntries [("2", .ofEntries [("holds", .text "pens")])])
      [.ofEntries [("2", .null), ("lamp", .text "bright")],
        .ofEntries [("2", .ofEntries [("holds", .text "pens")])]] rfl ?_).trans rfl
    simp only [List.forall_mem_cons]
    exact ⟨rfl, rfl, rfl, fun _ hcontent => absurd hcontent List.not_mem_nil⟩
  · exact (overlayProfiles_eq_merge (by decide) hmap rfl (by decide) hprofiles _ _).2.2 rfl

end Schema

end LayeredConfig
