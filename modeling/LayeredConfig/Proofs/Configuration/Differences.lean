import LayeredConfig.Proofs.Configuration.Revalidation

/-!
# What two configurations differ in

`Schema.differences` goes by the schema and reads whatever it finds in the two maps: a section that
is no map counts as the empty one, a setting that is absent as undefined. It would say nothing of
keys that the schema does not declare. Nothing is missed because of that, since the map of a
configuration has exactly the declared keys, at every level, where inheritance fits in kind
(`Configuration.shaped_of_made`).

- `Schema.differences_eq_filterMap`: what is listed is read at the declared settings, one after the
  other in document order, whatever the maps are.
- `Schema.Shaped.same_copy_iff`: copies of shaped maps are structurally equal if nothing is listed.
  Both may have inherited sections, which are compared like any other.
- `Configuration.differences_of_made`: the differences of two configurations are the declared
  settings that are read differently in them.
-/

namespace LayeredConfig

/-- What comparing two values shows: nothing where they are structurally equal. -/
def Difference.of? (path : Path) (left right : Value) : Option Difference :=
  if left.same right then none else some ⟨path, left, right⟩

theorem Difference.of?_eq_none_iff {path : Path} {left right : Value} :
    Difference.of? path left right = none ↔ left.same right = true := by
  unfold Difference.of?
  split
  · exact iff_of_true rfl ‹_›
  · exact iff_of_false (fun h => nomatch h) ‹_›

theorem Difference.path_of? {path : Path} {left right : Value} {difference : Difference}
    (h : Difference.of? path left right = some difference) : difference.path = path := by
  unfold Difference.of? at h
  split at h
  · cases h
  · cases h
    rfl

/-! ## What is listed -/

theorem settingDifferences_eq (settings : List Setting) (path : Path)
    (left right : Entries Value) :
    settingDifferences settings path left right = settings.filterMap fun s =>
      Difference.of? (path.entry s.key) (Entries.read left s.key) (Entries.read right s.key) := rfl

theorem Section.differences_eq_flatMap (sections : List Section) (path : Path)
    (left right : Entries Value) :
    Section.differences sections path left right = sections.flatMap fun node =>
      node.schema.differences (path.entry node.key) (Entries.read left node.key).entriesOrEmpty
        (Entries.read right node.key).entriesOrEmpty := by
  induction sections with
  | nil => rfl
  | cons node rest ih =>
    obtain ⟨key, schema, inherit⟩ := node
    rw [Section.differences, ih]
    rfl

namespace Schema

variable {schema : Schema} {path : Path}

theorem differences_eq (schema : Schema) (path : Path) (left right : Entries Value) :
    schema.differences path left right =
      settingDifferences schema.settings path left right ++ schema.sections.flatMap fun node =>
        node.schema.differences (path.entry node.key) (Entries.read left node.key).entriesOrEmpty
          (Entries.read right node.key).entriesOrEmpty := by
  obtain ⟨description, settings, sections⟩ := schema
  rw [differences, Section.differences_eq_flatMap]

/-- **What is listed.** The two maps are read and compared at every declared setting, in document
order. -/
theorem differences_eq_filterMap (schema : Schema) (path : Path) (v w : Value) :
    schema.differences path v.entriesOrEmpty w.entriesOrEmpty =
      schema.declaredSettings.filterMap fun d =>
        Difference.of? (path ++ .ofKeys (d.1 ++ [d.2.key])) (Entries.read (v.within d.1) d.2.key)
          (Entries.read (w.within d.1) d.2.key) := by
  induction schema using Schema.induction generalizing path v w with
  | step schema ih =>
    rw [differences_eq, declaredSettings_eq, List.filterMap_append, List.filterMap_map,
      List.filterMap_flatMap, settingDifferences_eq]
    congr 1
    refine List.flatMap_congr fun node hnode => ?_
    rw [ih node hnode, List.filterMap_map]
    refine List.filterMap_congr fun d _ => ?_
    rw [Path.entry_append]
    rfl

/-- Nothing is listed where nothing differs in any setting of the level or in any section. -/
theorem differences_eq_nil_iff {left right : Entries Value} :
    schema.differences path left right = [] ↔
      (∀ s ∈ schema.settings,
        (Entries.read left s.key).same (Entries.read right s.key) = true) ∧
      ∀ node ∈ schema.sections,
        node.schema.differences (path.entry node.key) (Entries.read left node.key).entriesOrEmpty
          (Entries.read right node.key).entriesOrEmpty = [] := by
  rw [differences_eq, List.append_eq_nil_iff, List.flatMap_eq_nil_iff, settingDifferences_eq,
    List.filterMap_eq_nil_iff]
  simp only [Difference.of?_eq_none_iff]

end Schema

/-! ## Equality of maps -/

namespace Value

theorem sameEntries_iff {es fs : Entries Value} :
    sameEntries es fs = true ↔
      ∀ e ∈ es, ∃ w, Entries.get? fs e.1 = some w ∧ e.2.same w = true := by
  induction es with
  | nil => simp [sameEntries]
  | cons e rest ih =>
    obtain ⟨k, v⟩ := e
    rw [sameEntries, Bool.and_eq_true, ih, List.forall_mem_cons]
    cases Entries.get? fs k <;> simp

/-- Ordinary maps with the same keys are structurally equal if they are so under each key. -/
theorem same_ofEntries_iff {es fs : Entries Value} (hkeys : Entries.keys es = Entries.keys fs)
    (hn : (Entries.keys es).Nodup) :
    (ofEntries es).same (ofEntries fs) = true ↔
      ∀ key ∈ Entries.keys es, (Entries.read es key).same (Entries.read fs key) = true := by
  have hlength : es.length = fs.length := by
    simpa [Entries.keys] using congrArg List.length hkeys
  have hentries : (ofEntries es).same (ofEntries fs) = sameEntries es fs := by
    simp [ofEntries, same, hlength]
  rw [hentries, sameEntries_iff]
  constructor
  · intro h key hkey
    obtain ⟨v, hv⟩ := Option.isSome_iff_exists.1 (Entries.has_iff.2 hkey)
    obtain ⟨w, hw, hsame⟩ := h (key, v) (Entries.mem_of_get? hv)
    rw [Entries.read_of_get? hv, Entries.read_of_get? hw]
    exact hsame
  · intro h e he
    have hkey : e.1 ∈ Entries.keys es := List.mem_map_of_mem he
    obtain ⟨w, hw⟩ := Option.isSome_iff_exists.1 (Entries.has_iff.2 (hkeys ▸ hkey))
    have hv : Entries.get? es e.1 = some e.2 := (Entries.get?_eq_some_iff_mem hn).2 he
    have hsame := h e.1 hkey
    rw [Entries.read_of_get? hv, Entries.read_of_get? hw] at hsame
    exact ⟨w, hw, hsame⟩

end Value

namespace Schema

variable {schema : Schema} {v w : Value}

/-- What a shaped map holds under the key of a section is shaped. -/
theorem Shaped.section (h : schema.Shaped v) {node : Section} (hnode : node ∈ schema.sections) :
    node.schema.Shaped (Entries.read v.entriesOrEmpty node.key) := by
  obtain ⟨x, hx, hshaped⟩ := ((shaped_iff _ _).1 h).2.2.2 node hnode
  rw [Entries.read_of_get? hx]
  exact hshaped

/-- **Copies of shaped maps are structurally equal if nothing is listed as different.** -/
theorem Shaped.same_copy_iff (hp : schema.Proper) (hv : schema.Shaped v) (hw : schema.Shaped w)
    (path : Path) :
    v.copy.same w.copy = true ↔
      schema.differences path v.copy.entriesOrEmpty w.copy.entriesOrEmpty = [] := by
  induction schema using Schema.induction generalizing v w path with
  | step schema ih =>
    obtain ⟨-, hn, hkeysv, -⟩ := (shaped_iff _ _).1 (hv.copy hp)
    obtain ⟨-, -, hkeysw, -⟩ := (shaped_iff _ _).1 (hw.copy hp)
    have hlevel : v.copy.same w.copy = true ↔ ∀ key ∈ schema.keys,
        (Entries.read v.copy.entriesOrEmpty key).same (Entries.read w.copy.entriesOrEmpty key) =
          true := by
      have hkeys : Entries.keys v.copy.entriesOrEmpty = Entries.keys w.copy.entriesOrEmpty :=
        hkeysv.trans hkeysw.symm
      have hordinary := Value.same_ofEntries_iff hkeys hn
      rw [hkeysv, hv.copy_eq hp, hw.copy_eq hp] at hordinary
      rw [hv.copy_eq hp, hw.copy_eq hp]
      refine hordinary.trans ?_
      simp only [mem_propertyOrder, Value.entriesOrEmpty_ofEntries]
    have hsections : ∀ node ∈ schema.sections,
        (Entries.read v.copy.entriesOrEmpty node.key).same
            (Entries.read w.copy.entriesOrEmpty node.key) = true ↔
          node.schema.differences (path.entry node.key)
            (Entries.read v.copy.entriesOrEmpty node.key).entriesOrEmpty
            (Entries.read w.copy.entriesOrEmpty node.key).entriesOrEmpty = [] := by
      intro node hnode
      rw [hv.read_copy hp, hw.read_copy hp]
      exact ih node hnode (hp.section hnode) (hv.section hnode) (hw.section hnode) _
    rw [hlevel, differences_eq_nil_iff]
    constructor
    · intro h
      exact ⟨fun s hs => h _ (mem_keys_of_setting hs),
        fun node hnode => (hsections node hnode).1 (h _ (mem_keys_of_section hnode))⟩
    · rintro ⟨hsettings, hnested⟩ key hkey
      rcases mem_keys_iff.1 hkey with ⟨s, hs, rfl⟩ | ⟨node, hnode, rfl⟩
      · exact hsettings s hs
      · exact (hsections node hnode).2 (hnested node hnode)

end Schema

/-! ## Configurations -/

namespace Configuration

variable {schema : Schema} {package package' : Log.Logger} {names names' : List String}
  {map map' : Value} {logger logger' : Option Log.Logger} {a b config : Configuration}

/-- **The map of a configuration has the shape of its schema,** and is the copy of such a map. -/
theorem shaped_of_made (hp : schema.Proper) (hk : schema.InheritsInKind) (hmap : map.WellFormed)
    (h : (make package schema names map logger).result = .ok config) :
    config.schema = schema ∧ schema.Shaped (.ofEntries config.map) ∧
      ∃ v, schema.Shaped v ∧ v.copy = .ofEntries config.map := by
  obtain ⟨out, hout, rfl⟩ := make_eq_ok h
  obtain ⟨-, applied, happlied, hcomplete⟩ := Schema.normalize_eq_ok_iff.1 hout
  have hwell : applied.WellFormed :=
    Schema.wellFormed_of_overlayProfiles hp hmap.orEmptyMap happlied
  have hshaped : schema.Shaped (.ofEntries out) :=
    (Schema.inheritsShaped_nil schema).shaped hp hk hwell hcomplete
  have hcopy : (Value.ofEntries out).copy = .ofEntries out.copy :=
    Schema.copy_of_complete hp hwell hcomplete
  refine ⟨rfl, ?_, .ofEntries out, hshaped, hcopy⟩
  rw [ofNormalized, ← hcopy]
  exact hshaped.copy hp

/-- In a configuration whose map is shaped, every declared setting is read as it is held. -/
theorem access_of_shaped (hp : schema.Proper) (hschema : config.schema = schema)
    (hshaped : schema.Shaped (.ofEntries config.map)) {keys : List String} {s : Setting}
    (hd : (keys, s) ∈ schema.declaredSettings) :
    config.access s.key keys =
      .ok (Entries.read ((Value.ofEntries config.map).within keys) s.key) := by
  obtain ⟨inner, hinner, hs⟩ := (Schema.mem_declaredSettings_iff hp).1 hd
  obtain ⟨x, hx⟩ := hshaped.held?_exists hinner hs
  rw [Entries.read_of_get? hx]
  exact access_of_held (hschema ▸ hinner) (hp.under? hinner).distinctKeys hs hx

/-- What is read of two configurations at a declared setting, given with the sections around it,
where that differs. -/
def difference? (a b : Configuration) (declared : List String × Setting) : Option Difference :=
  match a.access declared.2.key declared.1, b.access declared.2.key declared.1 with
  | .ok v, .ok w => Difference.of? (.ofKeys (declared.1 ++ [declared.2.key])) v w
  | _, _ => none

theorem path_of_difference? {declared : List String × Setting} {difference : Difference}
    (h : a.difference? b declared = some difference) :
    difference.path = .ofKeys (declared.1 ++ [declared.2.key]) := by
  unfold difference? at h
  split at h
  · exact Difference.path_of? h
  · cases h

/-- **The differences of two configurations** of one schema are the declared settings that are read
differently in them, in document order. Every declared setting can be read in both, none is listed
twice, and none is listed exactly if the maps of the configurations are structurally equal. -/
theorem differences_of_made (hp : schema.Proper) (hk : schema.InheritsInKind)
    (hmap : map.WellFormed) (hmap' : map'.WellFormed)
    (ha : (make package schema names map logger).result = .ok a)
    (hb : (make package' schema names' map' logger').result = .ok b) :
    (∀ d ∈ schema.declaredSettings, (∃ v, a.access d.2.key d.1 = .ok v) ∧
      ∃ w, b.access d.2.key d.1 = .ok w) ∧
    differences schema a b = schema.declaredSettings.filterMap (a.difference? b) ∧
    ((differences schema a b).map Difference.path).Nodup ∧
    (differences schema a b = [] ↔
      (Value.ofEntries a.map).same (.ofEntries b.map) = true) := by
  obtain ⟨hschema, hshaped, v, hv, hcopy⟩ := shaped_of_made hp hk hmap ha
  obtain ⟨hschema', hshaped', w, hw, hcopy'⟩ := shaped_of_made hp hk hmap' hb
  have hlisted : differences schema a b = schema.declaredSettings.filterMap (a.difference? b) := by
    have hall := schema.differences_eq_filterMap [] (.ofEntries a.map) (.ofEntries b.map)
    rw [Value.entriesOrEmpty_ofEntries, Value.entriesOrEmpty_ofEntries] at hall
    rw [differences, hall]
    refine List.filterMap_congr fun d hd => ?_
    rw [difference?, access_of_shaped hp hschema hshaped hd,
      access_of_shaped hp hschema' hshaped' hd]
    rfl
  refine ⟨fun d hd => ⟨⟨_, access_of_shaped hp hschema hshaped hd⟩,
    _, access_of_shaped hp hschema' hshaped' hd⟩, hlisted, ?_, ?_⟩
  · rw [hlisted, List.Nodup, List.pairwise_map, List.pairwise_filterMap]
    refine (List.pairwise_map.1 (Schema.nodup_settingPaths hp)).imp ?_
    intro d d' hne x hx y hy heq
    rw [path_of_difference? hx, path_of_difference? hy] at heq
    exact hne (Path.ofKeys_injective heq)
  · have hsame := hv.same_copy_iff hp hw []
    rw [hcopy, hcopy'] at hsame
    exact hsame.symm

/-- Of two sample boards, one has a lax limit and the other a name. They differ in the name, and in
the mode of both limits, since the slot inherits its limit. -/
theorem differences_sampleBoard :
    ∃ a b, (make (Log.Logger.root false) Schema.sampleBoard []
          (.ofEntries [("9", .ofEntries [("mode", .text "lax")])]) none).result = .ok a ∧
      (make (Log.Logger.root false) Schema.sampleBoard []
          (.ofEntries [("name", .text "second")]) none).result = .ok b ∧
      differences Schema.sampleBoard a b =
        [⟨.ofKeys ["name"], .text "none", .text "second"⟩,
          ⟨.ofKeys ["10", "9", "mode"], .text "lax", .text "strict"⟩,
          ⟨.ofKeys ["9", "mode"], .text "lax", .text "strict"⟩] := by
  have ha : (make (Log.Logger.root false) Schema.sampleBoard []
      (.ofEntries [("9", .ofEntries [("mode", .text "lax")])]) none).result = .ok _ := rfl
  have hb : (make (Log.Logger.root false) Schema.sampleBoard []
      (.ofEntries [("name", .text "second")]) none).result = .ok _ := rfl
  have hkind : Schema.sampleBoard.InheritsInKind := by
    constructor <;>
      simp [Schema.sampleBoard, Schema.sampleLimit, Schema.enclosed, Schema.nested,
        Section.allNested, forall_and]
  obtain ⟨-, hlisted, -, -⟩ := differences_of_made (by decide) hkind
    (by simp +decide [Value.wellFormed_ofEntries_iff, Value.WellFormed.text])
    (by simp +decide [Value.wellFormed_ofEntries_iff, Value.WellFormed.text]) ha hb
  refine ⟨_, _, ha, hb, hlisted.trans ?_⟩
  show List.filterMap id [Difference.of? (.ofKeys ["name"]) (.text "none") (.text "second"),
    Difference.of? (.ofKeys ["10", "9", "mode"]) (.text "lax") (.text "strict"),
    Difference.of? (.ofKeys ["9", "mode"]) (.text "lax") (.text "strict")] = _
  simp [Difference.of?, Value.same]

end Configuration

end LayeredConfig
