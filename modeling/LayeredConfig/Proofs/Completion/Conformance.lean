import LayeredConfig.Proofs.Completion.Places

/-!
# What is accepted

Which values a schema accepts, said by recursion on the schema and without a word about how they are
completed. All statements are about schemas in which nothing is handed down, at any path.

- `Schema.Conforms`: a value is nil or a map, has declared keys only, and conforms part by part.
- `Schema.complete_iff_conforms`: exactly the conforming values can be completed. The completed map
  has under each declared key the completion of what is read there, and whether a section is
  absent or explicitly nil makes no difference.
- `Schema.SameGiven`: maps that are read alike have the same completion (`SameGiven.complete`).
-/

namespace LayeredConfig

mutual

/-- The value is nil or a map; all its keys are declared; the range of every setting accepts what is
read for it; and what is read for a section conforms in turn. -/
def Schema.Conforms : Schema → Path → Value → Prop
  | ⟨_, settings, sections⟩, path, v =>
    (v.isNil = true ∨ v.isMap = true) ∧
    (∀ key ∈ Entries.keys v.entriesOrEmpty,
      (∃ s ∈ settings, s.key = key) ∨ ∃ node ∈ sections, node.key = key) ∧
    (∀ s ∈ settings, ∃ w,
      s.range.complete (path.entry s.key) (Entries.read v.entriesOrEmpty s.key) = .ok w) ∧
    Section.AllConform sections path v.entriesOrEmpty

/-- What is read for each of the sections conforms. -/
def Section.AllConform : List Section → Path → Entries Value → Prop
  | [], _, _ => True
  | ⟨key, schema, _⟩ :: rest, path, given =>
    schema.Conforms (path.entry key) (Entries.read given key) ∧ Section.AllConform rest path given

end

theorem Section.allConform_iff (sections : List Section) (path : Path) (given : Entries Value) :
    Section.AllConform sections path given ↔
      ∀ node ∈ sections,
        node.schema.Conforms (path.entry node.key) (Entries.read given node.key) := by
  induction sections with
  | nil => simp [Section.AllConform]
  | cons node rest ih =>
    obtain ⟨key, schema, inherit⟩ := node
    rw [Section.AllConform, ih, List.forall_mem_cons]

namespace Schema

theorem conforms_iff (schema : Schema) (path : Path) (v : Value) :
    schema.Conforms path v ↔
      (v.isNil = true ∨ v.isMap = true) ∧
      (∀ key ∈ Entries.keys v.entriesOrEmpty, key ∈ schema.keys) ∧
      (∀ s ∈ schema.settings, ∃ w,
        s.range.complete (path.entry s.key) (Entries.read v.entriesOrEmpty s.key) = .ok w) ∧
      ∀ node ∈ schema.sections,
        node.schema.Conforms (path.entry node.key) (Entries.read v.entriesOrEmpty node.key) := by
  simp only [mem_keys_iff]
  obtain ⟨description, settings, sections⟩ := schema
  rw [Conforms, Section.allConform_iff]

section Level

variable {schema : Schema} {given out : Entries Value} {path : Path} {v : Value}

/-- Where nothing is inherited, a section is what is read for it, completed. -/
theorem HandsNothingDown.outcome_of_section (h : schema.HandsNothingDown) (node : Section)
    (given : Entries Value) (path : Path) :
    node.outcome (schema.handedDown [] given) given path =
      (node.schema.complete [] (path.entry node.key) (Entries.read given node.key)).map
        .ofEntries := by
  rw [h.handedDown_eq]
  exact Section.outcome_of_not_inherited rfl

/-- **Exactly the conforming values can be completed.** -/
theorem complete_exists_iff_conforms (hp : schema.Proper) (hh : schema.HandsNothingDown)
    (hv : v.WellFormed) :
    (∃ out, schema.complete [] path v = .ok out) ↔ schema.Conforms path v := by
  induction schema using Schema.induction generalizing path v with
  | step schema ih =>
    have hsections : ∀ node ∈ schema.sections,
        (∃ w, node.outcome (schema.handedDown [] v.entriesOrEmpty) v.entriesOrEmpty path =
          .ok w) ↔
        node.schema.Conforms (path.entry node.key) (Entries.read v.entriesOrEmpty node.key) := by
      intro node hnode
      rw [hh.outcome_of_section,
        ← ih node hnode (hp.section hnode) (hh.section hnode) (hv.read node.key)]
      constructor
      · rintro ⟨w, hw⟩
        obtain ⟨es, hes, -⟩ := map_eq_ok_iff.1 hw
        exact ⟨es, hes⟩
      · rintro ⟨es, hes⟩
        exact ⟨.ofEntries es, map_eq_ok_iff.2 ⟨es, hes, rfl⟩⟩
    rw [complete_exists_iff hp (hh schema schema.self_mem_nested).2 hv, conforms_iff]
    simp only [outcome_of_setting]
    refine and_congr_right fun _ => and_congr_right fun _ => and_congr_right fun _ => ?_
    exact forall₂_congr hsections

/-- The entries of a completed map: under every key the completion of what is read there. -/
theorem HandsNothingDown.entries_of_complete (hh : schema.HandsNothingDown) (hp : schema.Proper)
    (hv : v.WellFormed) (h : schema.complete [] path v = .ok out) :
    (∀ s ∈ schema.settings, ∃ w,
      s.range.complete (path.entry s.key) (Entries.read v.entriesOrEmpty s.key) = .ok w ∧
        Entries.get? out s.key = some w) ∧
    ∀ node ∈ schema.sections, ∃ es,
      node.schema.complete [] (path.entry node.key) (Entries.read v.entriesOrEmpty node.key) =
          .ok es ∧
        Entries.get? out node.key = some (.ofEntries es) := by
  have hentries := hh.sectionsKept.entries_of_complete hp hv h
  simp only [outcome_of_setting, hh.handedDown_eq] at hentries
  exact hentries

/-- A completed map is known by what it holds under the declared keys. -/
theorem complete_ext (hp : schema.Proper) {v' : Value} {path' : Path} {out' : Entries Value}
    (hv : v.WellFormed) (hv' : v'.WellFormed) (h : schema.complete [] path v = .ok out)
    (h' : schema.complete [] path' v' = .ok out')
    (hsame : ∀ key ∈ schema.keys, Entries.get? out key = Entries.get? out' key) : out = out' := by
  obtain ⟨-, filled, progress, rfl, hdone⟩ := levelDone_of_complete hp hv.nodup h
  obtain ⟨-, filled', progress', rfl, hdone'⟩ := levelDone_of_complete hp hv'.nodup h'
  have hfilled : filled = filled' := by
    refine Entries.ext_of_get? (hdone.keys.trans hdone'.keys.symm) (hdone.nodup hp) ?_
    intro key hkey
    rw [hdone.keys] at hkey
    rw [← get?_rebuild_of_mem_keys hp hdone hkey, ← get?_rebuild_of_mem_keys hp hdone' hkey]
    exact hsame key hkey
  rw [hfilled]

/-! ## Maps that are read alike -/

/-- The same is read from two maps for every setting, and for every section once nothing given
counts as the empty map; and they have the same undeclared entries. -/
structure SameGiven (schema : Schema) (es es' : Entries Value) : Prop where
  setting : ∀ s ∈ schema.settings, Entries.read es s.key = Entries.read es' s.key
  nested : ∀ node ∈ schema.sections,
    (Entries.read es node.key).orEmptyMap = (Entries.read es' node.key).orEmptyMap
  undeclared : ∀ key, key ∉ schema.keys → Entries.get? es key = Entries.get? es' key

theorem SameGiven.symm {es es' : Entries Value} (h : schema.SameGiven es es') :
    schema.SameGiven es' es where
  setting s hs := (h.setting s hs).symm
  nested node hnode := (h.nested node hnode).symm
  undeclared key hkey := (h.undeclared key hkey).symm

/-- What is read alike is completed alike. -/
theorem SameGiven.complete_eq_ok {es es' : Entries Value} (h : schema.SameGiven es es')
    (hp : schema.Proper) (hh : schema.HandsNothingDown) (hes : (Value.ofEntries es).WellFormed)
    (hes' : (Value.ofEntries es').WellFormed)
    (hout : schema.complete [] path (.ofEntries es) = .ok out) :
    schema.complete [] path (.ofEntries es') = .ok out := by
  obtain ⟨hsettings, hsections⟩ := hh.entries_of_complete hp hes hout
  have hdeclared := ((conforms_iff _ _ _).1
    ((complete_exists_iff_conforms hp hh hes).1 ⟨out, hout⟩)).2.1
  have hnested : ∀ node ∈ schema.sections,
      node.schema.complete [] (path.entry node.key) (Entries.read es' node.key) =
        node.schema.complete [] (path.entry node.key) (Entries.read es node.key) := by
    intro node hnode
    rw [← complete_orEmptyMap, ← h.nested node hnode, complete_orEmptyMap]
  obtain ⟨out', hout'⟩ : ∃ out', schema.complete [] path (.ofEntries es') = .ok out' := by
    refine (complete_exists_iff hp (hh schema schema.self_mem_nested).2 hes').2
      ⟨.inr rfl, ?_, ?_, ?_⟩
    · intro key hkey
      refine Decidable.byContradiction fun hkey' => ?_
      refine Entries.get?_eq_none_iff.1 ?_ hkey
      rw [Value.entriesOrEmpty_ofEntries, ← h.undeclared key hkey']
      exact Entries.get?_eq_none_iff.2 fun hmem => hkey' (hdeclared key hmem)
    · intro s hs
      obtain ⟨w, hw, -⟩ := hsettings s hs
      refine ⟨w, ?_⟩
      rw [outcome_of_setting, Value.entriesOrEmpty_ofEntries, ← h.setting s hs]
      exact hw
    · intro node hnode
      obtain ⟨inner, hinner, -⟩ := hsections node hnode
      refine ⟨.ofEntries inner, ?_⟩
      rw [hh.outcome_of_section, Value.entriesOrEmpty_ofEntries, hnested node hnode]
      exact map_eq_ok_iff.2 ⟨inner, hinner, rfl⟩
  -- both maps are completed, and hold the same under every declared key
  obtain ⟨hsettings', hsections'⟩ := hh.entries_of_complete hp hes' hout'
  suffices hsame : out = out' from hsame ▸ hout'
  refine complete_ext hp hes hes' hout hout' fun key hkey => ?_
  rcases mem_keys_iff.1 hkey with ⟨s, hs, rfl⟩ | ⟨node, hnode, rfl⟩
  · obtain ⟨w, hw, hget⟩ := hsettings s hs
    obtain ⟨w', hw', hget'⟩ := hsettings' s hs
    rw [Value.entriesOrEmpty_ofEntries] at hw hw'
    rw [← h.setting s hs, hw] at hw'
    cases hw'
    rw [hget, hget']
  · obtain ⟨inner, hinner, hget⟩ := hsections node hnode
    obtain ⟨inner', hinner', hget'⟩ := hsections' node hnode
    rw [Value.entriesOrEmpty_ofEntries] at hinner hinner'
    rw [hnested node hnode, hinner] at hinner'
    cases hinner'
    rw [hget, hget']

/-- An explicit nil for a section is read like no entry at all. -/
theorem sameGiven_insert_nil (hd : schema.DistinctKeys) {node : Section}
    (hnode : node ∈ schema.sections) {x : Value} (hx : x.isNil = true) (es : Entries Value) :
    schema.SameGiven (Entries.insert es node.key x) (Entries.without es node.key) := by
  have hother : ∀ key, key ≠ node.key →
      Entries.get? (Entries.insert es node.key x) key =
        Entries.get? (Entries.without es node.key) key := by
    intro key hkey
    rw [Entries.get?_insert, Entries.get?_without, if_neg hkey.symm, if_neg hkey]
  constructor
  · intro s hs
    unfold Entries.read
    rw [hother s.key (hd.ne hs hnode)]
  · intro node' hnode'
    unfold Entries.read
    by_cases hkey : node'.key = node.key
    · -- one map holds a nil and the other nothing, and both count as the empty map
      rw [hkey, Entries.get?_insert, Entries.get?_without, if_pos rfl, if_pos rfl]
      show x.orEmptyMap = Value.undefined.orEmptyMap
      rw [Value.orEmptyMap_of_isNil hx]
      rfl
    · rw [hother node'.key hkey]
  · intro key hkey
    refine hother key ?_
    rintro rfl
    exact hkey (mem_keys_of_section hnode)

/-- **What a schema accepts, and what becomes of it,** if nothing is handed down. Exactly the
conforming values are completed; under each declared key the completed map holds the completion of
what is read there; and a section may as well be absent as explicitly nil. -/
theorem complete_iff_conforms (hp : schema.Proper) (hh : schema.HandsNothingDown)
    (hv : v.WellFormed) :
    ((∃ w, (Range.schema schema).complete path v = .ok w) ↔ schema.Conforms path v) ∧
    (∀ w, (Range.schema schema).complete path v = .ok w →
      (∀ s ∈ schema.settings, ∃ x,
        s.range.complete (path.entry s.key) (Entries.read v.entriesOrEmpty s.key) = .ok x ∧
          Entries.get? w.entriesOrEmpty s.key = some x) ∧
      ∀ node ∈ schema.sections, ∃ x,
        (Range.schema node.schema).complete (path.entry node.key)
            (Entries.read v.entriesOrEmpty node.key) = .ok x ∧
          Entries.get? w.entriesOrEmpty node.key = some x) ∧
    ∀ node ∈ schema.sections, ∀ x : Value, x.isNil = true →
      ((Range.schema schema).complete path
          (.ofEntries (Entries.insert v.entriesOrEmpty node.key x))).toOption =
        ((Range.schema schema).complete path
          (.ofEntries (Entries.without v.entriesOrEmpty node.key))).toOption := by
  refine ⟨?_, ?_, ?_⟩
  · rw [← complete_exists_iff_conforms hp hh hv]
    constructor
    · rintro ⟨w, hw⟩
      obtain ⟨es, hes, -⟩ := map_eq_ok_iff.1 hw
      exact ⟨es, hes⟩
    · rintro ⟨es, hes⟩
      exact ⟨.ofEntries es, map_eq_ok_iff.2 ⟨es, hes, rfl⟩⟩
  · intro w hw
    obtain ⟨es, hes, rfl⟩ := map_eq_ok_iff.1 hw
    obtain ⟨hsettings, hsections⟩ := hh.entries_of_complete hp hv hes
    refine ⟨hsettings, fun node hnode => ?_⟩
    obtain ⟨inner, hinner, hget⟩ := hsections node hnode
    exact ⟨.ofEntries inner, map_eq_ok_iff.2 ⟨inner, hinner, rfl⟩, hget⟩
  · intro node hnode x hx
    have hsame : schema.SameGiven (Entries.insert v.entriesOrEmpty node.key x)
        (Entries.without v.entriesOrEmpty node.key) :=
      sameGiven_insert_nil hp.distinctKeys hnode hx v.entriesOrEmpty
    have hentries : (Value.ofEntries v.entriesOrEmpty).WellFormed :=
      Value.wellFormed_ofEntries_iff.2 hv.entriesOrEmpty
    have hinsert := Entries.wellFormed_insert hentries (Value.wellFormed_of_isNil hx) node.key
    have hwithout := Entries.wellFormed_without hentries node.key
    refine toOption_congr fun w => ?_
    constructor
    · intro hw
      obtain ⟨es, hes, rfl⟩ := map_eq_ok_iff.1 hw
      exact map_eq_ok_iff.2 ⟨es, hsame.complete_eq_ok hp hh hinsert hwithout hes, rfl⟩
    · intro hw
      obtain ⟨es, hes, rfl⟩ := map_eq_ok_iff.1 hw
      exact map_eq_ok_iff.2 ⟨es, hsame.symm.complete_eq_ok hp hh hwithout hinsert hes, rfl⟩

/-- A sample schema of a job that must be given a name, and has limits. -/
def sampleJob : Schema :=
  ⟨"job", [⟨"name", "what the job is called", .nonNil, false⟩],
    [⟨"limits", ⟨"limits", [⟨"mode", "how strict", Range.string (.text "strict"), false⟩], []⟩,
      false⟩]⟩

/-- The sample job conforms if it is named. Explicit nil limits are as good as none. -/
theorem conforms_sampleJob :
    sampleJob.Conforms [] (.ofEntries [("name", .text "backup")]) ∧
      ((Range.schema sampleJob).complete []
          (.ofEntries [("name", .text "backup"), ("limits", .null)])).toOption =
        ((Range.schema sampleJob).complete []
          (.ofEntries [("name", .text "backup")])).toOption := by
  have hmap : (Value.ofEntries [("name", .text "backup")]).WellFormed := by
    simp +decide [Value.wellFormed_ofEntries_iff, Value.WellFormed.text]
  obtain ⟨haccepted, -, hnil⟩ :=
    @complete_iff_conforms sampleJob [] _ (by decide) (by decide) hmap
  exact ⟨haccepted.1 ⟨_, rfl⟩, hnil _ List.mem_cons_self .null rfl⟩

end Level

end Schema

end LayeredConfig
