import LayeredConfig.Profiles
import LayeredConfig.Proofs.Merging.Overlay

/-!
# What merged layers hold

Raw maps that are laid over each other hold, at every declared setting, what the last of them holds
that has an entry there; and for every profile the content that the last of them has for it, as a
whole.

- `lastHeld`: what the last of several maps holds.
- `Layer.Splits`: a layer is a raw map taken apart. `Layer.entries` puts it together again.
- `LeadsIntoBase`: a way that neither the profiles nor the reserved key lie on. What is held there
  is the same in a raw map and in its base.
- `Schema.mergePair_eq_ok_iff`: merging two maps is joining two layers.
- `Schema.mergeLayers_induction`: what is kept by one more map holds of any number of maps.
- `Schema.StandsFor`: a map stands for several ones laid over each other. One more map laid over it
  keeps this (`StandsFor.mergePair`), and so `standsFor_of_mergeLayers` has it of all.
- `Schema.held?_overlayAll`: what is held when the contents of profiles are laid over a base.
-/

namespace LayeredConfig

/-- What is held in a place by the last of several maps that holds anything there. -/
def lastHeld (maps : List Value) (sections : List String) (key : String) : Option Value :=
  (maps.filterMap fun map => map.held? sections key).getLast?

theorem lastHeld_singleton (map : Value) (sections : List String) (key : String) :
    lastHeld [map] sections key = map.held? sections key := by
  unfold lastHeld
  cases h : map.held? sections key <;> simp [h]

theorem lastHeld_append (maps others : List Value) (sections : List String) (key : String) :
    lastHeld (maps ++ others) sections key =
      (lastHeld others sections key).or (lastHeld maps sections key) := by
  unfold lastHeld
  rw [List.filterMap_append, List.getLast?_append]

/-! ## Taking a raw map apart -/

/-- **How a raw map is taken apart.** It is its own base if it has no profiles. Else they are a map,
and the base is built of the other entries. -/
theorem Layer.cases_of_eq_ok {operation : Operation} {map : Value} {layer : Layer}
    (h : Layer.of operation map = .ok layer) :
    (Entries.get? map.entriesOrEmpty profilesKey = none ∧ layer = ⟨map, none⟩) ∨
    ∃ profiles, Entries.get? map.entriesOrEmpty profilesKey = some profiles ∧
      layer = ⟨.ofAssigned (map.entriesOrEmpty.without profilesKey),
        some profiles.entriesOrEmpty⟩ := by
  obtain ⟨es, hes, h⟩ := bind_eq_ok_iff.1 h
  obtain rfl := entriesOrEmpty_of_requireMap hes
  split at h
  · rename_i hnone
    cases h
    exact .inl ⟨hnone, rfl⟩
  · rename_i profiles hsome
    obtain ⟨ps, hps, h⟩ := bind_eq_ok_iff.1 h
    obtain rfl := entriesOrEmpty_of_requireMap hps
    cases h
    exact .inr ⟨profiles, hsome, rfl⟩

/-- Base and profiles are well-formed, and no profiles are left in the base. -/
structure Layer.WellFormed (layer : Layer) : Prop where
  base : layer.base.WellFormed
  stripped : profilesKey ∉ Entries.keys layer.base.entriesOrEmpty
  profiles : (Value.ofEntries (layer.profiles.getD [])).WellFormed

/-- No entry is found in what assigned entries come to that is not found among them. -/
theorem get?_ofAssigned_of_eq_none {es : Entries Value} (hn : (Entries.keys es).Nodup)
    {key : String} (h : Entries.get? es key = none) :
    Entries.get? (Value.ofAssigned es).entriesOrEmpty key = none := by
  have hrebuilt : Entries.get? (Entries.rebuild es) key = none := by
    by_cases hkey : key = reservedKey
    · rw [hkey]
      exact Entries.get?_eq_none_iff.2 (Entries.reservedKey_not_mem_keys_rebuild es)
    · rw [Entries.get?_rebuild hkey hn, h]
  rcases Value.ofAssigned_cases es with ⟨-, heq⟩ | ⟨-, heq | ⟨_, _, -, -, heq⟩⟩
  · rw [heq]
    exact hrebuilt
  · rw [heq]
    exact hrebuilt
  · rw [heq]
    rfl

theorem Layer.wellFormed_of_eq_ok {operation : Operation} {map : Value} {layer : Layer}
    (hmap : map.WellFormed) (h : Layer.of operation map = .ok layer) : layer.WellFormed := by
  rcases Layer.cases_of_eq_ok h with ⟨hnone, rfl⟩ | ⟨profiles, hsome, rfl⟩
  · exact ⟨hmap, Entries.get?_eq_none_iff.1 hnone, Value.wellFormed_emptyMap⟩
  · refine ⟨Entries.wellFormed_ofAssigned fun e he => ?_, ?_,
      Value.wellFormed_ofEntries_iff.2 (hmap.get? hsome).entriesOrEmpty⟩
    · exact hmap.entriesOrEmpty.2 e (List.mem_filter.1 he).1
    · refine Entries.get?_eq_none_iff.1 (get?_ofAssigned_of_eq_none
        (hmap.entriesOrEmpty.1.without profilesKey).nodup ?_)
      rw [Entries.get?_without, if_pos rfl]

/-- The layer is the raw map taken apart: a base without profiles that otherwise holds the same, and
the profiles. The reserved key is left aside. -/
structure Layer.Splits (layer : Layer) (map : Value) : Prop where
  wellFormed : layer.base.WellFormed
  kept : ∀ key, key ≠ profilesKey → key ≠ reservedKey →
    Entries.get? layer.base.entriesOrEmpty key = Entries.get? map.entriesOrEmpty key
  profiles : ∀ name, Entries.get? (layer.profiles.getD []) name = map.held? [profilesKey] name
  profilesWellFormed : (Value.ofEntries (layer.profiles.getD [])).WellFormed

/-- A layer whose base is a map has all that the raw map has. The base could be another object,
where the raw map holds one under the reserved key. -/
theorem Layer.splits_of_eq_ok {operation : Operation} {map : Value} {layer : Layer}
    (hmap : map.WellFormed) (h : Layer.of operation map = .ok layer)
    (hbase : layer.base.isMap = true) : layer.Splits map := by
  have hwell : layer.WellFormed := Layer.wellFormed_of_eq_ok hmap h
  refine ⟨hwell.base, ?_, ?_, hwell.profiles⟩
  · intro key hprofiles hkey
    rcases Layer.cases_of_eq_ok h with ⟨-, rfl⟩ | ⟨profiles, -, rfl⟩
    · rfl
    · rw [Value.entriesOrEmpty_of_entries? (Value.entries?_ofAssigned hbase),
        Entries.get?_rebuild hkey (hmap.entriesOrEmpty.1.without profilesKey).nodup,
        Entries.get?_without, if_neg hprofiles]
  · intro name
    rcases Layer.cases_of_eq_ok h with ⟨hnone, rfl⟩ | ⟨profiles, hsome, rfl⟩
    · rw [Value.held?_cons_of_get?_eq_none hnone]
      rfl
    · exact (Value.held?_cons_of_get? hsome [] name).symm

/-- The way does not begin with the key of the profiles, nor with the reserved one. -/
def LeadsIntoBase (keys : List String) (key : String) : Prop :=
  ∀ head ∈ (keys ++ [key]).head?, head ≠ profilesKey ∧ head ≠ reservedKey

theorem Layer.Splits.held?_base {layer : Layer} {map : Value} (h : layer.Splits map)
    {keys : List String} {key : String} (hway : LeadsIntoBase keys key) :
    layer.base.held? keys key = map.held? keys key :=
  Value.held?_congr fun head hhead => h.kept head (hway head hhead).1 (hway head hhead).2

/-- The entries of a layer that is put together: those of its base, and its profiles as one more. -/
def Layer.entries (layer : Layer) : Entries Value :=
  match layer.profiles with
  | none => layer.base.entriesOrEmpty
  | some profiles => Entries.insert layer.base.entriesOrEmpty profilesKey (.ofEntries profiles)

/-- Profiles change nothing that is held outside of them. -/
theorem Layer.held?_entries (layer : Layer) {keys : List String} {key : String}
    (hway : LeadsIntoBase keys key) :
    (Value.ofEntries layer.entries).held? keys key = layer.base.held? keys key := by
  refine Value.held?_congr fun head hhead => ?_
  rw [Value.entriesOrEmpty_ofEntries, Layer.entries]
  split
  · rfl
  · rw [Entries.get?_insert, if_neg (hway head hhead).1.symm]

/-- The profiles are found under their key. -/
theorem Layer.get?_entries_profilesKey {layer : Layer}
    (h : profilesKey ∉ Entries.keys layer.base.entriesOrEmpty) :
    Entries.get? layer.entries profilesKey = layer.profiles.map Value.ofEntries := by
  rw [Layer.entries]
  split
  · rename_i hnone
    rw [Entries.get?_eq_none_iff.2 h, hnone]
    rfl
  · rename_i profiles hsome
    rw [Entries.get?_insert, if_pos rfl, hsome]
    rfl

/-- A profile is found by its name. -/
theorem Layer.held?_entries_profile {layer : Layer}
    (h : profilesKey ∉ Entries.keys layer.base.entriesOrEmpty) (name : String) :
    (Value.ofEntries layer.entries).held? [profilesKey] name =
      Entries.get? (layer.profiles.getD []) name := by
  have hentry := Layer.get?_entries_profilesKey h
  rw [← Value.entriesOrEmpty_ofEntries layer.entries] at hentry
  cases hprofiles : layer.profiles with
  | none =>
    rw [hprofiles] at hentry
    exact Value.held?_cons_of_get?_eq_none hentry [] name
  | some profiles =>
    rw [hprofiles] at hentry
    exact Value.held?_cons_of_get? hentry [] name

theorem Layer.entries_wellFormed {layer : Layer} (h : layer.WellFormed) :
    (Value.ofEntries layer.entries).WellFormed := by
  have hbase : (Value.ofEntries layer.base.entriesOrEmpty).WellFormed :=
    Value.wellFormed_ofEntries_iff.2 h.base.entriesOrEmpty
  have hprofiles := h.profiles
  rw [Layer.entries]
  split
  · exact hbase
  · rename_i profiles hsome
    rw [hsome] at hprofiles
    exact Entries.wellFormed_insert hbase hprofiles profilesKey

/-- **A layer that is put together is taken apart as it was.** -/
theorem Layer.of_entries (operation : Operation) {es : Entries Value}
    {profiles : Option (Entries Value)} (hes : Entries.Ordered es)
    (hreserved : reservedKey ∉ Entries.keys es) (hprofiles : profilesKey ∉ Entries.keys es) :
    Layer.of operation (.ofEntries (Layer.entries ⟨.ofEntries es, profiles⟩)) =
      .ok ⟨.ofEntries es, profiles⟩ := by
  cases profiles with
  | none =>
    refine bind_eq_ok_iff.2 ⟨es, rfl, ?_⟩
    rw [Entries.get?_eq_none_iff.2 hprofiles]
    rfl
  | some profiles =>
    refine bind_eq_ok_iff.2 ⟨Entries.insert es profilesKey (.ofEntries profiles), rfl, ?_⟩
    rw [Entries.get?_insert, if_pos rfl]
    refine bind_eq_ok_iff.2 ⟨profiles, rfl, pure_eq_ok_iff.2 ?_⟩
    have hbase : Value.ofAssigned (Entries.without
        (Entries.insert es profilesKey (.ofEntries profiles)) profilesKey) = .ofEntries es := by
      rw [Entries.without_insert hprofiles, Value.ofAssigned_of_not_mem hreserved,
        Entries.rebuild_eq_self hes hreserved]
    exact congrArg (fun base => Layer.mk base (some profiles)) hbase

namespace Schema

variable {schema : Schema} {lower upper : Value} {out : Entries Value} {files : List Value}

/-- The way to a declared key leads into the base. -/
theorem leadsIntoBase (hp : schema.Proper) (hprofiles : profilesKey ∉ schema.keys)
    {keys : List String} {inner : Schema} (hinner : schema.under? keys = some inner) {key : String}
    (hkey : key ∈ inner.keys) : LeadsIntoBase keys key := by
  intro head hhead
  have hdeclared : head ∈ schema.keys := head_mem_keys hinner hkey hhead
  refine ⟨?_, hp.ne_reservedKey schema.self_mem_nested hdeclared⟩
  rintro rfl
  exact hprofiles hdeclared

/-- What the base holds for a declared setting is what the raw map holds. -/
theorem held?_base (hp : schema.Proper) (hprofiles : profilesKey ∉ schema.keys) {map : Value}
    {layer : Layer} (hlayer : layer.Splits map) {keys : List String} {inner : Schema}
    (hinner : schema.under? keys = some inner) {s : Setting} (hs : s ∈ inner.settings) :
    layer.base.held? keys s.key = map.held? keys s.key :=
  hlayer.held?_base (leadsIntoBase hp hprofiles hinner (mem_keys_of_setting hs))

/-! ## Merging -/

/-- The profiles of two layers, those of the upper one first. -/
theorem get?_mergeProfiles {lower upper : Option (Entries Value)}
    (hupper : (Entries.keys (upper.getD [])).Nodup) (name : String) :
    Entries.get? ((mergeProfiles lower upper).getD []) name =
      (Entries.get? (upper.getD []) name).or (Entries.get? (lower.getD []) name) := by
  cases lower with
  | none =>
    cases upper with
    | none => rfl
    | some ups => exact Entries.get?_union hupper name
  | some lows => exact Entries.get?_union hupper name

theorem wellFormed_mergeProfiles {lower upper : Option (Entries Value)}
    (hlower : (Value.ofEntries (lower.getD [])).WellFormed)
    (hupper : (Value.ofEntries (upper.getD [])).WellFormed) :
    (Value.ofEntries ((mergeProfiles lower upper).getD [])).WellFormed := by
  have hunion := Entries.wellFormed_union hlower (Value.wellFormed_ofEntries_iff.1 hupper).2
  cases lower with
  | none =>
    cases upper with
    | none => exact hlower
    | some ups => exact hunion
  | some lows => exact hunion

/-- Lays a layer over another. -/
def joinLayers (schema : Schema) (below above : Layer) : Except Fault Layer :=
  (schema.overlay [] below.base above.base).map fun merged =>
    ⟨.ofEntries merged, mergeProfiles below.profiles above.profiles⟩

/-- Raw maps are merged as layers: taken apart, joined, and put together. -/
theorem mergePair_eq_ok_iff :
    schema.mergePair lower upper = .ok out ↔
      ∃ below above joined, Layer.of .mergeLayers lower = .ok below ∧
        Layer.of .mergeLayers upper = .ok above ∧ schema.joinLayers below above = .ok joined ∧
        joined.entries = out := by
  constructor
  · intro h
    obtain ⟨below, hbelow, h⟩ := bind_eq_ok_iff.1 h
    obtain ⟨above, habove, h⟩ := bind_eq_ok_iff.1 h
    obtain ⟨merged, hmerged, h⟩ := bind_eq_ok_iff.1 h
    refine ⟨below, above, _, hbelow, habove, map_eq_ok_iff.2 ⟨merged, hmerged, rfl⟩, ?_⟩
    rw [← pure_eq_ok_iff.1 h]
    unfold Layer.entries
    cases mergeProfiles below.profiles above.profiles <;> rfl
  · rintro ⟨below, above, joined, hbelow, habove, hjoined, rfl⟩
    obtain ⟨merged, hmerged, rfl⟩ := map_eq_ok_iff.1 hjoined
    refine bind_eq_ok_iff.2 ⟨below, hbelow, bind_eq_ok_iff.2 ⟨above, habove,
      bind_eq_ok_iff.2 ⟨merged, hmerged, pure_eq_ok_iff.2 ?_⟩⟩⟩
    unfold Layer.entries
    cases mergeProfiles below.profiles above.profiles <;> rfl

theorem joinLayers_wellFormed (hp : schema.Proper) {below above joined : Layer}
    (hbelow : below.WellFormed) (habove : above.WellFormed)
    (h : schema.joinLayers below above = .ok joined) : joined.WellFormed := by
  obtain ⟨merged, hmerged, rfl⟩ := map_eq_ok_iff.1 h
  refine ⟨overlay_wellFormed hp hbelow.base habove.base hmerged, fun hmem => ?_,
    wellFormed_mergeProfiles hbelow.profiles habove.profiles⟩
  exact ((mem_keys_overlay_iff hp hbelow.base habove.base hmerged).1 hmem).elim hbelow.stripped
    habove.stripped

/-- Joined layers that are put together are taken apart as they were. -/
theorem layer_of_joinLayers (hp : schema.Proper) {below above joined : Layer}
    (hbelow : below.WellFormed) (habove : above.WellFormed)
    (h : schema.joinLayers below above = .ok joined) (operation : Operation) :
    Layer.of operation (.ofEntries joined.entries) = .ok joined := by
  have hjoined : joined.WellFormed := joinLayers_wellFormed hp hbelow habove h
  obtain ⟨merged, hmerged, rfl⟩ := map_eq_ok_iff.1 h
  refine Layer.of_entries operation hjoined.base.entriesOrEmpty.1 (fun hmem => ?_) hjoined.stripped
  exact hp.ne_reservedKey schema.self_mem_nested
    (mem_keys_of_overlay hp hbelow.base habove.base hmerged hmem) rfl

/-- **What two merged maps come to:** the bases laid over each other, and the joint profiles. -/
theorem joined_of_mergePair (hp : schema.Proper) (hlower : lower.WellFormed)
    (hupper : upper.WellFormed) (h : schema.mergePair lower upper = .ok out) :
    ∃ below above merged, Layer.of .mergeLayers lower = .ok below ∧
      Layer.of .mergeLayers upper = .ok above ∧
      schema.overlay [] below.base above.base = .ok merged ∧
      Layer.WellFormed ⟨.ofEntries merged, mergeProfiles below.profiles above.profiles⟩ ∧
      Layer.entries ⟨.ofEntries merged, mergeProfiles below.profiles above.profiles⟩ = out := by
  obtain ⟨below, above, joined, hbelow, habove, hjoined, hentries⟩ := mergePair_eq_ok_iff.1 h
  have hwell : joined.WellFormed := joinLayers_wellFormed hp
    (Layer.wellFormed_of_eq_ok hlower hbelow) (Layer.wellFormed_of_eq_ok hupper habove) hjoined
  obtain ⟨merged, hmerged, rfl⟩ := map_eq_ok_iff.1 hjoined
  exact ⟨below, above, merged, hbelow, habove, hmerged, hwell, hentries⟩

/-- **What two merged maps hold:** at a declared setting, and for a profile, what the upper one
holds, and else what the lower one holds. -/
theorem held?_mergePair (hp : schema.Proper) (hprofiles : profilesKey ∉ schema.keys)
    (hlower : lower.WellFormed) (hupper : upper.WellFormed)
    (h : schema.mergePair lower upper = .ok out) :
    (Value.ofEntries out).WellFormed ∧
    (∀ keys inner, schema.under? keys = some inner → ∀ s ∈ inner.settings,
      (Value.ofEntries out).held? keys s.key =
        (upper.held? keys s.key).or (lower.held? keys s.key)) ∧
    ∀ name, (Value.ofEntries out).held? [profilesKey] name =
      (upper.held? [profilesKey] name).or (lower.held? [profilesKey] name) := by
  obtain ⟨below, above, merged, hbelow, habove, hmerged, hwell, rfl⟩ :=
    joined_of_mergePair hp hlower hupper h
  obtain ⟨hbelowMap, haboveMap⟩ := isMap_of_overlay hmerged
  have hb : below.Splits lower := Layer.splits_of_eq_ok hlower hbelow hbelowMap
  have ha : above.Splits upper := Layer.splits_of_eq_ok hupper habove haboveMap
  refine ⟨Layer.entries_wellFormed hwell, ?_, ?_⟩
  · intro keys inner hinner s hs
    rw [Layer.held?_entries _ (leadsIntoBase hp hprofiles hinner (mem_keys_of_setting hs)),
      held?_overlay hp hb.wellFormed ha.wellFormed hmerged hinner hs,
      held?_base hp hprofiles hb hinner hs, held?_base hp hprofiles ha hinner hs]
  · intro name
    have hnames : (Entries.keys (above.profiles.getD [])).Nodup := ha.profilesWellFormed.nodup
    rw [Layer.held?_entries_profile hwell.stripped, get?_mergeProfiles hnames, ha.profiles,
      hb.profiles]

/-- A map stands for several ones laid over each other. -/
structure StandsFor (schema : Schema) (v : Value) (files : List Value) : Prop where
  wellFormed : v.WellFormed
  setting : ∀ keys inner, schema.under? keys = some inner → ∀ s ∈ inner.settings,
    v.held? keys s.key = lastHeld files keys s.key
  profile : ∀ name, v.held? [profilesKey] name = lastHeld files [profilesKey] name

theorem standsFor_self {file : Value} (h : file.WellFormed) : schema.StandsFor file [file] where
  wellFormed := h
  setting keys _ _ s _ := (lastHeld_singleton file keys s.key).symm
  profile name := (lastHeld_singleton file [profilesKey] name).symm

/-- One more map laid over it. -/
theorem StandsFor.mergePair (hl : schema.StandsFor lower files) (hp : schema.Proper)
    (hprofiles : profilesKey ∉ schema.keys) (hupper : upper.WellFormed)
    (h : schema.mergePair lower upper = .ok out) :
    schema.StandsFor (.ofEntries out) (files ++ [upper]) := by
  obtain ⟨hout, hsettings, hprofile⟩ := held?_mergePair hp hprofiles hl.wellFormed hupper h
  refine ⟨hout, ?_, ?_⟩
  · intro keys inner hinner s hs
    rw [hsettings keys inner hinner s hs, lastHeld_append, lastHeld_singleton,
      hl.setting keys inner hinner s hs]
  · intro name
    rw [hprofile, lastHeld_append, lastHeld_singleton, hl.profile]

/-- **Merging step by step.** What holds of the first map, and is kept when one more map is laid
over it, holds of the merged map. -/
theorem mergeLayers_induction {P : Value → List Value → Prop} {first second : Value}
    {rest : List Value} (h : schema.mergeLayers first second rest = .ok out)
    (hfirst : P first [first])
    (hstep : ∀ lower files upper merged, upper ∈ second :: rest → P lower files →
      schema.mergePair lower upper = .ok merged → P (.ofEntries merged) (files ++ [upper])) :
    P (.ofEntries out) (first :: second :: rest) := by
  have hrun : ∀ later merged files, later ⊆ second :: rest → P (.ofEntries merged) files →
      later.foldlM (fun merged next => schema.mergePair (.ofEntries merged) next) merged = .ok out →
        P (.ofEntries out) (files ++ later) := by
    intro later
    induction later with
    | nil =>
      intro merged files _ hP hout
      cases hout
      rw [List.append_nil]
      exact hP
    | cons next later ih =>
      intro merged files hsub hP hout
      rw [List.foldlM_cons] at hout
      obtain ⟨merged', hmerged', hout⟩ := bind_eq_ok_iff.1 hout
      obtain ⟨hnext, hlater⟩ := List.cons_subset.1 hsub
      have hall := ih merged' (files ++ [next]) hlater
        (hstep _ files next merged' hnext hP hmerged') hout
      rw [List.append_assoc] at hall
      exact hall
  obtain ⟨merged, hmerged, h⟩ := bind_eq_ok_iff.1 h
  exact hrun rest merged [first, second] (List.subset_cons_self second rest)
    (hstep first [first] second merged List.mem_cons_self hfirst hmerged) h

/-- **A merged map stands for the maps that it is merged from.** -/
theorem standsFor_of_mergeLayers {first second : Value} {rest : List Value} (hp : schema.Proper)
    (hprofiles : profilesKey ∉ schema.keys)
    (hfiles : ∀ file ∈ first :: second :: rest, file.WellFormed)
    (h : schema.mergeLayers first second rest = .ok out) :
    schema.StandsFor (.ofEntries out) (first :: second :: rest) :=
  mergeLayers_induction h (standsFor_self (hfiles first List.mem_cons_self))
    fun _ _ upper _ hupper hlower hmerged =>
      hlower.mergePair hp hprofiles (hfiles upper (List.mem_cons_of_mem first hupper)) hmerged

/-! ## Profiles -/

/-- The selected contents are those that are found by the names, in their order. -/
theorem selectProfiles_eq_ok {available : Entries Value} {names : List String}
    {contents : List Value} (h : selectProfiles available names = .ok contents) :
    contents = names.filterMap fun name => Entries.get? available name := by
  induction names generalizing contents with
  | nil =>
    cases h
    rfl
  | cons name rest ih =>
    rw [selectProfiles] at h
    split at h
    · cases h
    · rename_i content hcontent
      obtain ⟨later, hlater, rfl⟩ := map_eq_ok_iff.1 h
      rw [List.filterMap_cons, hcontent, ih hlater]

/-- The contents that are found by names are well-formed. -/
theorem wellFormed_of_mem_filterMap {available : Entries Value} {names : List String}
    (h : (Value.ofEntries available).WellFormed) :
    ∀ content ∈ names.filterMap (Entries.get? available), content.WellFormed := by
  intro content hcontent
  obtain ⟨name, -, hget⟩ := List.mem_filterMap.1 hcontent
  exact h.get? hget

/-- **What is held when contents of profiles are laid over a base:** what the last of them holds,
and else what the base holds. -/
theorem held?_overlayAll (hp : schema.Proper) {base applied : Value} {contents : List Value}
    (hbase : base.WellFormed) (hcontents : ∀ content ∈ contents, content.WellFormed)
    (h : schema.overlayAll base contents = .ok applied) :
    applied.WellFormed ∧
      ∀ keys inner, schema.under? keys = some inner → ∀ s ∈ inner.settings,
        applied.held? keys s.key =
          (lastHeld contents keys s.key).or (base.held? keys s.key) := by
  unfold overlayAll at h
  induction contents generalizing base with
  | nil =>
    cases h
    exact ⟨hbase, fun _ _ _ _ _ => rfl⟩
  | cons content rest ih =>
    rw [List.foldlM_cons] at h
    obtain ⟨_, hlaid, h⟩ := bind_eq_ok_iff.1 h
    obtain ⟨es, hes, rfl⟩ := map_eq_ok_iff.1 hlaid
    have hcontent : content.WellFormed := hcontents content List.mem_cons_self
    have hlaidWell : (Value.ofEntries es).WellFormed := overlay_wellFormed hp hbase hcontent hes
    obtain ⟨happlied, hheld⟩ := ih hlaidWell (fun c hc => hcontents c (List.mem_cons_of_mem _ hc)) h
    refine ⟨happlied, fun keys inner hinner s hs => ?_⟩
    rw [hheld keys inner hinner s hs, held?_overlay hp hbase hcontent hes hinner hs,
      ← List.singleton_append, lastHeld_append, lastHeld_singleton, Option.or_assoc]

end Schema

end LayeredConfig
