import LayeredConfig.Proofs.Merging.Fitting
import LayeredConfig.Proofs.Merging.Layers

/-!
# Grouping does not matter

Raw maps are merged pairwise, from the bottom up. Merging them in any other grouping comes to the
same, order of keys included, or fails just the same (`Schema.mergeLayers_assoc`).

1. Keys are joined associatively (`propertyOrder_jointKeys_assoc`), so maps are
   (`Entries.union_assoc`).
2. Overlays are associative, by induction on the schema: a setting is that of the last map that has
   it, and a section is overlaid in turn (`Schema.overlay_assoc`).
3. Profiles are joined as maps (`mergeProfiles_assoc`), and so layers join associatively
   (`Schema.joinLayers_assoc`). A merged map is a layer put together, which is taken apart as it
   was.
-/

namespace LayeredConfig

/-! ## Keys -/

theorem namedKeys_jointKeys (lower upper : Entries Value) :
    namedKeys (jointKeys lower upper) =
      namedKeys (Entries.keys lower) ++
        (namedKeys (Entries.keys upper)).filter fun key => !Entries.has lower key := by
  unfold jointKeys namedKeys
  rw [List.filter_append, List.filter_comm]

/-- **Keys are joined associatively.** -/
theorem propertyOrder_jointKeys_assoc {a b c ab bc : Entries Value}
    (ha : (Entries.keys a).Nodup) (hb : (Entries.keys b).Nodup) (hc : (Entries.keys c).Nodup)
    (hab : Entries.keys ab = propertyOrder (jointKeys a b))
    (hbc : Entries.keys bc = propertyOrder (jointKeys b c)) :
    propertyOrder (jointKeys ab c) = propertyOrder (jointKeys a bc) := by
  have hmem_ab : ∀ key, key ∈ Entries.keys ab ↔ key ∈ Entries.keys a ∨ key ∈ Entries.keys b := by
    intro key
    rw [hab, mem_propertyOrder, mem_jointKeys_iff]
  have hmem_bc : ∀ key, key ∈ Entries.keys bc ↔ key ∈ Entries.keys b ∨ key ∈ Entries.keys c := by
    intro key
    rw [hbc, mem_propertyOrder, mem_jointKeys_iff]
  refine propertyOrder_congr ?_ ?_ ?_ ?_
  · refine nodup_jointKeys ?_ hc
    rw [hab]
    exact nodup_propertyOrder (nodup_jointKeys ha hb)
  · refine nodup_jointKeys ha ?_
    rw [hbc]
    exact nodup_propertyOrder (nodup_jointKeys hb hc)
  · intro key
    rw [mem_jointKeys_iff, mem_jointKeys_iff, hmem_ab, hmem_bc, or_assoc]
  · -- a key of the last map is new to the two below iff it is new to each of them
    have hnew : ∀ key, (!Entries.has ab key) = (!Entries.has a key && !Entries.has b key) := by
      intro key
      rw [Bool.eq_iff_iff]
      simp only [Bool.and_eq_true, Bool.not_eq_true', Entries.has_eq_false_iff,
        Entries.get?_eq_none_iff, hmem_ab, not_or]
    rw [namedKeys_jointKeys ab, namedKeys_jointKeys a, hab, hbc, namedKeys_propertyOrder,
      namedKeys_propertyOrder, namedKeys_jointKeys a b, namedKeys_jointKeys b c, List.filter_append,
      List.filter_filter, List.append_assoc]
    simp only [hnew]

namespace Entries

/-- A joined map has the joint keys, in property order. -/
theorem keys_union {es other : Entries Value} (hes : Ordered es) (hn : (keys other).Nodup) :
    keys (union es other) = propertyOrder (jointKeys es other) := by
  rw [← (ordered_union hes other).propertyOrder_keys]
  refine propertyOrder_congr (ordered_union hes other).nodup (nodup_jointKeys hes.nodup hn)
    (fun key => ?_) (namedKeys_union hn)
  rw [mem_keys_union, mem_jointKeys_iff]

/-- **Maps are joined associatively.** -/
theorem union_assoc {a b c : Entries Value} (ha : Ordered a) (hb : Ordered b)
    (hc : (keys c).Nodup) : union (union a b) c = union a (union b c) := by
  have hab : Ordered (union a b) := ordered_union ha b
  have hbc : Ordered (union b c) := ordered_union hb c
  have hkeys : keys (union (union a b) c) = keys (union a (union b c)) := by
    rw [keys_union hab hc, keys_union ha hbc.nodup]
    exact propertyOrder_jointKeys_assoc ha.nodup hb.nodup hc (keys_union ha hb.nodup)
      (keys_union hb hc)
  refine ext_of_get? hkeys (ordered_union hab c).nodup fun key _ => ?_
  rw [get?_union hc, get?_union hb.nodup, get?_union hbc.nodup, get?_union hc, Option.or_assoc]

end Entries

namespace Schema

/-! ## Overlays -/

section Overlay

variable {schema : Schema} {path : Path} {a b c : Value} {out ab bc left right : Entries Value}

/-- Three maps are overlaid in either grouping to the same. -/
theorem overlay_assoc_eq (hp : schema.Proper) (ha : a.WellFormed) (hb : b.WellFormed)
    (hc : c.WellFormed) (hab : schema.overlay path a b = .ok ab)
    (hbc : schema.overlay path b c = .ok bc)
    (hleft : schema.overlay path (.ofEntries ab) c = .ok left)
    (hright : schema.overlay path a (.ofEntries bc) = .ok right) : left = right := by
  induction schema using Schema.induction generalizing path a b c ab bc left right with
  | step schema ih =>
    have habWell : (Value.ofEntries ab).WellFormed := overlay_wellFormed hp ha hb hab
    have hbcWell : (Value.ofEntries bc).WellFormed := overlay_wellFormed hp hb hc hbc
    have hleftWell : (Value.ofEntries left).WellFormed := overlay_wellFormed hp habWell hc hleft
    have hkeys : Entries.keys left = Entries.keys right := by
      rw [keys_overlay hp habWell hc hleft, keys_overlay hp ha hbcWell hright]
      exact propertyOrder_jointKeys_assoc ha.nodup hb.nodup hc.nodup (keys_overlay hp ha hb hab)
        (keys_overlay hp hb hc hbc)
    refine Entries.ext_of_get? hkeys hleftWell.nodup fun key hkey => ?_
    rcases mem_keys_iff.1 (mem_keys_of_overlay hp habWell hc hleft hkey) with
      ⟨s, hs, rfl⟩ | ⟨node, hnode, rfl⟩
    · -- either way it is the value of the last map that has the setting
      rw [get?_overlay_setting hp habWell hc hleft hs, get?_overlay_setting hp ha hbcWell hright hs,
        Value.entriesOrEmpty_ofEntries, Value.entriesOrEmpty_ofEntries,
        get?_overlay_setting hp ha hb hab hs, get?_overlay_setting hp hb hc hbc hs, Option.or_assoc]
    · obtain ⟨es, hes, hread, -⟩ := section_of_overlay hp ha hb hab hnode
      obtain ⟨fs, hfs, hread', -⟩ := section_of_overlay hp hb hc hbc hnode
      obtain ⟨ls, hls, -, hget⟩ := section_of_overlay hp habWell hc hleft hnode
      obtain ⟨rs, hrs, -, hget'⟩ := section_of_overlay hp ha hbcWell hright hnode
      rw [Value.entriesOrEmpty_ofEntries, hread] at hls
      rw [Value.entriesOrEmpty_ofEntries, hread'] at hrs
      rw [hget hkey, hget' (hkeys ▸ hkey)]
      have hsame : ls = rs := ih node hnode (hp.section hnode) (ha.read node.key).orEmptyMap
        (hb.read node.key).orEmptyMap (hc.read node.key).orEmptyMap hes hfs hls hrs
      rw [hsame]

/-- **Overlays are associative.** Both groupings fail, or both come to the same. -/
theorem overlay_assoc (hp : schema.Proper) (ha : a.WellFormed) (hb : b.WellFormed)
    (hc : c.WellFormed) :
    (∃ ab, schema.overlay path a b = .ok ab ∧ schema.overlay path (.ofEntries ab) c = .ok out) ↔
      ∃ bc, schema.overlay path b c = .ok bc ∧ schema.overlay path a (.ofEntries bc) = .ok out := by
  constructor
  · rintro ⟨ab, hab, hleft⟩
    obtain ⟨hfa, hfb⟩ := (overlay_exists_iff hp).1 ⟨ab, hab⟩
    obtain ⟨-, hfc⟩ := (overlay_exists_iff hp).1 ⟨out, hleft⟩
    obtain ⟨bc, hbc⟩ : ∃ bc, schema.overlay path b c = .ok bc :=
      (overlay_exists_iff hp).2 ⟨hfb, hfc⟩
    obtain ⟨right, hright⟩ : ∃ right, schema.overlay path a (.ofEntries bc) = .ok right :=
      (overlay_exists_iff hp).2 ⟨hfa, fits_overlay hp hb hc hbc⟩
    cases overlay_assoc_eq hp ha hb hc hab hbc hleft hright
    exact ⟨bc, hbc, hright⟩
  · rintro ⟨bc, hbc, hright⟩
    obtain ⟨hfb, hfc⟩ := (overlay_exists_iff hp).1 ⟨bc, hbc⟩
    obtain ⟨hfa, -⟩ := (overlay_exists_iff hp).1 ⟨out, hright⟩
    obtain ⟨ab, hab⟩ : ∃ ab, schema.overlay path a b = .ok ab :=
      (overlay_exists_iff hp).2 ⟨hfa, hfb⟩
    obtain ⟨left, hleft⟩ : ∃ left, schema.overlay path (.ofEntries ab) c = .ok left :=
      (overlay_exists_iff hp).2 ⟨fits_overlay hp ha hb hab, hfc⟩
    cases overlay_assoc_eq hp ha hb hc hab hbc hleft hright
    exact ⟨ab, hab, hleft⟩

end Overlay

/-! ## Layers -/

/-- Profiles are joined associatively, whichever of the layers have any. -/
theorem mergeProfiles_assoc {a b c : Option (Entries Value)} (ha : Entries.Ordered (a.getD []))
    (hb : Entries.Ordered (b.getD [])) (hc : Entries.Ordered (c.getD [])) :
    mergeProfiles (mergeProfiles a b) c = mergeProfiles a (mergeProfiles b c) := by
  have hunion := congrArg some (Entries.union_assoc ha hb hc.nodup)
  cases a <;> cases b <;> cases c
  · rfl
  all_goals exact hunion

section Layers

variable {schema : Schema} {A B C out : Layer}

/-- **Layers are joined associatively.** -/
theorem joinLayers_assoc (hp : schema.Proper) (hA : A.WellFormed) (hB : B.WellFormed)
    (hC : C.WellFormed) :
    (∃ AB, schema.joinLayers A B = .ok AB ∧ schema.joinLayers AB C = .ok out) ↔
      ∃ BC, schema.joinLayers B C = .ok BC ∧ schema.joinLayers A BC = .ok out := by
  have hprofiles : mergeProfiles (mergeProfiles A.profiles B.profiles) C.profiles =
      mergeProfiles A.profiles (mergeProfiles B.profiles C.profiles) :=
    mergeProfiles_assoc hA.profiles.entriesOrEmpty.1 hB.profiles.entriesOrEmpty.1
      hC.profiles.entriesOrEmpty.1
  constructor
  · rintro ⟨AB, hAB, hout⟩
    obtain ⟨ab, hab, rfl⟩ := map_eq_ok_iff.1 hAB
    obtain ⟨merged, hleft, rfl⟩ := map_eq_ok_iff.1 hout
    obtain ⟨bc, hbc, hright⟩ := (overlay_assoc hp hA.base hB.base hC.base).1 ⟨ab, hab, hleft⟩
    exact ⟨_, map_eq_ok_iff.2 ⟨bc, hbc, rfl⟩,
      map_eq_ok_iff.2 ⟨merged, hright, congrArg (Layer.mk _) hprofiles.symm⟩⟩
  · rintro ⟨BC, hBC, hout⟩
    obtain ⟨bc, hbc, rfl⟩ := map_eq_ok_iff.1 hBC
    obtain ⟨merged, hright, rfl⟩ := map_eq_ok_iff.1 hout
    obtain ⟨ab, hab, hleft⟩ := (overlay_assoc hp hA.base hB.base hC.base).2 ⟨bc, hbc, hright⟩
    exact ⟨_, map_eq_ok_iff.2 ⟨ab, hab, rfl⟩,
      map_eq_ok_iff.2 ⟨merged, hleft, congrArg (Layer.mk _) hprofiles⟩⟩

end Layers

/-! ## Raw maps -/

section Maps

variable {schema : Schema} {a b c : Value} {out : Entries Value}

/-- Merging raw maps is associative, since a merged map is taken apart into joined layers. -/
theorem mergePair_assoc (hp : schema.Proper) (ha : a.WellFormed) (hb : b.WellFormed)
    (hc : c.WellFormed) :
    (∃ ab, schema.mergePair a b = .ok ab ∧ schema.mergePair (.ofEntries ab) c = .ok out) ↔
      ∃ bc, schema.mergePair b c = .ok bc ∧ schema.mergePair a (.ofEntries bc) = .ok out := by
  constructor
  · rintro ⟨ab, hab, hleft⟩
    obtain ⟨A, B, AB, hA, hB, hAB, rfl⟩ := mergePair_eq_ok_iff.1 hab
    obtain ⟨AB', C, joined, hAB', hC, hjoined, rfl⟩ := mergePair_eq_ok_iff.1 hleft
    have hAwell : A.WellFormed := Layer.wellFormed_of_eq_ok ha hA
    have hBwell : B.WellFormed := Layer.wellFormed_of_eq_ok hb hB
    have hCwell : C.WellFormed := Layer.wellFormed_of_eq_ok hc hC
    cases (layer_of_joinLayers hp hAwell hBwell hAB .mergeLayers).symm.trans hAB'
    obtain ⟨BC, hBC, hright⟩ := (joinLayers_assoc hp hAwell hBwell hCwell).1 ⟨AB, hAB, hjoined⟩
    exact ⟨BC.entries, mergePair_eq_ok_iff.2 ⟨B, C, BC, hB, hC, hBC, rfl⟩,
      mergePair_eq_ok_iff.2 ⟨A, BC, joined, hA,
        layer_of_joinLayers hp hBwell hCwell hBC .mergeLayers, hright, rfl⟩⟩
  · rintro ⟨bc, hbc, hright⟩
    obtain ⟨B, C, BC, hB, hC, hBC, rfl⟩ := mergePair_eq_ok_iff.1 hbc
    obtain ⟨A, BC', joined, hA, hBC', hjoined, rfl⟩ := mergePair_eq_ok_iff.1 hright
    have hAwell : A.WellFormed := Layer.wellFormed_of_eq_ok ha hA
    have hBwell : B.WellFormed := Layer.wellFormed_of_eq_ok hb hB
    have hCwell : C.WellFormed := Layer.wellFormed_of_eq_ok hc hC
    cases (layer_of_joinLayers hp hBwell hCwell hBC .mergeLayers).symm.trans hBC'
    obtain ⟨AB, hAB, hleft⟩ := (joinLayers_assoc hp hAwell hBwell hCwell).2 ⟨BC, hBC, hjoined⟩
    exact ⟨AB.entries, mergePair_eq_ok_iff.2 ⟨A, B, AB, hA, hB, hAB, rfl⟩,
      mergePair_eq_ok_iff.2 ⟨AB, C, joined,
        layer_of_joinLayers hp hAwell hBwell hAB .mergeLayers, hC, hleft, rfl⟩⟩

theorem mergeLayers_pair (schema : Schema) (a b : Value) :
    schema.mergeLayers a b [] = schema.mergePair a b := bind_pure _

theorem mergeLayers_triple (schema : Schema) (a b c : Value) :
    schema.mergeLayers a b [c] =
      schema.mergePair a b >>= fun ab => schema.mergePair (.ofEntries ab) c := by
  unfold mergeLayers
  simp only [List.foldlM_cons, List.foldlM_nil, bind_pure]

/-- **Merging is associative.** Three raw maps merged at once, the first one merged with the other
two, and the first two merged with the last one: all of this fails, or all of it comes to the same
map, order of keys included. -/
theorem mergeLayers_assoc (hp : schema.Proper) (ha : a.WellFormed) (hb : b.WellFormed)
    (hc : c.WellFormed) :
    (schema.mergeLayers b c [] >>= fun bc => schema.mergeLayers a (.ofEntries bc) []).toOption =
        (schema.mergeLayers a b [c]).toOption ∧
      (schema.mergeLayers a b [] >>= fun ab => schema.mergeLayers (.ofEntries ab) c []).toOption =
        (schema.mergeLayers a b [c]).toOption := by
  rw [mergeLayers_triple]
  simp only [mergeLayers_pair, and_true]
  refine toOption_congr fun out => ?_
  rw [bind_eq_ok_iff, bind_eq_ok_iff]
  exact (mergePair_assoc hp ha hb hc).symm

/-- A sample schema of a shelf with numbered boards. -/
def sampleShelf : Schema :=
  ⟨"shelf", [⟨"title", "what is on the shelf", Range.string (.text "none"), false⟩],
    [⟨"10", ⟨"board", [⟨"label", "label of the board", Range.string (.text "none"), false⟩], []⟩,
        false⟩,
      ⟨"2", ⟨"board", [], []⟩, false⟩]⟩

/-- Three maps for the sample shelf, the last two merged first. Numbered sections stand in front,
nil sections are empty maps, and a profile has its last content in its first place. -/
theorem mergeLayers_sampleShelf :
    (sampleShelf.mergeLayers
        (.ofEntries [("10", .ofEntries [("label", .text "low")]), ("title", .null),
          ("profiles", .ofEntries [("full", .ofEntries [("title", .text "books")])])])
        (.ofEntries [("2", .null), ("title", .text "jars"),
          ("profiles", .ofEntries [("bare", .emptyMap), ("full", .emptyMap)])]) [] >>=
      fun upper => sampleShelf.mergeLayers
        (.ofEntries [("10", .null), ("profiles", .ofEntries [("bare", .null)])])
        (.ofEntries upper) []).toOption =
      some [("2", .emptyMap), ("10", .ofEntries [("label", .text "low")]), ("title", .text "jars"),
        ("profiles", .ofEntries [("bare", .emptyMap), ("full", .emptyMap)])] := by
  refine (mergeLayers_assoc (by decide) ?_ ?_ ?_).1.trans ?_
  · simp +decide [Value.wellFormed_ofEntries_iff, Value.WellFormed.null]
  · simp +decide [Value.wellFormed_ofEntries_iff, Value.WellFormed.text, Value.WellFormed.null]
  · simp +decide [Value.wellFormed_ofEntries_iff, Value.emptyMap, Value.WellFormed.text,
      Value.WellFormed.null]
  · rfl

end Maps

end Schema

end LayeredConfig
