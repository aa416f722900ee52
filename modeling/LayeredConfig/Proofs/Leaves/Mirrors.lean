import LayeredConfig.Proofs.Completion.Level
import LayeredConfig.Proofs.Leaves.Loops
import LayeredConfig.Proofs.Schema.Consistency

/-!
# What completing and collecting leaves inherit

Completing a map hands completed sections down; the leaves are read off the raw map, each inherited
value in the place where it was given. This module relates what is inherited on the two sides.

- `Range.IsPlain`: the ranges that leave alone what they accept.
- `Schema.stored`: what a completed map stores at the declared settings.
- `Schema.LeavesShow`: the leaves of a raw map are what some completed map stores.
- `Mirrors`: the two sides inherit under the same keys; a setting the same value; a section a
  completed map that the leaves of the raw one show.

A level keeps the relation: its settings by `mirrors_handedDown`, its sections one after the other
by `mirrors_sections`. That both sides walk the same sections in step is `sections_in_step`, for
any relation.
-/

namespace LayeredConfig

/-! ## Ranges that leave values alone -/

/-- Ranges that accept a given value as it is, whatever its path. -/
def Range.IsPlain : Range → Prop
  | .any _ => True
  | .nonNil => True
  | .predicate _ _ _ => True
  | _ => False

namespace Range

variable {range : Range} {path : Path} {v w : Value}

/-- The path does not matter to a plain range. -/
theorem IsPlain.complete_at (h : range.IsPlain) (hv : range.complete path v = .ok w)
    (path' : Path) : range.complete path' v = .ok w := by
  cases range with
  | any default => exact hv
  | nonNil =>
    simp only [complete] at hv ⊢
    split at hv
    · cases hv
    · rw [if_neg ‹_›]
      exact hv
  | predicate text accepts default =>
    simp only [complete] at hv ⊢
    split at hv
    · rw [if_pos ‹_›]
      exact hv
    · split at hv
      · rw [if_neg ‹_›, if_pos ‹_›]
        exact hv
      · cases hv
  | _ => cases h

/-- What is given and accepted is left as it is. -/
theorem IsPlain.eq_of_complete (h : range.IsPlain) (hv : range.complete path v = .ok w)
    (hnil : v.isNil = false) : w = v := by
  cases range with
  | any default =>
    simp only [complete, hnil] at hv
    cases hv
    rfl
  | nonNil =>
    simp only [complete, hnil] at hv
    cases hv
    rfl
  | predicate text accepts default =>
    simp only [complete, hnil] at hv
    split at hv
    · contradiction
    · split at hv
      · cases hv
        rfl
      · cases hv
  | _ => cases h

/-- A plain range is a leaf as a whole. -/
theorem IsPlain.leaves_eq (h : range.IsPlain) (hv : range.complete path v = .ok w) :
    range.leaves path v = .ok [⟨range, path, w⟩] := by
  have hscalar : scalarLeaf range path v = .ok [⟨range, path, w⟩] := by
    rw [scalarLeaf, completeForFold, hv]
    rfl
  cases range with
  | any default => exact hscalar
  | nonNil => exact hscalar
  | predicate text accepts default => exact hscalar
  | _ => cases h

end Range

/-! ## What a completed map stores -/

/-- What is to be seen of a leaf: where it is, and that it has a value. -/
def Leaf.view (leaf : Leaf) : Path × Option Value := (leaf.path, some leaf.value)

namespace Schema

/-- What a map at a path stores at the declared settings, in document order. -/
def stored (schema : Schema) (path : Path) (es : Entries Value) : List (Path × Option Value) :=
  schema.declaredSettings.map fun d =>
    (path ++ Path.ofKeys (d.1 ++ [d.2.key]), (Value.ofEntries es).held? d.1 d.2.key)

/-- A map stores what it holds for its settings, and then what the maps of its sections store. -/
theorem stored_eq (schema : Schema) (path : Path) (es : Entries Value) :
    schema.stored path es =
      schema.settings.map (fun s => (path.entry s.key, Entries.get? es s.key)) ++
        schema.sections.flatMap fun node =>
          node.schema.stored (path.entry node.key) (Entries.read es node.key).entriesOrEmpty := by
  unfold stored
  rw [declaredSettings_eq schema, List.map_append, List.map_map, List.map_flatMap]
  congr 1
  refine congrArg (schema.sections.flatMap ·) (funext fun node => ?_)
  rw [List.map_map]
  refine List.map_congr_left fun d _ => ?_
  refine Prod.ext ?_ ?_
  · exact (Path.entry_append path node.key (d.1 ++ [d.2.key])).symm
  · show (Value.ofEntries es).held? (node.key :: d.1) d.2.key = _
    rw [Value.held?_cons]
    unfold Value.held?
    rw [Value.within_congr (Value.entriesOrEmpty_ofEntries _).symm]
    rfl

/-- The leaves of the raw map `v`, read where `scope` is inherited, are what `es` stores. -/
def LeavesShow (schema : Schema) (scope : Bequests) (v : Value) (es : Entries Value) : Prop :=
  ∀ path, ∃ leaves, schema.leaves scope path v = .ok leaves ∧
    leaves.map Leaf.view = schema.stored path es

/-- In the raw map `v` no inheriting setting is given an explicit nil. -/
def GivesNoNil (schema : Schema) (v : Value) : Prop :=
  ∀ d ∈ schema.declaredSettings, d.2.inherit = true →
    ∀ x ∈ v.held? d.1 d.2.key, x.isNil = false

instance (schema : Schema) (v : Value) : Decidable (schema.GivesNoNil v) :=
  inferInstanceAs (Decidable (∀ d ∈ schema.declaredSettings, d.2.inherit = true →
    ∀ x ∈ v.held? d.1 d.2.key, x.isNil = false))

theorem GivesNoNil.setting {schema : Schema} {v x : Value} (h : schema.GivesNoNil v) {s : Setting}
    (hs : s ∈ schema.settings) (hinherit : s.inherit = true)
    (hx : Entries.get? v.entriesOrEmpty s.key = some x) : x.isNil = false := by
  have hmem : ([], s) ∈ schema.declaredSettings := by
    rw [declaredSettings_eq]
    exact List.mem_append_left _ (List.mem_map_of_mem hs)
  exact h ([], s) hmem hinherit x hx

theorem GivesNoNil.section {schema : Schema} {v x : Value} (h : schema.GivesNoNil v)
    {node : Section} (hnode : node ∈ schema.sections)
    (hx : Entries.get? v.entriesOrEmpty node.key = some x) : node.schema.GivesNoNil x := by
  rintro ⟨keys, s⟩ hd hinherit y hy
  have hmem : (node.key :: keys, s) ∈ schema.declaredSettings := by
    rw [declaredSettings_eq]
    refine List.mem_append_right _ (List.mem_flatMap.2 ⟨node, hnode, ?_⟩)
    exact List.mem_map.2 ⟨(keys, s), hd, rfl⟩
  refine h (node.key :: keys, s) hmem hinherit y ?_
  show (v.held? (node.key :: keys) s.key) = some y
  rw [Value.held?_cons_of_get? hx]
  exact hy

theorem givesNoNil_emptyMap (schema : Schema) : schema.GivesNoNil .emptyMap := by
  rintro ⟨keys, s⟩ _ _ x hx
  cases keys with
  | nil => cases hx
  | cons key rest =>
    have hnone : Value.emptyMap.held? (key :: rest) s.key = none :=
      Value.held?_cons_of_get?_eq_none rfl rest s.key
    rw [hnone] at hx
    cases hx

/-- The visits of the settings. -/
def settingVisits (schema : Schema) : List (Slot Visit) := schema.settings.map Setting.visit

/-- The visits of the sections. -/
def sectionVisits (schema : Schema) : List (Slot LevelVisit) := schema.sections.map Section.visit

end Schema

/-- The leaves of a bequest, read where it was given, are what `es` stores. -/
def Bequest.Shows (b : Bequest) (schema : Schema) (es : Entries Value) : Prop :=
  schema.LeavesShow b.scope b.value es

@[simp] theorem Setting.key_visit (s : Setting) : s.visit.key = s.key := by cases s; rfl

@[simp] theorem Setting.inherit_visit (s : Setting) : s.visit.inherit = s.inherit := by
  cases s; rfl

@[simp] theorem Setting.run_visit (s : Setting) : s.visit.run = s.range.leaves := by cases s; rfl

@[simp] theorem Section.key_visit (node : Section) : node.visit.key = node.key := by
  cases node; rfl

@[simp] theorem Section.inherit_visit (node : Section) : node.visit.inherit = node.inherit := by
  cases node; rfl

@[simp] theorem Section.run_visit (node : Section) : node.visit.run = node.schema.leaves := by
  cases node; rfl

/-! ## What both sides inherit -/

/-- For the keys of the schemas `inners`, what is inherited in completing and in collecting leaves
is the same: the same raw value of a setting, which its range accepts as it is, and for a section
a completed map that the leaves of the raw one show. -/
structure Mirrors (inners : List Schema) (inherited : Entries Value) (bequests : Bequests) :
    Prop where
  absent : ∀ inner ∈ inners, ∀ key ∈ inner.keys, Entries.get? bequests key = none →
    Entries.get? inherited key = none
  setting : ∀ inner ∈ inners, ∀ s ∈ inner.settings, ∀ b,
    Entries.get? bequests s.key = some b →
      Entries.get? inherited s.key = some b.value ∧
        ∀ path, s.range.complete path b.value = .ok b.value
  nested : ∀ inner ∈ inners, ∀ node ∈ inner.sections, ∀ b,
    Entries.get? bequests node.key = some b →
      ∃ es, Entries.get? inherited node.key = some (.ofEntries es) ∧
        b.Shows node.schema es

theorem mirrors_nil (inners : List Schema) : Mirrors inners [] [] where
  absent _ _ _ _ _ := rfl
  setting _ _ _ _ _ h := nomatch h
  nested _ _ _ _ _ h := nomatch h

theorem Mirrors.mono {inners inners' : List Schema} {inherited : Entries Value}
    {bequests : Bequests} (h : Mirrors inners inherited bequests)
    (hsub : ∀ inner ∈ inners', inner ∈ inners) : Mirrors inners' inherited bequests where
  absent inner hinner := h.absent inner (hsub inner hinner)
  setting inner hinner := h.setting inner (hsub inner hinner)
  nested inner hinner := h.nested inner (hsub inner hinner)

section Levels

variable {schema : Schema} {inherited given : Entries Value} {bequests : Bequests} {path : Path}

theorem Schema.DistinctKeys.settingVisits (h : schema.DistinctKeys) :
    (schema.settingVisits.map Slot.key).Nodup := by
  simpa [Schema.settingVisits, Function.comp_def] using h.settings

theorem Schema.DistinctKeys.sectionVisits (h : schema.DistinctKeys) :
    (schema.sectionVisits.map Slot.key).Nodup := by
  simpa [Schema.sectionVisits, Function.comp_def] using h.sections

/-- Both sides hand down the same settings. -/
theorem handsDown_settingVisits (hd : schema.DistinctKeys) (key : String) :
    Slot.handsDown schema.settingVisits key = Slot.handsDown schema.settingSlots key := by
  rw [Bool.eq_iff_iff, Schema.handsDown_settingSlots hd, Schema.settingVisits,
    Slot.handsDown_map_iff hd.settingVisits]
  simp only [Setting.key_visit, Setting.inherit_visit, Schema.Inherits]

theorem handsDown_sectionVisits (hd : schema.DistinctKeys) {node : Section}
    (hnode : node ∈ schema.sections) :
    Slot.handsDown schema.sectionVisits node.key = node.inherit := by
  have hmem : node.visit ∈ schema.sectionVisits := List.mem_map_of_mem hnode
  simpa using Slot.handsDown_of_mem hd.sectionVisits hmem

/-- A setting hands down what is given for it, the same on both sides; under every other key both
sides inherit what they did. -/
theorem handedDown_cases (inherited : Entries Value) (bequests : Bequests)
    (hd : schema.DistinctKeys) (hn : (Entries.keys given).Nodup)
    {key : String} (hkey : key ≠ reservedKey) :
    (∃ s ∈ schema.settings, ∃ x, s.key = key ∧ s.inherit = true ∧
      Entries.get? given key = some x ∧
      Entries.get? (schema.handedDown inherited given) key = some x ∧
      Entries.get? (settingBequests schema.settingVisits bequests given) key =
        some ⟨x, bequests⟩) ∨
    (Entries.get? (schema.handedDown inherited given) key = Entries.get? inherited key ∧
      Entries.get? (settingBequests schema.settingVisits bequests given) key =
        Entries.get? bequests key) := by
  rw [Schema.get?_handedDown schema hkey hn, get?_settingBequests, handsDown_settingVisits hd]
  cases hdown : Slot.handsDown schema.settingSlots key with
  | false => exact .inr ⟨rfl, rfl⟩
  | true =>
    cases hx : Entries.get? given key with
    | none => exact .inr ⟨rfl, rfl⟩
    | some x =>
      obtain ⟨s, hs, hskey, hinherit⟩ := (Schema.handsDown_settingSlots hd).1 hdown
      exact .inl ⟨s, hs, x, hskey, hinherit, rfl, rfl, rfl⟩

/-- An inheriting section hands down what it was completed to on the one side and its raw map on the
other; under every other key both sides inherit what they did. -/
theorem handDownSection_cases (inherited : Entries Value) (bequests : Bequests)
    (hd : schema.DistinctKeys) {node : Section} (hnode : node ∈ schema.sections) (x : Value)
    (es : Entries Value) {key : String} (hkey : key ≠ reservedKey) :
    (node.key = key ∧ node.inherit = true ∧
      Entries.get? (handDownSection node.slot inherited es) key = some (.ofEntries es) ∧
      Entries.get? (if Slot.handsDown schema.sectionVisits node.key then
        (node.key, ⟨x, bequests⟩) :: bequests else bequests) key = some ⟨x, bequests⟩) ∨
    (Entries.get? (handDownSection node.slot inherited es) key = Entries.get? inherited key ∧
      Entries.get? (if Slot.handsDown schema.sectionVisits node.key then
        (node.key, ⟨x, bequests⟩) :: bequests else bequests) key = Entries.get? bequests key) := by
  rw [get?_handDownSection node.slot hkey, handsDown_sectionVisits hd hnode, Section.inherit_slot,
    Section.key_slot]
  cases hinherit : node.inherit with
  | false => exact .inr ⟨if_neg fun h => Bool.false_ne_true h.1, rfl⟩
  | true =>
    rw [if_pos rfl, Entries.get?_cons]
    by_cases heq : node.key = key
    · exact .inl ⟨heq, rfl, if_pos ⟨rfl, heq⟩, if_pos heq⟩
    · exact .inr ⟨if_neg fun h => heq h.2, if_neg heq⟩

/-- **Two walks in step.** What relates the two sides before the given sections, and is kept
whenever a section is completed on the one side and handed down on both, relates them in the end,
and wherever a section is completed. -/
theorem sections_in_step {R : Entries Value → Bequests → Prop} {progress : SectionProgress}
    (hd : schema.DistinctKeys)
    (hw : givenSections schema.sectionSlots path inherited given = .ok progress)
    (hstep : ∀ node ∈ schema.sections, ∀ x, (node.key, x) ∈ given → ∀ scope bequests es,
      R scope bequests → node.schema.complete scope (path.entry node.key) x = .ok es →
        R (handDownSection node.slot scope es)
          (if Slot.handsDown schema.sectionVisits node.key then
            (node.key, ⟨x, bequests⟩) :: bequests else bequests))
    (h : R inherited bequests) :
    R progress.inherited (sectionBequests schema.sectionVisits bequests given).inherited ∧
      ∀ node ∈ schema.sections, ∀ x, Entries.get? given node.key = some x →
        ∃ scope bequests' es, R scope bequests' ∧
          node.schema.complete scope (path.entry node.key) x = .ok es ∧
          Entries.get? progress.done node.key = some (.ofEntries es) ∧
          Entries.get? (sectionBequests schema.sectionVisits bequests given).present node.key =
            some ⟨x, bequests'⟩ := by
  induction given generalizing inherited bequests progress with
  | nil =>
    cases hw
    exact ⟨h, fun node _ x hx => nomatch hx⟩
  | cons e rest ih =>
    obtain ⟨k, v⟩ := e
    have hrest : ∀ node ∈ schema.sections, ∀ x, (node.key, x) ∈ rest → ∀ scope bequests es, _ :=
      fun node hnode x hx => hstep node hnode x (List.mem_cons_of_mem _ hx)
    have hdeclares : Slot.declares schema.sectionVisits k =
        (Slot.find? schema.sectionSlots k).isSome := by
      show _ = Slot.declares schema.sectionSlots k
      rw [Bool.eq_iff_iff, Slot.declares_iff, Slot.declares_iff]
      simp [Schema.sectionVisits, Schema.sectionSlots]
    -- both sides go through the same entries and stop at the same sections
    simp only [givenSections] at hw
    simp only [sectionBequests, hdeclares]
    cases hslot : Slot.find? schema.sectionSlots k with
    | none =>
      rw [hslot] at hw
      obtain ⟨hlast, hdone⟩ := ih hw hrest h
      refine ⟨hlast, fun node hnode x hx => ?_⟩
      have hne : k ≠ node.key := by
        rintro rfl
        rw [hd.find?_sectionSlots hnode] at hslot
        cases hslot
      rw [Entries.get?_cons, if_neg hne] at hx
      exact hdone node hnode x hx
    | some slot =>
      rw [hslot] at hw
      obtain ⟨node, hnode, rfl, rfl⟩ := Schema.exists_of_find?_sectionSlots hslot
      obtain ⟨es, hes, hw⟩ := bind_eq_ok_iff.1 hw
      obtain ⟨later, hlater, hw⟩ := bind_eq_ok_iff.1 hw
      cases hw
      rw [Section.run_slot] at hes
      obtain ⟨hlast, hdone⟩ := ih hlater hrest
        (hstep node hnode v List.mem_cons_self inherited bequests es h hes)
      refine ⟨hlast, fun node' hnode' x hx => ?_⟩
      simp only [Option.isSome_some, if_true]
      rw [Entries.get?_cons] at hx
      rw [Entries.get?_cons, Entries.get?_cons]
      by_cases heq : node.key = node'.key
      · obtain rfl : node = node' := by
          have hfind := hd.section?_of_mem hnode
          rw [heq, hd.section?_of_mem hnode'] at hfind
          exact (Option.some.inj hfind).symm
        rw [if_pos rfl] at hx
        cases hx
        exact ⟨inherited, bequests, es, h, hes, if_pos rfl, if_pos rfl⟩
      · rw [if_neg heq] at hx
        rw [if_neg heq, if_neg heq]
        exact hdone node' hnode' x hx

/-- All ranges of settings are plain. -/
def Schema.HasPlainSettings (schema : Schema) : Prop :=
  ∀ inner ∈ schema.nested, ∀ s ∈ inner.settings, s.range.IsPlain

theorem Schema.HasPlainSettings.section (h : schema.HasPlainSettings) {node : Section}
    (hnode : node ∈ schema.sections) : node.schema.HasPlainSettings :=
  fun inner hinner => h inner (Schema.mem_nested_of_section hnode hinner)

theorem Schema.HasPlainSettings.of_mem_nested (h : schema.HasPlainSettings) {inner : Schema}
    (hinner : inner ∈ schema.nested) : inner.HasPlainSettings :=
  fun innermost h' => h innermost (Schema.mem_nested_trans hinner h')

/-- **Handing settings down keeps the relation.** What is given for an inheriting setting is not
nil and was accepted, so it is accepted wherever it is inherited. -/
theorem mirrors_handedDown (hp : schema.Proper) (hc : schema.InheritanceConsistent)
    (hplain : schema.HasPlainSettings) (hn : (Entries.keys given).Nodup)
    (hgiven : ∀ s ∈ schema.settings, s.inherit = true → ∀ x,
      Entries.get? given s.key = some x →
        x.isNil = false ∧ ∃ path w, s.range.complete path x = .ok w)
    (h : Mirrors schema.enclosed inherited bequests) :
    Mirrors schema.enclosed (schema.handedDown inherited given)
      (settingBequests schema.settingVisits bequests given) := by
  have hself : schema ∈ schema.nested := schema.self_mem_nested
  have hcases : ∀ inner ∈ schema.enclosed, ∀ key ∈ inner.keys, _ := fun inner hinner key hkey =>
    handedDown_cases inherited bequests hp.distinctKeys hn
      (hp.ne_reservedKey (Schema.mem_nested_of_mem_enclosed hinner) hkey)
  constructor
  · intro inner hinner key hkey hnone
    rcases hcases inner hinner key hkey with ⟨s, _, x, _, _, _, _, hb⟩ | ⟨hE, hB⟩
    · rw [hb] at hnone
      cases hnone
    · rw [hE]
      exact h.absent inner hinner key hkey (hB ▸ hnone)
  · intro inner hinner s' hs' b hget
    rcases hcases inner hinner s'.key (Schema.mem_keys_of_setting hs') with
      ⟨s, hs, x, hkey, hinherit, hx, hE, hB⟩ | ⟨hE, hB⟩
    · -- the setting below has the same range, and that left the value alone
      rw [hB] at hget
      cases hget
      obtain ⟨hnil, _, w, hw⟩ := hgiven s hs hinherit x (hkey ▸ hx)
      have hrange : s'.range = s.range :=
        hc.range schema hself s hs hinherit inner hinner s' hs' hkey.symm
      have hsplain : s.range.IsPlain := hplain schema hself s hs
      obtain rfl : w = x := hsplain.eq_of_complete hw hnil
      refine ⟨hE, fun path' => ?_⟩
      rw [hrange]
      exact hsplain.complete_at hw path'
    · rw [hE]
      exact h.setting inner hinner s' hs' b (hB ▸ hget)
  · intro inner hinner node hnode b hget
    rcases hcases inner hinner node.key (Schema.mem_keys_of_section hnode) with
      ⟨s, hs, x, hkey, hinherit, _, _, _⟩ | ⟨hE, hB⟩
    · -- no section below has the key of an inheriting setting
      exact absurd hkey.symm (hc.setting schema hself s hs hinherit inner hinner node hnode)
    · rw [hE]
      exact h.nested inner hinner node hnode b (hB ▸ hget)

/-- Handing a section down keeps the relation, if the leaves of its raw map show the completed
one. -/
theorem mirrors_handDownSection (hp : schema.Proper) (hc : schema.InheritanceConsistent)
    (h : Mirrors schema.enclosed inherited bequests) {node : Section}
    (hnode : node ∈ schema.sections) {x : Value} {es : Entries Value}
    (hshow : node.schema.LeavesShow bequests x es) :
    Mirrors schema.enclosed (handDownSection node.slot inherited es)
      (if Slot.handsDown schema.sectionVisits node.key then (node.key, ⟨x, bequests⟩) :: bequests
        else bequests) := by
  have hself : schema ∈ schema.nested := schema.self_mem_nested
  have hcases : ∀ inner ∈ schema.enclosed, ∀ key ∈ inner.keys, _ := fun inner hinner key hkey =>
    handDownSection_cases inherited bequests hp.distinctKeys hnode x es
      (hp.ne_reservedKey (Schema.mem_nested_of_mem_enclosed hinner) hkey)
  constructor
  · intro inner hinner key hkey hnone
    rcases hcases inner hinner key hkey with ⟨_, _, _, hB⟩ | ⟨hE, hB⟩
    · rw [hB] at hnone
      cases hnone
    · rw [hE]
      exact h.absent inner hinner key hkey (hB ▸ hnone)
  · intro inner hinner s hs b hget
    rcases hcases inner hinner s.key (Schema.mem_keys_of_setting hs) with
      ⟨hkey, hinherit, _, _⟩ | ⟨hE, hB⟩
    · -- no setting below has the key of an inheriting section
      exact absurd hkey.symm ((hc.nested schema hself node hnode hinherit inner hinner).1 s hs)
    · rw [hE]
      exact h.setting inner hinner s hs b (hB ▸ hget)
  · intro inner hinner node' hnode' b hget
    rcases hcases inner hinner node'.key (Schema.mem_keys_of_section hnode') with
      ⟨hkey, hinherit, hE, hB⟩ | ⟨hE, hB⟩
    · -- the section below has the same schema, so the same leaves show the same map
      rw [hB] at hget
      cases hget
      refine ⟨es, hE, ?_⟩
      rw [(hc.nested schema hself node hnode hinherit inner hinner).2 node' hnode' hkey.symm]
      exact hshow
    · rw [hE]
      exact h.nested inner hinner node' hnode' b (hB ▸ hget)

/-- **Walking the given sections keeps the relation,** and each section comes to a completed map
that the leaves of its raw map show. -/
theorem mirrors_sections (hp : schema.Proper) (hc : schema.InheritanceConsistent)
    {progress : SectionProgress}
    (hw : givenSections schema.sectionSlots path inherited given = .ok progress)
    (hshow : ∀ node ∈ schema.sections, ∀ x, (node.key, x) ∈ given →
      ∀ {scope bequests path es}, Mirrors schema.enclosed scope bequests →
        node.schema.complete scope path x = .ok es → node.schema.LeavesShow bequests x es)
    (h : Mirrors schema.enclosed inherited bequests) :
    Mirrors schema.enclosed progress.inherited
        (sectionBequests schema.sectionVisits bequests given).inherited ∧
      ∀ node ∈ schema.sections, ∀ x, Entries.get? given node.key = some x →
        ∃ es b, Entries.get? progress.done node.key = some (.ofEntries es) ∧
          Entries.get? (sectionBequests schema.sectionVisits bequests given).present node.key =
            some b ∧ b.Shows node.schema es := by
  obtain ⟨hlast, hdone⟩ := sections_in_step (R := Mirrors schema.enclosed) hp.distinctKeys hw
    (fun node hnode x hx scope bequests es hmirrors hes =>
      mirrors_handDownSection hp hc hmirrors hnode (hshow node hnode x hx hmirrors hes)) h
  refine ⟨hlast, fun node hnode x hx => ?_⟩
  obtain ⟨scope, bequests', es, hmirrors, hes, hget, hpresent⟩ := hdone node hnode x hx
  exact ⟨es, ⟨x, bequests'⟩, hget, hpresent,
    hshow node hnode x (Entries.mem_of_get? hx) hmirrors hes⟩

end Levels

end LayeredConfig
