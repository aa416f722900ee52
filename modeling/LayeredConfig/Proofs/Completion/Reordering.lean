import LayeredConfig.Proofs.Completion.InheritedSections

/-!
# Maps with reordered keys

The order of the keys of a raw map matters in one respect only: a section that hands its map down
reaches those given sections that come after it.

- `Schema.Reordered`: two maps hold the same entries, the keys of the maps and of their section maps
  possibly in another order.
- `Schema.Asks`: completing a map looks a key up in what is inherited, since the key is declared
  somewhere and not given there. Nothing else of what is inherited matters.
- `Schema.InStep`: a section that hands its map down, and a given section that asks for its key,
  come in the same order in both maps.
- `Schema.complete_of_reordered`: reordered maps that are in step have the same completion, if any.

Where they are not in step, the completions differ (`Schema.complete_sampleFleet`).
-/

namespace LayeredConfig

namespace Schema

variable {schema : Schema} {v w : Value} {key : String} {node : Section}

/-! ## Reordered maps -/

/-- Two raw maps hold the same entries, and differ at most in the order of keys: of the maps
themselves, and in turn of their section maps. -/
inductive Reordered : Schema → Value → Value → Prop
  | refl (schema : Schema) (v : Value) : Reordered schema v v
  | map {schema : Schema} {v w : Value} (hv : v.isMap = true) (hw : w.isMap = true)
      (keys : (Entries.keys v.entriesOrEmpty).Perm (Entries.keys w.entriesOrEmpty))
      (alike : ∀ key, (∀ node ∈ schema.sections, node.key ≠ key) →
        Entries.get? v.entriesOrEmpty key = Entries.get? w.entriesOrEmpty key)
      (nested : ∀ node ∈ schema.sections, Reordered node.schema
        (Entries.read v.entriesOrEmpty node.key) (Entries.read w.entriesOrEmpty node.key)) :
      Reordered schema v w

/-- Maps with the same entries are reordered. -/
theorem reordered_of_perm {es es' : Entries Value} (hn : (Entries.keys es).Nodup)
    (h : es.Perm es') (schema : Schema) :
    schema.Reordered (.ofEntries es) (.ofEntries es') := by
  have hsame : ∀ key, Entries.get? es key = Entries.get? es' key := Entries.get?_eq_of_perm hn h
  refine .map rfl rfl (h.map Prod.fst) (fun key _ => hsame key) fun node _ => ?_
  rw [Value.entriesOrEmpty_ofEntries, Value.entriesOrEmpty_ofEntries, Entries.read, Entries.read,
    hsame]
  exact .refl _ _

theorem Reordered.symm (h : schema.Reordered v w) : schema.Reordered w v := by
  induction h with
  | refl schema v => exact .refl schema v
  | map hv hw keys alike nested ih =>
    exact .map hw hv keys.symm (fun key hkey => (alike key hkey).symm) ih

theorem Reordered.isMap (h : schema.Reordered v w) (hv : v.isNil = true ∨ v.isMap = true) :
    w.isNil = true ∨ w.isMap = true := by
  cases h with
  | refl => exact hv
  | map _ hw => exact .inr hw

theorem Reordered.keys (h : schema.Reordered v w) :
    (Entries.keys v.entriesOrEmpty).Perm (Entries.keys w.entriesOrEmpty) := by
  cases h with
  | refl => exact .refl _
  | map _ _ keys => exact keys

theorem Reordered.get?_eq_none_iff (h : schema.Reordered v w) (key : String) :
    Entries.get? v.entriesOrEmpty key = none ↔ Entries.get? w.entriesOrEmpty key = none := by
  rw [Entries.get?_eq_none_iff, Entries.get?_eq_none_iff, h.keys.mem_iff]

/-- Settings are given alike. -/
theorem Reordered.get?_setting (h : schema.Reordered v w) (hd : schema.DistinctKeys) {s : Setting}
    (hs : s ∈ schema.settings) :
    Entries.get? v.entriesOrEmpty s.key = Entries.get? w.entriesOrEmpty s.key := by
  cases h with
  | refl => rfl
  | map _ _ _ alike => exact alike s.key fun node hnode => (hd.ne hs hnode).symm

theorem Reordered.section (h : schema.Reordered v w) (hnode : node ∈ schema.sections) :
    node.schema.Reordered (Entries.read v.entriesOrEmpty node.key)
      (Entries.read w.entriesOrEmpty node.key) := by
  cases h with
  | refl => exact .refl _ _
  | map _ _ _ _ nested => exact nested node hnode

theorem Reordered.within (h : schema.Reordered v w) {keys : List String} {inner : Schema}
    (hinner : schema.under? keys = some inner) :
    inner.Reordered (.ofEntries (v.within keys)) (.ofEntries (w.within keys)) := by
  induction keys generalizing schema v w with
  | nil =>
    cases hinner
    cases h with
    | refl => exact .refl _ _
    | map hv hw keys alike nested => exact .map rfl rfl keys alike nested
  | cons head rest ih =>
    obtain ⟨node, hfind, hrest⟩ := under?_cons_eq_some_iff.1 hinner
    obtain ⟨hnode, rfl⟩ := mem_of_section? hfind
    exact ih (h.section hnode) hrest

/-! ## What is asked for -/

/-- Completing the map looks the key up in what is inherited: at some depth the key is declared and
not given. -/
inductive Asks : Schema → Value → String → Prop
  | here {schema : Schema} {v : Value} {key : String} (hkey : key ∈ schema.keys)
      (absent : Entries.get? v.entriesOrEmpty key = none) : Asks schema v key
  | inside {schema : Schema} {v : Value} {key : String} {node : Section}
      (hnode : node ∈ schema.sections)
      (h : Asks node.schema (Entries.read v.entriesOrEmpty node.key) key) : Asks schema v key

theorem Asks.ne_reservedKey (h : schema.Asks v key) (hp : schema.Proper) : key ≠ reservedKey := by
  induction h with
  | @here schema _ _ hkey _ => exact hp.ne_reservedKey schema.self_mem_nested hkey
  | inside hnode _ ih => exact ih (hp.section hnode)

/-- Reordered maps ask for the same. -/
theorem Asks.reordered (h : schema.Asks v key) (hr : schema.Reordered v w) :
    schema.Asks w key := by
  induction h generalizing w with
  | @here _ _ key hkey absent => exact .here hkey ((hr.get?_eq_none_iff key).1 absent)
  | inside hnode _ ih => exact .inside hnode (ih (hr.section hnode))

/-- At every level, where an inheriting section meets a section that asks for its key, they come in
the same order in both maps. -/
def InStep (schema : Schema) (v w : Value) : Prop :=
  ∀ keys inner, schema.under? keys = some inner →
    ∀ node ∈ inner.sections, node.inherit = true → ∀ other ∈ inner.sections,
      other.schema.Asks (Entries.read (v.within keys) other.key) node.key →
        ([node.key, other.key].Sublist (Entries.keys (v.within keys)) ↔
          [node.key, other.key].Sublist (Entries.keys (w.within keys)))

theorem InStep.section (h : schema.InStep v w) (hd : schema.DistinctKeys)
    (hnode : node ∈ schema.sections) :
    node.schema.InStep (Entries.read v.entriesOrEmpty node.key)
      (Entries.read w.entriesOrEmpty node.key) := by
  intro keys inner hinner
  rw [← hd.under?_cons hnode] at hinner
  exact h (node.key :: keys) inner hinner

theorem InStep.symm (h : schema.InStep v w) (hr : schema.Reordered v w) : schema.InStep w v := by
  intro keys inner hinner node hnode hdown other hother hasks
  have hsection := (hr.within hinner).symm.section hother
  exact (h keys inner hinner node hnode hdown other hother (hasks.reordered hsection)).symm

/-- What an inheriting section hands down comes before a section that asks for it in both maps, or
in neither. -/
theorem InStep.mem_before_iff (h : schema.InStep v w) (hr : schema.Reordered v w)
    (hv : v.WellFormed) (hw : w.WellFormed) (hdown : schema.InheritsSection key)
    (hnode : node ∈ schema.sections)
    (hasks : node.schema.Asks (Entries.read v.entriesOrEmpty node.key) key) :
    key ∈ Entries.keys (v.entriesOrEmpty.before node.key) ↔
      key ∈ Entries.keys (w.entriesOrEmpty.before node.key) := by
  obtain ⟨giver, hgiver, rfl, hinherit⟩ := hdown
  have horder := h [] schema rfl giver hgiver hinherit node hnode hasks
  rw [Entries.mem_keys_before_iff hv.nodup, Entries.mem_keys_before_iff hw.nodup,
    hr.keys.mem_iff, hr.keys.mem_iff]
  exact and_congr_right fun _ => or_congr_right horder

/-! ## The same scopes -/

section Scopes

variable {scope scope' inner inner' out : Entries Value} {path : Path}

/-- A setting that is not given is asked for, so it comes to the same. -/
theorem Reordered.outcome_setting (hr : schema.Reordered v w) (hd : schema.DistinctKeys)
    (hscope : ∀ key, schema.Asks v key → Entries.get? scope key = Entries.get? scope' key)
    {s : Setting} (hs : s ∈ schema.settings) :
    s.outcome scope v.entriesOrEmpty path = s.outcome scope' w.entriesOrEmpty path := by
  unfold Setting.outcome
  rw [← hr.get?_setting hd hs]
  cases hgiven : Entries.get? v.entriesOrEmpty s.key with
  | some x => rfl
  | none => rw [hscope s.key (.here (mem_keys_of_setting hs) hgiven)]

/-- What comes of a section comes of its reordering, too, if its map comes to the same, and the same
is inherited in its place where it is not given. -/
theorem Reordered.outcome_section (hr : schema.Reordered v w)
    (htaken : Entries.get? v.entriesOrEmpty node.key = none →
      Entries.get? inner node.key = Entries.get? inner' node.key)
    (hcompleted : ∀ es,
      node.schema.complete inner (path.entry node.key)
        (Entries.read v.entriesOrEmpty node.key) = .ok es →
      node.schema.complete inner' (path.entry node.key)
        (Entries.read w.entriesOrEmpty node.key) = .ok es)
    {x : Value} (h : node.outcome inner v.entriesOrEmpty path = .ok x) :
    node.outcome inner' w.entriesOrEmpty path = .ok x := by
  cases hw : Entries.get? w.entriesOrEmpty node.key with
  | some y =>
    have hgiven : Entries.get? v.entriesOrEmpty node.key ≠ none := by
      rw [ne_eq, hr.get?_eq_none_iff, hw]
      exact Option.some_ne_none y
    obtain ⟨y', hv⟩ := Option.ne_none_iff_exists'.1 hgiven
    rw [Section.outcome_of_given hv] at h
    obtain ⟨es, hes, rfl⟩ := map_eq_ok_iff.1 h
    rw [← Entries.read_of_get? hv] at hes
    rw [Section.outcome_of_given hw, ← Entries.read_of_get? hw]
    exact map_eq_ok_iff.2 ⟨es, hcompleted es hes, rfl⟩
  | none =>
    have hv : Entries.get? v.entriesOrEmpty node.key = none :=
      (hr.get?_eq_none_iff node.key).2 hw
    cases hinner : Entries.get? inner node.key with
    | some y =>
      rw [Section.outcome_of_inherited hv hinner] at h
      rw [Section.outcome_of_inherited hw ((htaken hv).symm.trans hinner)]
      exact h
    | none =>
      rw [Section.outcome_of_not_inherited hinner] at h
      rw [Section.outcome_of_not_inherited ((htaken hv).symm.trans hinner)]
      obtain ⟨es, hes, rfl⟩ := map_eq_ok_iff.1 h
      exact map_eq_ok_iff.2 ⟨es, hcompleted es hes, rfl⟩

/-- Below the settings, too, the same is inherited under a key that is asked for. -/
theorem Reordered.get?_handedDown (hr : schema.Reordered v w) (hp : schema.Proper)
    (hv : v.WellFormed) (hw : w.WellFormed)
    (hscope : ∀ key, schema.Asks v key → Entries.get? scope key = Entries.get? scope' key)
    (hasks : schema.Asks v key) :
    Entries.get? (schema.handedDown scope v.entriesOrEmpty) key =
      Entries.get? (schema.handedDown scope' w.entriesOrEmpty) key := by
  have hkey : key ≠ reservedKey := hasks.ne_reservedKey hp
  rw [Schema.get?_handedDown schema hkey hv.nodup, Schema.get?_handedDown schema hkey hw.nodup,
    hscope key hasks]
  split
  · rename_i hdown
    obtain ⟨s, hs, rfl, -⟩ := (handsDown_settingSlots hp.distinctKeys).1 hdown
    rw [hr.get?_setting hp.distinctKeys hs]
  · rfl

/-- Where two walks come to the same key, they have the same in scope under a key that is asked for,
unless an inheriting section of that key comes before in one map only. -/
theorem Reordered.get?_walkScope (hr : schema.Reordered v w) (hp : schema.Proper)
    (hv : v.WellFormed) (hw : w.WellFormed)
    (hscope : ∀ key, schema.Asks v key → Entries.get? scope key = Entries.get? scope' key)
    {head : String}
    (hinner : WalkScope schema.sectionSlots (schema.handedDown scope v.entriesOrEmpty)
      v.entriesOrEmpty out head inner)
    (hinner' : WalkScope schema.sectionSlots (schema.handedDown scope' w.entriesOrEmpty)
      w.entriesOrEmpty out head inner')
    (hasks : schema.Asks v key)
    (hbefore : schema.InheritsSection key → (key ∈ Entries.keys (v.entriesOrEmpty.before head) ↔
      key ∈ Entries.keys (w.entriesOrEmpty.before head))) :
    Entries.get? inner key = Entries.get? inner' key := by
  have hkey : key ≠ reservedKey := hasks.ne_reservedKey hp
  rw [hinner key hkey, hinner' key hkey, hr.get?_handedDown hp hv hw hscope hasks]
  by_cases hdown : Slot.handsDown schema.sectionSlots key = true
  · simp only [hdown, true_and, hbefore ((handsDown_sectionSlots hp.distinctKeys).1 hdown)]
  · rw [if_neg fun h => hdown h.1, if_neg fun h => hdown h.1]

/-- **Completion does not look at the order of keys,** as long as the maps are in step and the same
is inherited under the keys that are asked for. -/
theorem Reordered.complete_eq_ok (hr : schema.Reordered v w) (hp : schema.Proper)
    (hv : v.WellFormed) (hw : w.WellFormed) (hs : schema.InStep v w)
    (hscope : ∀ key, schema.Asks v key → Entries.get? scope key = Entries.get? scope' key)
    (h : schema.complete scope path v = .ok out) : schema.complete scope' path w = .ok out := by
  induction schema using Schema.induction generalizing v w scope scope' path out with
  | step schema ih =>
    obtain ⟨hshape, filled, progress, hfilled, hdone⟩ := levelDone_of_complete hp hv.nodup h
    have hout : ∀ node ∈ schema.sections,
        Entries.get? out node.key = Entries.get? filled node.key := by
      intro node hnode
      rw [hfilled]
      exact get?_rebuild_of_mem_keys hp hdone (mem_keys_of_section hnode)
    -- what comes of a section in its scope comes of its reordering in the scope there
    have hsection : ∀ node ∈ schema.sections, ∀ inner inner' x,
        WalkScope schema.sectionSlots (schema.handedDown scope v.entriesOrEmpty)
          v.entriesOrEmpty out node.key inner →
        WalkScope schema.sectionSlots (schema.handedDown scope' w.entriesOrEmpty)
          w.entriesOrEmpty out node.key inner' →
        node.outcome inner v.entriesOrEmpty path = .ok x →
        node.outcome inner' w.entriesOrEmpty path = .ok x := by
      intro node hnode inner inner' x hinner hinner'
      refine hr.outcome_section (fun habsent => ?_) fun es => ?_
      · -- a section that is given in neither map is asked for itself
        refine hr.get?_walkScope hp hv hw hscope hinner hinner'
          (.here (mem_keys_of_section hnode) habsent) fun _ => ?_
        rw [Entries.before_of_get?_eq_none habsent,
          Entries.before_of_get?_eq_none ((hr.get?_eq_none_iff node.key).1 habsent)]
        exact hr.keys.mem_iff
      · refine ih node hnode (hr.section hnode) (hp.section hnode) (hv.read node.key)
          (hw.read node.key) (hs.section hp.distinctKeys hnode) fun key hasks => ?_
        exact hr.get?_walkScope hp hv hw hscope hinner hinner' (.inside hnode hasks)
          fun hdown => hs.mem_before_iff hr hv hw hdown hnode hasks
    obtain ⟨progress', hwalked, hgiven, hlast⟩ : ∃ progress',
        givenSections schema.sectionSlots path (schema.handedDown scope' w.entriesOrEmpty)
          w.entriesOrEmpty = .ok progress' ∧
        (∀ k x slot, Entries.get? w.entriesOrEmpty k = some x →
          Slot.find? schema.sectionSlots k = some slot →
            Entries.get? progress'.done k = Entries.get? out k) ∧
        ∀ head, Entries.get? w.entriesOrEmpty head = none →
          WalkScope schema.sectionSlots (schema.handedDown scope' w.entriesOrEmpty)
            w.entriesOrEmpty out head progress'.inherited := by
      refine givenSections_exists_of_completed hw.nodup fun k x slot inner' hx hslot hinner' => ?_
      obtain ⟨node, hnode, rfl, rfl⟩ := exists_of_find?_sectionSlots hslot
      obtain ⟨inner, y, hinner, hy, hget⟩ := section_of_complete hp hv h hnode
      have hsame := hsection node hnode inner inner' y
        (walkScope_of_sectionScope hp hv h hinner) hinner' hy
      rw [Section.outcome_of_given hx] at hsame
      obtain ⟨es, hes, rfl⟩ := map_eq_ok_iff.1 hsame
      exact ⟨es, by rw [Section.run_slot]; exact hes, hget⟩
    -- so the level of the other map is filled with the same values
    suffices hdone' : schema.LevelDone scope' path w.entriesOrEmpty filled progress' by
      rw [hfilled]
      exact hdone'.complete_eq_ok hp hw.nodup (hr.isMap hshape)
    refine ⟨fun key hkey => hdone.declared key (hr.keys.mem_iff.2 hkey), hdone.keys,
      fun s hs' => ?_, hwalked, fun node hnode => ?_⟩
    · rw [← hr.outcome_setting hp.distinctKeys hscope hs']
      exact hdone.setting s hs'
    · obtain ⟨inner, y, hinner, hy, hget⟩ := hdone.section_in_scope hp hnode
      refine ⟨y, ?_, hget⟩
      cases hx : Entries.get? w.entriesOrEmpty node.key with
      | some x =>
        have hat := hgiven node.key x node.slot hx (hp.distinctKeys.find?_sectionSlots hnode)
        rw [slotValue, Section.key_slot, hat, hout node hnode, hget]
        rfl
      | none =>
        rw [slotValue_eq_outcome_of_absent hwalked hx]
        exact hsection node hnode inner progress'.inherited y
          (walkScope_of_sectionScope hp hv h hinner) (hlast node.key hx) hy

end Scopes

/-! ## The order of keys -/

/-- **The order of keys does not matter,** to whether a map is accepted and to what becomes of it,
except for whether a section that hands its map down comes before a section that asks for it. -/
theorem complete_of_reordered (hp : schema.Proper) (hv : v.WellFormed) (hw : w.WellFormed)
    (hr : schema.Reordered v w) (hs : schema.InStep v w) (path : Path) :
    ((Range.schema schema).complete path v).toOption =
      ((Range.schema schema).complete path w).toOption := by
  refine toOption_congr fun x => ?_
  constructor
  · intro hx
    obtain ⟨out, hout, rfl⟩ := map_eq_ok_iff.1 hx
    exact map_eq_ok_iff.2 ⟨out, hr.complete_eq_ok hp hv hw hs (fun _ _ => rfl) hout, rfl⟩
  · intro hx
    obtain ⟨out, hout, rfl⟩ := map_eq_ok_iff.1 hx
    exact map_eq_ok_iff.2
      ⟨out, hr.symm.complete_eq_ok hp hw hv (hs.symm hr) (fun _ _ => rfl) hout, rfl⟩

/-- A sample schema of a fleet that hands its limit down, with a pool that has a limit, too. -/
def sampleFleet : Schema :=
  ⟨"fleet", [⟨"name", "name of the fleet", Range.string (.text "none"), false⟩],
    [⟨"limit", sampleLimit, true⟩,
      ⟨"pool", ⟨"pool", [], [⟨"limit", sampleLimit, false⟩]⟩, false⟩]⟩

/-- A fleet that gives its limit first. -/
def sampleFleetMap : Value :=
  .ofEntries [("name", .text "blue"), ("limit", .ofEntries [("mode", .text "lax")]),
    ("pool", .emptyMap)]

/-- The same fleet, its limit given after the pool. -/
def sampleFleetMapLate : Value :=
  .ofEntries [("name", .text "blue"), ("pool", .emptyMap),
    ("limit", .ofEntries [("mode", .text "lax")])]

/-- The pool of the sample fleet has the limit of the fleet only if that is given first. So the
order of keys makes a difference to what becomes of a map. -/
theorem complete_sampleFleet :
    sampleFleet.Proper ∧ sampleFleetMap.WellFormed ∧ sampleFleetMapLate.WellFormed ∧
      sampleFleet.Reordered sampleFleetMap sampleFleetMapLate ∧
      ((Range.schema sampleFleet).complete [] sampleFleetMap).toOption ≠
        ((Range.schema sampleFleet).complete [] sampleFleetMapLate).toOption := by
  refine ⟨by decide, ?_, ?_, ?_, fun hsame => ?_⟩
  · simp +decide [sampleFleetMap, Value.emptyMap, Value.wellFormed_ofEntries_iff,
      Value.WellFormed.text]
  · simp +decide [sampleFleetMapLate, Value.emptyMap, Value.wellFormed_ofEntries_iff,
      Value.WellFormed.text]
  · exact reordered_of_perm (by decide) (.cons _ (.swap _ _ _)) sampleFleet
  · have hmode : some (Value.text "lax") = some (Value.text "strict") :=
      congrArg (fun x => x.bind fun w => w.held? ["pool", "limit"] "mode") hsame
    simp at hmode

/-- The sample fleet with its keys in another order, the limit still given before the pool. -/
def sampleFleetMapMoved : Value :=
  .ofEntries [("limit", .ofEntries [("mode", .text "lax")]), ("pool", .emptyMap),
    ("name", .text "blue")]

/-- The sample fleet comes to the same when its limit stays before its pool. -/
theorem complete_sampleFleetMapMoved :
    sampleFleet.InStep sampleFleetMap sampleFleetMapMoved ∧
      ((Range.schema sampleFleet).complete [] sampleFleetMap).toOption =
        ((Range.schema sampleFleet).complete [] sampleFleetMapMoved).toOption := by
  have hmap : sampleFleetMap.WellFormed := by
    simp +decide [sampleFleetMap, Value.emptyMap, Value.wellFormed_ofEntries_iff,
      Value.WellFormed.text]
  have hmoved : sampleFleetMapMoved.WellFormed := by
    simp +decide [sampleFleetMapMoved, Value.emptyMap, Value.wellFormed_ofEntries_iff,
      Value.WellFormed.text]
  have hreordered : sampleFleet.Reordered sampleFleetMap sampleFleetMapMoved :=
    reordered_of_perm (by decide) ((List.Perm.swap _ _ _).trans (.cons _ (.swap _ _ _))) sampleFleet
  have hstep : sampleFleet.InStep sampleFleetMap sampleFleetMapMoved := by
    have htop : ∀ node ∈ sampleFleet.sections, ∀ other ∈ sampleFleet.sections,
        ([node.key, other.key].Sublist (Entries.keys sampleFleetMap.entriesOrEmpty) ↔
          [node.key, other.key].Sublist (Entries.keys sampleFleetMapMoved.entriesOrEmpty)) := by
      decide
    have hbelow : ∀ inner ∈ sampleFleet.enclosed, ∀ node ∈ inner.sections,
        node.inherit = false := by decide
    intro keys inner hinner node hnode hdown other hother _
    cases keys with
    | nil =>
      cases hinner
      exact htop node hnode other hother
    | cons head rest =>
      -- below the fleet, no section hands anything down
      obtain ⟨giver, hfind, hrest⟩ := under?_cons_eq_some_iff.1 hinner
      have hinner : inner ∈ sampleFleet.enclosed :=
        mem_enclosed_iff.2 ⟨_, (mem_of_section? hfind).1, mem_nested_of_under? hrest⟩
      rw [hbelow inner hinner node hnode] at hdown
      cases hdown
  exact ⟨hstep, complete_of_reordered (by decide) hmap hmoved hreordered hstep []⟩

end Schema

end LayeredConfig
