import LayeredConfig.Proofs.Completion.Normalization
import LayeredConfig.Proofs.Completion.Places

/-!
# Where an inherited value comes from

A setting that is not given in its place takes the value from the nearest section around it, or the
top, that is given the setting and hands it down; else it takes what is inherited from outside
(`Schema.normalize_inherits`).

- `Schema.HandsDown`: a place around a setting, known by the number of sections to it, hands a
  value down. A setting of the same key that does not inherit, or is not given, hands nothing
  down and is passed over.
- `Schema.bequest?`: the value from the nearest such place. It is the one of the greatest number
  (`bequest?_eq_some_iff`), and it is what is found in `Schema.inheritedAt`
  (`get?_inheritedAt`).
-/

namespace LayeredConfig

namespace Schema

/-- On the way through the sections `keys`, the place after the first `j` of them hands down the
value `x`: it declares the key as that of an inheriting setting, and the raw map holds `x` there. -/
structure HandsDown (schema : Schema) (v : Value) (keys : List String) (key : String) (j : Nat)
    (x : Value) : Prop where
  before : j < keys.length
  declared : ∃ outer, schema.under? (keys.take j) = some outer ∧ outer.Inherits key
  owned : v.held? (keys.take j) key = some x

/-- What the nearest place on the way through sections hands down. -/
def bequest? : Schema → Value → List String → String → Option Value
  | _, _, [], _ => none
  | schema, v, head :: rest, key =>
    match schema.section? head with
    | some node =>
      (node.schema.bequest? (Entries.read v.entriesOrEmpty head) rest key).or
        (if schema.Inherits key then Entries.get? v.entriesOrEmpty key else none)
    | none => none

variable {schema : Schema} {v x : Value} {keys rest : List String} {head key : String}
  {inherited : Entries Value} {j : Nat}

/-! ## The nearest place -/

theorem handsDown_zero_iff :
    schema.HandsDown v (head :: rest) key 0 x ↔
      schema.Inherits key ∧ Entries.get? v.entriesOrEmpty key = some x := by
  constructor
  · rintro ⟨-, ⟨outer, houter, hinherits⟩, howned⟩
    cases houter
    exact ⟨hinherits, howned⟩
  · rintro ⟨hinherits, howned⟩
    exact ⟨Nat.zero_lt_succ _, ⟨schema, rfl, hinherits⟩, howned⟩

theorem handsDown_succ_iff {node : Section} (hnode : schema.section? head = some node) :
    schema.HandsDown v (head :: rest) key (j + 1) x ↔
      node.schema.HandsDown (Entries.read v.entriesOrEmpty head) rest key j x := by
  constructor
  · rintro ⟨hj, ⟨outer, houter, hinherits⟩, howned⟩
    obtain ⟨node', hnode', hrest⟩ := under?_cons_eq_some_iff.1 houter
    cases hnode.symm.trans hnode'
    exact ⟨Nat.lt_of_succ_lt_succ hj, ⟨outer, hrest, hinherits⟩, howned⟩
  · rintro ⟨hj, ⟨outer, houter, hinherits⟩, howned⟩
    have hunder : schema.under? (head :: rest.take j) = some outer :=
      under?_cons_eq_some_iff.2 ⟨node, hnode, houter⟩
    exact ⟨Nat.succ_lt_succ hj, ⟨outer, hunder, hinherits⟩, howned⟩

theorem bequest?_eq_none_iff {inner : Schema} (hinner : schema.under? keys = some inner) :
    schema.bequest? v keys key = none ↔ ∀ j x, ¬schema.HandsDown v keys key j x := by
  induction keys generalizing schema v with
  | nil => exact ⟨fun _ j x h => Nat.not_lt_zero j h.before, fun _ => rfl⟩
  | cons head rest ih =>
    obtain ⟨node, hnode, hrest⟩ := under?_cons_eq_some_iff.1 hinner
    rw [bequest?, hnode]
    show Option.or _ _ = none ↔ _
    rw [Option.or_eq_none_iff, ih hrest]
    constructor
    · rintro ⟨hbelow, hhere⟩ j x h
      cases j with
      | zero =>
        obtain ⟨hinherits, howned⟩ := handsDown_zero_iff.1 h
        rw [if_pos hinherits, howned] at hhere
        cases hhere
      | succ j => exact hbelow j x ((handsDown_succ_iff hnode).1 h)
    · intro h
      refine ⟨fun j x hj => h (j + 1) x ((handsDown_succ_iff hnode).2 hj), ?_⟩
      split
      · rename_i hinherits
        refine Option.eq_none_iff_forall_ne_some.2 fun x hx => ?_
        exact h 0 x (handsDown_zero_iff.2 ⟨hinherits, hx⟩)
      · rfl

/-- **The nearest place is the one after the most sections.** -/
theorem bequest?_of_handsDown {inner : Schema} (hinner : schema.under? keys = some inner)
    (h : schema.HandsDown v keys key j x)
    (hlast : ∀ i y, schema.HandsDown v keys key i y → i ≤ j) :
    schema.bequest? v keys key = some x := by
  induction keys generalizing schema v j with
  | nil => exact absurd h.before (Nat.not_lt_zero j)
  | cons head rest ih =>
    obtain ⟨node, hnode, hrest⟩ := under?_cons_eq_some_iff.1 hinner
    rw [bequest?, hnode]
    show Option.or _ _ = _
    cases j with
    | zero =>
      -- no place further down hands anything down, or its number would be greater
      have hbelow : node.schema.bequest? (Entries.read v.entriesOrEmpty head) rest key = none := by
        refine (bequest?_eq_none_iff hrest).2 fun i y hi => ?_
        exact Nat.not_succ_le_zero i (hlast (i + 1) y ((handsDown_succ_iff hnode).2 hi))
      obtain ⟨hinherits, howned⟩ := handsDown_zero_iff.1 h
      rw [hbelow, if_pos hinherits, howned]
      rfl
    | succ j =>
      have hbelow : node.schema.bequest? (Entries.read v.entriesOrEmpty head) rest key = some x :=
        ih hrest ((handsDown_succ_iff hnode).1 h) fun i y hi =>
          Nat.le_of_succ_le_succ (hlast (i + 1) y ((handsDown_succ_iff hnode).2 hi))
      rw [hbelow]
      rfl

/-- Below the settings of a level, its inheriting settings are seen as given, and else what the
level itself inherits. -/
theorem get?_handedDown_eq_or (hd : schema.DistinctKeys)
    (hn : (Entries.keys v.entriesOrEmpty).Nodup) (hkey : key ≠ reservedKey) :
    Entries.get? (schema.handedDown inherited v.entriesOrEmpty) key =
      (if schema.Inherits key then Entries.get? v.entriesOrEmpty key else none).or
        (Entries.get? inherited key) := by
  have hdown : Slot.handsDown schema.settingSlots key = true ↔ schema.Inherits key :=
    handsDown_settingSlots hd
  rw [get?_handedDown schema hkey hn]
  by_cases hinherits : schema.Inherits key
  · rw [if_pos (hdown.2 hinherits), if_pos hinherits]
  · rw [if_neg (mt hdown.1 hinherits), if_neg hinherits]
    rfl

/-- What is inherited in a place is what the nearest place around it hands down, or else what is
inherited at the top. -/
theorem get?_inheritedAt (hp : schema.Proper) (hv : v.WellFormed) (hkey : key ≠ reservedKey)
    {inner : Schema} (hinner : schema.under? keys = some inner) :
    Entries.get? (schema.inheritedAt inherited v keys) key =
      (schema.bequest? v keys key).or (Entries.get? inherited key) := by
  induction keys generalizing schema v inherited with
  | nil => rfl
  | cons head rest ih =>
    obtain ⟨node, hnode, hrest⟩ := under?_cons_eq_some_iff.1 hinner
    rw [inheritedAt, bequest?, hnode]
    show Entries.get? (node.schema.inheritedAt _ _ rest) key = Option.or (Option.or _ _) _
    rw [ih (hp.section (mem_of_section? hnode).1) (hv.read head) hrest,
      get?_handedDown_eq_or hp.distinctKeys hv.nodup hkey, Option.or_assoc]

/-! ## The value of a setting -/

/-- **Inheritance from the nearest place.** If a map without profiles is normalized, and nothing
inherited stands in for a section, the value that is held at a declared setting is

- the completed value that is given in its place;
- else the value that the nearest place around it hands down, as it is;
- else the value inherited from outside, as it is;
- else what nothing completes to. -/
theorem normalize_inherits {package : Log.Logger} {map : Value} {path : Path}
    {out : Entries Value} (hp : schema.Proper) (hk : schema.SectionsKept inherited)
    (hmap : map.WellFormed) (hprofiles : Entries.get? map.entriesOrEmpty profilesKey = none)
    (h : (schema.normalize package [] map inherited path).result = .ok (.ok out))
    {inner : Schema} (hinner : schema.under? keys = some inner) {s : Setting}
    (hs : s ∈ inner.settings) :
    ∃ w, (Value.ofEntries out).held? keys s.key = some w ∧
      (∀ x, map.held? keys s.key = some x →
        s.range.complete (path ++ Path.ofKeys (keys ++ [s.key])) x = .ok w) ∧
      (map.held? keys s.key = none →
        (∀ j x, schema.HandsDown map keys s.key j x →
          (∀ i y, schema.HandsDown map keys s.key i y → i ≤ j) → w = x) ∧
        ((∀ j x, ¬schema.HandsDown map keys s.key j x) →
          (∀ x, Entries.get? inherited s.key = some x → w = x) ∧
          (Entries.get? inherited s.key = none →
            s.range.complete (path ++ Path.ofKeys (keys ++ [s.key])) .undefined = .ok w))) := by
  have hkey : s.key ≠ reservedKey :=
    hp.ne_reservedKey (mem_nested_of_under? hinner) (mem_keys_of_setting hs)
  obtain ⟨w, hheld, hw⟩ :=
    held?_of_complete hp hk hmap (complete_of_normalize hprofiles h) hinner hs
  have hscope : Entries.get? (schema.inheritedAt inherited map keys) s.key =
      (schema.bequest? map keys s.key).or (Entries.get? inherited s.key) :=
    get?_inheritedAt hp hmap hkey hinner
  refine ⟨w, hheld, ?_, ?_⟩
  · intro x hx
    rw [Setting.outcome_of_given hx, Path.append_entry] at hw
    exact hw
  · intro hnone
    constructor
    · intro j x hj hlast
      rw [bequest?_of_handsDown hinner hj hlast] at hscope
      rw [Setting.outcome_of_inherited hnone hscope] at hw
      exact (Except.ok.inj hw).symm
    · intro hnowhere
      rw [(bequest?_eq_none_iff hinner).2 hnowhere, Option.none_or] at hscope
      constructor
      · intro x hx
        rw [Setting.outcome_of_inherited hnone (hscope.trans hx)] at hw
        exact (Except.ok.inj hw).symm
      · intro habsent
        rw [Setting.outcome_of_absent hnone (hscope.trans habsent), Path.append_entry] at hw
        exact hw

/-- A sample schema of a zone in which a host is nested. The level of the zone itself is not handed
down, that of its surroundings is. -/
def sampleZone (inherit : Bool) (sections : List Section) : Schema :=
  ⟨"zone", [⟨"level", "log level", Range.string (.text "info"), inherit⟩], sections⟩

/-- A sample schema of nested zones. -/
def sampleZones : Schema :=
  sampleZone true [⟨"region", sampleZone true [⟨"zone", sampleZone false
    [⟨"host", sampleZone true [], false⟩], false⟩], false⟩]

/-- Levels are given everywhere but at the host. -/
def sampleZonesMap : Value :=
  .ofEntries [("level", .text "debug"), ("region", .ofEntries [("level", .text "trace"),
    ("zone", .ofEntries [("level", .text "warn")])])]

/-- The host of the sample zones takes the level of the region, past that of the zone. -/
theorem inherits_sampleZones :
    ∃ out, (sampleZones.normalize (Log.Logger.root false) [] sampleZonesMap
        [("level", .text "error")] []).result = .ok (.ok out) ∧
      (Value.ofEntries out).held? ["region", "zone", "host"] "level" = some (.text "trace") := by
  have hmap : sampleZonesMap.WellFormed := by
    simp +decide [sampleZonesMap, Value.wellFormed_ofEntries_iff, Value.WellFormed.text]
  have hlast : ∀ i y, sampleZones.HandsDown sampleZonesMap ["region", "zone", "host"] "level" i y →
      i ≤ 1 := by
    rintro i y ⟨hi, ⟨outer, houter, hinherits⟩, -⟩
    refine Nat.le_of_not_lt fun hlt => ?_
    -- the zone is the only other place, and its level is not handed down
    obtain rfl : i = 2 := by
      simp only [List.length_cons, List.length_nil] at hi
      omega
    cases houter
    revert hinherits
    decide
  have hplace : sampleZones.under? ["region", "zone", "host"] = some (sampleZone true []) := rfl
  obtain ⟨out, hout⟩ : ∃ out, (sampleZones.normalize (Log.Logger.root false) [] sampleZonesMap
      [("level", .text "error")] []).result = .ok (.ok out) := ⟨_, rfl⟩
  obtain ⟨w, hheld, -, hnone⟩ :=
    normalize_inherits (by decide) (by decide) hmap rfl hout hplace List.mem_cons_self
  obtain rfl : w = .text "trace" :=
    (hnone rfl).1 1 (.text "trace") ⟨by decide, ⟨_, rfl, by decide⟩, rfl⟩ hlast
  exact ⟨out, hout, hheld⟩

end Schema

end LayeredConfig
