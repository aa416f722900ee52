import LayeredConfig.Proofs.Completion.Scopes

/-!
# Where an inherited section comes from

A section that is not given in its place takes the completed map of the nearest section of its key
that is in scope there, and is completed from the empty map if there is none
(`Schema.section_inherits`).

- `Schema.HandsSectionDown`: a place around a section, known by the number of sections to it, hands
  its completed section down: it declares the section as an inheriting one, is given it, and is
  given it before the section that the way goes on through.
- `Schema.get?_scopeAt`: what is found in the scope is what the nearest such place holds, and else
  what is inherited at the top.
-/

namespace LayeredConfig

namespace Schema

/-- On the way through the sections `keys`, the place after the first `j` of them hands its section
`key` down: it declares the key as that of an inheriting section, the raw map has the key there,
and the next section on the way is not given, or comes after it. -/
structure HandsSectionDown (schema : Schema) (v : Value) (keys : List String) (key : String)
    (j : Nat) : Prop where
  declared : ∃ outer, schema.under? (keys.take j) = some outer ∧ outer.InheritsSection key
  owned : key ∈ Entries.keys (v.within (keys.take j))
  inTime : ∃ next, keys[j]? = some next ∧
    (next ∉ Entries.keys (v.within (keys.take j)) ∨
      [key, next].Sublist (Entries.keys (v.within (keys.take j))))

variable {schema inner : Schema} {inherited scope out : Entries Value} {path : Path} {v : Value}
  {head key : String} {rest keys : List String} {node : Section} {j : Nat}

/-! ## The nearest place -/

theorem HandsSectionDown.lt_length (h : schema.HandsSectionDown v keys key j) :
    j < keys.length := by
  obtain ⟨next, hnext, -⟩ := h.inTime
  exact (List.getElem?_eq_some_iff.1 hnext).1

theorem handsSectionDown_zero_iff (hv : v.WellFormed) :
    schema.HandsSectionDown v (head :: rest) key 0 ↔
      schema.InheritsSection key ∧ key ∈ Entries.keys (v.entriesOrEmpty.before head) := by
  rw [Entries.mem_keys_before_iff hv.nodup]
  constructor
  · rintro ⟨⟨outer, houter, hinherits⟩, howned, next, hnext, htime⟩
    cases houter
    cases hnext
    exact ⟨hinherits, howned, htime⟩
  · rintro ⟨hinherits, howned, htime⟩
    exact ⟨⟨schema, rfl, hinherits⟩, howned, head, rfl, htime⟩

theorem handsSectionDown_succ_iff (hnode : schema.section? head = some node) :
    schema.HandsSectionDown v (head :: rest) key (j + 1) ↔
      node.schema.HandsSectionDown (Entries.read v.entriesOrEmpty head) rest key j := by
  constructor
  · rintro ⟨⟨outer, houter, hinherits⟩, howned, htime⟩
    obtain ⟨node', hnode', hrest⟩ := under?_cons_eq_some_iff.1 houter
    cases hnode.symm.trans hnode'
    exact ⟨⟨outer, hrest, hinherits⟩, howned, htime⟩
  · rintro ⟨⟨outer, houter, hinherits⟩, howned, htime⟩
    have hunder : schema.under? (head :: rest.take j) = some outer :=
      under?_cons_eq_some_iff.2 ⟨node, hnode, houter⟩
    exact ⟨⟨outer, hunder, hinherits⟩, howned, htime⟩

/-- Where inheritance fits in kind, the settings of a level hand nothing down under the key of a
section at or below it. -/
theorem get?_handedDown_of_section {given : Entries Value} (hp : schema.Proper)
    (hk : schema.InheritsInKind) (hn : (Entries.keys given).Nodup) (hinner : inner ∈ schema.nested)
    (hnode : node ∈ inner.sections) :
    Entries.get? (schema.handedDown inherited given) node.key =
      Entries.get? inherited node.key := by
  have hkey : node.key ≠ reservedKey := hp.ne_reservedKey hinner (mem_keys_of_section hnode)
  rw [get?_handedDown schema hkey hn]
  split
  · rename_i hdown
    obtain ⟨s, hs, hskey, hinherit⟩ := (handsDown_settingSlots hp.distinctKeys).1 hdown
    rw [nested_eq] at hinner
    rcases List.mem_cons.1 hinner with rfl | hinner
    · exact absurd hskey (hp.distinctKeys.ne hs hnode)
    · exact absurd hskey.symm
        (hk.setting schema schema.self_mem_nested s hs hinherit inner hinner node hnode)
  · rfl

/-- **What is in scope under the key of a section that is not given:** what the nearest place that
hands one down holds, or else what is inherited at the top. -/
theorem get?_scopeAt (hp : schema.Proper) (hk : schema.InheritsInKind) (hv : v.WellFormed)
    (h : schema.complete inherited path v = .ok out) (hinner : schema.under? keys = some inner)
    (hnode : node ∈ inner.sections) (halong : schema.CompletedAlong inherited path v keys)
    (habsent : v.held? keys node.key = none)
    (hscope : schema.scopeAt inherited path v (keys ++ [node.key]) = .ok scope) :
    (∀ j, schema.HandsSectionDown v keys node.key j →
      (∀ i, schema.HandsSectionDown v keys node.key i → i ≤ j) →
        ∃ w, Entries.get? scope node.key = some w ∧
          (Value.ofEntries out).held? (keys.take j) node.key = some w) ∧
    ((∀ j, ¬schema.HandsSectionDown v keys node.key j) →
      Entries.get? scope node.key = Entries.get? inherited node.key) := by
  have hkey : node.key ≠ reservedKey :=
    hp.ne_reservedKey (mem_nested_of_under? hinner) (mem_keys_of_section hnode)
  have hdown : Entries.get? (schema.handedDown inherited v.entriesOrEmpty) node.key =
      Entries.get? inherited node.key :=
    get?_handedDown_of_section hp hk hv.nodup (mem_nested_of_under? hinner) hnode
  induction keys generalizing schema inherited path v out with
  | nil =>
    cases hinner
    obtain ⟨scope', -, hscope', -⟩ := section_of_complete hp hv h hnode
    rw [List.nil_append, scopeAt_cons (hp.distinctKeys.section?_of_mem hnode) hscope'] at hscope
    cases hscope
    refine ⟨fun j hj => absurd hj.lt_length (Nat.not_lt_zero j), fun _ => ?_⟩
    rw [get?_sectionScope_of_not_before hp hv.nodup hkey hscope', hdown]
    rintro ⟨-, hmem⟩
    obtain ⟨e, he, heq⟩ := List.mem_map.1 hmem
    exact Entries.get?_eq_none_iff.1 habsent
      (heq ▸ List.mem_map_of_mem (Entries.mem_of_mem_before he))
  | cons head rest ih =>
    obtain ⟨outer, houter, hrest⟩ := under?_cons_eq_some_iff.1 hinner
    obtain ⟨hmem, -⟩ := mem_of_section? houter
    obtain ⟨scope', es, hscope', hes, hget⟩ := halong.complete_head hp hv h houter
    rw [List.cons_append, scopeAt_cons houter hscope'] at hscope
    obtain ⟨hnearest, hnowhere⟩ := ih (hp.section hmem) (hk.section hmem) (hv.read head) hes hrest
      (halong.tail houter hscope') habsent hscope
      (get?_handedDown_of_section (hp.section hmem) (hk.section hmem) (hv.read head).nodup
        (mem_nested_of_under? hrest) hnode)
    constructor
    · intro j hj hlast
      cases j with
      | zero =>
        -- no place further down hands a section down, or its number would be greater
        have hbelow : ∀ i, ¬outer.schema.HandsSectionDown (Entries.read v.entriesOrEmpty head)
            rest node.key i := fun i hi =>
          Nat.not_succ_le_zero i (hlast (i + 1) ((handsSectionDown_succ_iff houter).2 hi))
        obtain ⟨hinherits, hbefore⟩ := (handsSectionDown_zero_iff hv).1 hj
        obtain ⟨w, hw, hheld⟩ := get?_sectionScope_of_before hp hv h hscope' hinherits hbefore
        exact ⟨w, (hnowhere hbelow).trans hw, hheld⟩
      | succ j =>
        obtain ⟨w, hw, hheld⟩ := hnearest j ((handsSectionDown_succ_iff houter).1 hj)
          fun i hi =>
            Nat.le_of_succ_le_succ (hlast (i + 1) ((handsSectionDown_succ_iff houter).2 hi))
        refine ⟨w, hw, ?_⟩
        rw [← Value.entriesOrEmpty_ofEntries out] at hget
        rw [List.take_succ_cons, Value.held?_cons_of_get? hget]
        exact hheld
    · intro hnone
      have hbelow : ∀ i, ¬outer.schema.HandsSectionDown (Entries.read v.entriesOrEmpty head)
          rest node.key i := fun i hi => hnone (i + 1) ((handsSectionDown_succ_iff houter).2 hi)
      rw [hnowhere hbelow, get?_sectionScope_of_not_before hp hv.nodup hkey hscope', hdown]
      exact fun hhere => hnone 0 ((handsSectionDown_zero_iff hv).2 hhere)

/-! ## The value of a section -/

/-- **Inherited sections.** In an accepted map, where the sections on the way are completed in their
places, a section that is not given holds

- what the nearest place around it that hands one down holds, identically;
- if there is none, the completion of the empty map in the scope of the section. -/
theorem section_inherits {w : Value} (hp : schema.Proper) (hk : schema.InheritsInKind)
    (hv : v.WellFormed) (h : (Range.schema schema).complete path v = .ok w)
    (hinner : schema.under? keys = some inner) (hnode : node ∈ inner.sections)
    (habsent : v.held? keys node.key = none) (halong : schema.CompletedAlong [] path v keys) :
    (∀ j, schema.HandsSectionDown v keys node.key j →
      (∀ i, schema.HandsSectionDown v keys node.key i → i ≤ j) →
        ∃ x, w.held? (keys.take j) node.key = some x ∧ w.held? keys node.key = some x) ∧
    ((∀ j, ¬schema.HandsSectionDown v keys node.key j) →
      ∃ scope es, schema.scopeAt [] path v (keys ++ [node.key]) = .ok scope ∧
        node.schema.complete scope (path ++ Path.ofKeys (keys ++ [node.key])) .emptyMap = .ok es ∧
        w.held? keys node.key = some (.ofEntries es)) := by
  obtain ⟨out, hout, rfl⟩ := map_eq_ok_iff.1 h
  obtain ⟨scope, x, hscope, hx, hheld⟩ := held?_section_of_complete hp hv hout hinner hnode halong
  obtain ⟨hnearest, hnowhere⟩ :=
    get?_scopeAt hp hk hv hout hinner hnode halong habsent hscope
  constructor
  · intro j hj hlast
    obtain ⟨y, hy, hplace⟩ := hnearest j hj hlast
    rw [Section.outcome_of_inherited habsent hy] at hx
    cases hx
    exact ⟨x, hplace, hheld⟩
  · intro hnone
    rw [Section.outcome_of_absent habsent (hnowhere hnone), Path.append_entry] at hx
    obtain ⟨es, hes, rfl⟩ := map_eq_ok_iff.1 hx
    exact ⟨scope, es, hscope, hes, hheld⟩

/-- A sample limit. -/
def sampleLimit : Schema :=
  ⟨"limit", [⟨"mode", "how strict", Range.string (.text "strict"), false⟩], []⟩

/-- A sample pool with a region in it and a zone in that. Pool and region hand their limits down. -/
def samplePool : Schema :=
  ⟨"pool", [], [⟨"limit", sampleLimit, true⟩,
    ⟨"region", ⟨"region", [], [⟨"limit", sampleLimit, true⟩,
      ⟨"zone", ⟨"zone", [], [⟨"limit", sampleLimit, false⟩]⟩, false⟩]⟩, false⟩]⟩

/-- Pool and region give their limits, the region after its zone. -/
def samplePoolMap : Value :=
  .ofEntries [("limit", .ofEntries [("mode", .text "lax")]),
    ("region", .ofEntries [("zone", .emptyMap), ("limit", .ofEntries [("mode", .text "off")])])]

/-- The zone of the sample pool has the limit of the pool: that of the region comes too late. -/
theorem section_inherits_samplePool :
    ∃ w x, (Range.schema samplePool).complete [] samplePoolMap = .ok w ∧
      w.held? [] "limit" = some x ∧ w.held? ["region", "zone"] "limit" = some x := by
  have hkind : samplePool.InheritsInKind := by
    constructor <;>
      simp [samplePool, sampleLimit, Schema.enclosed, Schema.nested, Section.allNested, forall_and]
  have hmap : samplePoolMap.WellFormed := by
    simp +decide [samplePoolMap, Value.emptyMap, Value.wellFormed_ofEntries_iff,
      Value.WellFormed.text]
  have hplace : samplePool.under? ["region", "zone"] =
      some ⟨"zone", [], [⟨"limit", sampleLimit, false⟩]⟩ := rfl
  obtain ⟨w, hw⟩ : ∃ w, (Range.schema samplePool).complete [] samplePoolMap = .ok w := ⟨_, rfl⟩
  have halong : samplePool.CompletedAlong [] [] samplePoolMap ["region", "zone"] := by
    -- both sections on the way are given
    rintro before key after heq ⟨habsent, -⟩
    rcases before with _ | ⟨first, _ | ⟨second, before⟩⟩
    · cases heq
      exact Option.some_ne_none _ habsent
    · cases heq
      exact Option.some_ne_none _ habsent
    · simp at heq
  have hpool : samplePool.HandsSectionDown samplePoolMap ["region", "zone"] "limit" 0 :=
    ⟨⟨samplePool, rfl, by decide⟩, by decide, "region", rfl, by decide⟩
  have hlast : ∀ i, samplePool.HandsSectionDown samplePoolMap ["region", "zone"] "limit" i →
      i ≤ 0 := by
    intro i hi
    refine Nat.le_of_not_lt fun hpos => ?_
    -- the region is the only other place, and its limit comes after the zone
    obtain rfl : i = 1 := Nat.le_antisymm (Nat.le_of_lt_succ hi.lt_length) hpos
    obtain ⟨next, hnext, htime⟩ := hi.inTime
    cases hnext
    revert htime
    decide
  obtain ⟨hnearest, -⟩ :=
    section_inherits (by decide) hkind hmap hw hplace List.mem_cons_self rfl halong
  obtain ⟨x, hx, hzone⟩ := hnearest 0 hpool hlast
  exact ⟨w, x, hw, hx, hzone⟩

end Schema

end LayeredConfig
