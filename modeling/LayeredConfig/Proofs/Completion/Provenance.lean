import LayeredConfig.Proofs.Completion.Inheritance
import LayeredConfig.Proofs.Completion.InheritedSections
import Mathlib.Data.Nat.Find

/-!
# Where the value of a setting comes from

Each value that a completed map holds at a declared setting goes back to one place of the raw map
(`Schema.provenance_of_complete`).

- `Schema.ReadFrom`: the place from which a place is read. That is the place itself, unless a
  section on the way is not given and taken over from a place further out; then it is read from
  there. It is determined by the raw map (`Schema.ReadFrom.unique`).
- `Schema.Stored`: what is stored in the place that is read. Either the range of the setting has
  completed what is given there; or nothing is given, and the raw value that the nearest place
  around it hands down is stored as it is. The range has accepted that value where it is given, but
  what it completes to is not handed down. Where nothing is handed down either, nothing is
  completed.

So a stored value need not be one that the range of the setting completes to: it may be raw, and it
may have been completed under another path (`complete_sampleMill`).
-/

namespace LayeredConfig

/-- Among numbers below a bound there is a last one of which something holds, if there is any. -/
theorem exists_last {P : Nat → Prop} {n : Nat} (hbound : ∀ j, P j → j < n) (h : ∃ j, P j) :
    ∃ j, P j ∧ ∀ i, P i → i ≤ j := by
  classical
  have hle : ∀ j, P j → j ≤ n := fun j hj => Nat.le_of_lt (hbound j hj)
  obtain ⟨j, hj⟩ := h
  exact ⟨Nat.findGreatest P n, Nat.findGreatest_spec (hle j hj) hj,
    fun i hi => Nat.le_findGreatest (hle i hi) hi⟩

namespace Schema

/-- Where the sections `before` lead, the section `key` is taken over: it is not given, and a place
around it hands one down. -/
def TakesOver (schema : Schema) (v : Value) (before : List String) (key : String) : Prop :=
  v.held? before key = none ∧ ∃ j, schema.HandsSectionDown v before key j

/-- None of the sections on the way is taken over. -/
def ReadInPlace (schema : Schema) (v : Value) (keys : List String) : Prop :=
  ∀ before key after, keys = before ++ key :: after → ¬schema.TakesOver v before key

/-- The place from which a place is read: itself, if no section on the way is taken over; or else
that from which the corresponding place is read in the first section that is. This section, `key`
after the sections `before`, is not given, and the nearest place that hands one down stands after
the first `j` of them. -/
inductive ReadFrom (schema : Schema) (v : Value) : List String → List String → Prop
  | here {keys : List String} (hplace : schema.ReadInPlace v keys) : ReadFrom schema v keys keys
  | takenOver {before after origin : List String} {key : String} {j : Nat}
    (hbefore : schema.ReadInPlace v before) (habsent : v.held? before key = none)
    (hdown : schema.HandsSectionDown v before key j)
    (hnearest : ∀ i, schema.HandsSectionDown v before key i → i ≤ j)
    (h : ReadFrom schema v (before.take j ++ key :: after) origin) :
    ReadFrom schema v (before ++ key :: after) origin

/-- How the value `x` of a setting came to be stored where the sections `keys` lead: it was
completed from what is given there; or it is the raw value of the nearest place that hands one down,
and was accepted there; or it was completed from nothing, since no place hands anything down. -/
inductive Stored (schema : Schema) (path : Path) (v : Value) (keys : List String) (s : Setting)
    (x : Value) : Prop
  | given {u : Value} (hgiven : v.held? keys s.key = some u)
    (h : s.range.complete (path ++ Path.ofKeys (keys ++ [s.key])) u = .ok x)
  | handedDown {j : Nat} (habsent : v.held? keys s.key = none)
    (hdown : schema.HandsDown v keys s.key j x)
    (hnearest : ∀ i y, schema.HandsDown v keys s.key i y → i ≤ j)
    (haccepted : ∃ y, s.range.complete (path ++ Path.ofKeys (keys.take j ++ [s.key])) x = .ok y)
  | absent (habsent : v.held? keys s.key = none)
    (hnowhere : ∀ j y, ¬schema.HandsDown v keys s.key j y)
    (h : s.range.complete (path ++ Path.ofKeys (keys ++ [s.key])) .undefined = .ok x)

variable {schema inner : Schema} {inherited scope out : Entries Value} {path : Path} {v x : Value}
  {keys before after : List String} {key : String} {s : Setting}

/-! ## The place that is read -/

/-- On a way there is one first section that is taken over. -/
theorem ReadInPlace.unique {before' after' : List String} {key' : String}
    (h : schema.ReadInPlace v before) (htaken : schema.TakesOver v before key)
    (h' : schema.ReadInPlace v before') (htaken' : schema.TakesOver v before' key')
    (heq : before ++ key :: after = before' ++ key' :: after') :
    before = before' ∧ key = key' ∧ after = after' := by
  rcases List.append_eq_append_iff.1 heq with ⟨between, hway, hrest⟩ | ⟨between, hway, hrest⟩
  · cases between with
    | nil =>
      rw [List.append_nil] at hway
      exact ⟨hway.symm, List.cons.inj hrest⟩
    | cons next between =>
      -- the first of the two sections would lie on the way to the second one
      obtain ⟨rfl, -⟩ := List.cons.inj hrest
      exact absurd htaken (h' before key between hway)
  · cases between with
    | nil =>
      rw [List.append_nil] at hway
      obtain ⟨hkey, hafter⟩ := List.cons.inj hrest
      exact ⟨hway, hkey.symm, hafter.symm⟩
    | cons next between =>
      obtain ⟨rfl, -⟩ := List.cons.inj hrest
      exact absurd htaken' (h before' key' between hway)

theorem readFrom_iff {origin : List String} :
    schema.ReadFrom v keys origin ↔
      schema.ReadInPlace v keys ∧ keys = origin ∨
      ∃ before key after j, keys = before ++ key :: after ∧ schema.ReadInPlace v before ∧
        v.held? before key = none ∧ schema.HandsSectionDown v before key j ∧
        (∀ i, schema.HandsSectionDown v before key i → i ≤ j) ∧
        schema.ReadFrom v (before.take j ++ key :: after) origin := by
  constructor
  · intro h
    cases h with
    | here hplace => exact .inl ⟨hplace, rfl⟩
    | takenOver hbefore habsent hdown hnearest h =>
      exact .inr ⟨_, _, _, _, rfl, hbefore, habsent, hdown, hnearest, h⟩
  · rintro (⟨hplace, rfl⟩ | ⟨before, key, after, j, rfl, hbefore, habsent, hdown, hnearest, h⟩)
    · exact .here hplace
    · exact .takenOver hbefore habsent hdown hnearest h

/-- **There is one place from which a place is read.** -/
theorem ReadFrom.unique {origin origin' : List String} (h : schema.ReadFrom v keys origin)
    (h' : schema.ReadFrom v keys origin') : origin = origin' := by
  induction h with
  | here hplace =>
    rcases readFrom_iff.1 h' with ⟨-, horigin⟩ | ⟨before, key, after, j, rfl, -, habsent, hdown, -⟩
    · exact horigin
    · exact absurd ⟨habsent, j, hdown⟩ (hplace before key after rfl)
  | @takenOver before after origin key j hbefore habsent hdown hnearest _ ih =>
    rcases readFrom_iff.1 h' with
      ⟨hplace, -⟩ | ⟨before', key', after', j', heq, hbefore', habsent', hdown', hnearest', hread⟩
    · exact absurd ⟨habsent, j, hdown⟩ (hplace before key after rfl)
    · obtain ⟨rfl, rfl, rfl⟩ :=
        hbefore.unique ⟨habsent, j, hdown⟩ hbefore' ⟨habsent', j', hdown'⟩ heq
      obtain rfl : j = j' := Nat.le_antisymm (hnearest' j hdown) (hnearest j' hdown')
      exact ih hread

/-! ## What is in scope for a setting -/

/-- Where the sections on the way are completed in their places, a setting inherits what the nearest
place hands down, or else what is inherited at the top. -/
theorem get?_scopeAt_of_setting (hp : schema.Proper) (hk : schema.InheritsInKind)
    (hv : v.WellFormed) (h : schema.complete inherited path v = .ok out)
    (hinner : schema.under? keys = some inner) (hs : s ∈ inner.settings)
    (halong : schema.CompletedAlong inherited path v keys)
    (hscope : schema.scopeAt inherited path v keys = .ok scope) :
    Entries.get? scope s.key =
      (schema.bequest? v keys s.key).or (Entries.get? inherited s.key) := by
  have hkey : s.key ≠ reservedKey :=
    hp.ne_reservedKey (mem_nested_of_under? hinner) (mem_keys_of_setting hs)
  induction keys generalizing schema inherited path v out with
  | nil =>
    cases hinner
    cases hscope
    rfl
  | cons head rest ih =>
    obtain ⟨node, hnode, hrest⟩ := under?_cons_eq_some_iff.1 hinner
    obtain ⟨hmem, -⟩ := mem_of_section? hnode
    obtain ⟨scope', es, hscope', hes, -⟩ := halong.complete_head hp hv h hnode
    rw [scopeAt_cons hnode hscope'] at hscope
    -- no section of the level hands anything down under the key of a setting below
    have hother : ¬(schema.InheritsSection s.key ∧
        s.key ∈ Entries.keys (v.entriesOrEmpty.before head)) := by
      rintro ⟨⟨node', hnode', hkey', hinherit⟩, -⟩
      have henclosed : inner ∈ schema.enclosed :=
        mem_enclosed_iff.2 ⟨node, hmem, mem_nested_of_under? hrest⟩
      exact (hk.nested schema schema.self_mem_nested node' hnode' hinherit inner henclosed).1 s hs
        hkey'.symm
    rw [ih (hp.section hmem) (hk.section hmem) (hv.read head) hes hrest
        (halong.tail hnode hscope') hscope,
      get?_sectionScope_of_not_before hp hv.nodup hkey hscope' hother,
      get?_handedDown_eq_or hp.distinctKeys hv.nodup hkey, bequest?, hnode, Option.or_assoc]

theorem exists_handsDown_of_bequest? (hinner : schema.under? keys = some inner)
    (h : schema.bequest? v keys key = some x) :
    ∃ j, schema.HandsDown v keys key j x ∧
      ∀ i y, schema.HandsDown v keys key i y → i ≤ j := by
  obtain ⟨j, ⟨y, hj⟩, hlast⟩ : ∃ j, (∃ y, schema.HandsDown v keys key j y) ∧
      ∀ i, (∃ y, schema.HandsDown v keys key i y) → i ≤ j := by
    refine exists_last (n := keys.length) (fun j ⟨y, hj⟩ => hj.before) ?_
    by_contra hnowhere
    have hnone : schema.bequest? v keys key = none :=
      (bequest?_eq_none_iff hinner).2 fun j y hj => hnowhere ⟨j, y, hj⟩
    cases hnone.symm.trans h
  have hnearest : ∀ i z, schema.HandsDown v keys key i z → i ≤ j := fun i z hz => hlast i ⟨z, hz⟩
  cases (bequest?_of_handsDown hinner hj hnearest).symm.trans h
  exact ⟨j, hj, hnearest⟩

/-! ## One place -/

/-- A value that a place on the way hands down was accepted there, by the range of the setting that
takes it. -/
theorem HandsDown.accepted {j : Nat} (hdown : schema.HandsDown v keys s.key j x)
    (hp : schema.Proper) (hc : schema.InheritanceConsistent) (hv : v.WellFormed)
    (h : schema.complete inherited path v = .ok out) (hinner : schema.under? keys = some inner)
    (hs : s ∈ inner.settings) (halong : schema.CompletedAlong inherited path v keys) :
    ∃ y, s.range.complete (path ++ Path.ofKeys (keys.take j ++ [s.key])) x = .ok y := by
  obtain ⟨outer, houter, s', hs', hkey, hinherit⟩ := hdown.declared
  have hrange : s.range = s'.range := hc.range outer (mem_nested_of_under? houter) s' hs' hinherit
    inner (mem_enclosed_of_under? houter hinner hdown.before) s hs hkey.symm
  rw [← List.take_append_drop j keys] at halong
  have hbefore : schema.CompletedAlong inherited path v (keys.take j) := halong.of_append
  obtain ⟨scope, y, -, hy, -⟩ := held?_setting_of_complete hp hv h houter hs' hbefore
  have howned : Entries.get? (v.within (keys.take j)) s'.key = some x := by
    rw [hkey]
    exact hdown.owned
  rw [Setting.outcome_of_given howned, hkey, Path.append_entry] at hy
  exact ⟨y, by rw [hrange]; exact hy⟩

/-- Where the sections on the way are completed in their places, the value is stored in the place
itself. -/
theorem stored_of_completedAlong (hp : schema.Proper) (hc : schema.InheritanceConsistent)
    (hv : v.WellFormed) (h : schema.complete [] path v = .ok out)
    (hinner : schema.under? keys = some inner) (hs : s ∈ inner.settings)
    (halong : schema.CompletedAlong [] path v keys) :
    ∃ x, (Value.ofEntries out).held? keys s.key = some x ∧ schema.Stored path v keys s x := by
  obtain ⟨scope, x, hscope, hx, hheld⟩ := held?_setting_of_complete hp hv h hinner hs halong
  have hget := get?_scopeAt_of_setting hp hc.toInheritsInKind hv h hinner hs halong hscope
  refine ⟨x, hheld, ?_⟩
  cases hgiven : v.held? keys s.key with
  | some u =>
    rw [Setting.outcome_of_given hgiven, Path.append_entry] at hx
    exact .given hgiven hx
  | none =>
    cases hbequest : schema.bequest? v keys s.key with
    | some y =>
      rw [hbequest] at hget
      rw [Setting.outcome_of_inherited hgiven hget] at hx
      cases hx
      obtain ⟨j, hdown, hnearest⟩ := exists_handsDown_of_bequest? hinner hbequest
      exact .handedDown hgiven hdown hnearest (hdown.accepted hp hc hv h hinner hs halong)
    | none =>
      rw [hbequest] at hget
      rw [Setting.outcome_of_absent hgiven hget, Path.append_entry] at hx
      exact .absent hgiven ((bequest?_eq_none_iff hinner).1 hbequest) hx

/-! ## Sections that are taken over -/

/-- Of the places that hand a section down, one is the nearest. -/
theorem exists_nearest (h : ∃ j, schema.HandsSectionDown v before key j) :
    ∃ j, schema.HandsSectionDown v before key j ∧
      ∀ i, schema.HandsSectionDown v before key i → i ≤ j :=
  exists_last (n := before.length) (fun _ hj => hj.lt_length) h

/-- Where the sections on the way are completed in their places, none of them is taken over. -/
theorem readInPlace_of_completedAlong (hp : schema.Proper) (hk : schema.InheritsInKind)
    (hv : v.WellFormed) (h : schema.complete [] path v = .ok out)
    (hinner : schema.under? keys = some inner) (halong : schema.CompletedAlong [] path v keys) :
    schema.ReadInPlace v keys := by
  rintro before key after rfl ⟨habsent, hdown⟩
  obtain ⟨level, hlevel, hrest⟩ := under?_append_eq_some_iff.1 hinner
  obtain ⟨node, hfind, -⟩ := under?_cons_eq_some_iff.1 hrest
  obtain ⟨hnode, rfl⟩ := mem_of_section? hfind
  have hbefore : schema.CompletedAlong [] path v before := halong.of_append
  obtain ⟨scope, -, hscope, -, -⟩ := held?_section_of_complete hp hv h hlevel hnode hbefore
  obtain ⟨j, hj, hnearest⟩ := exists_nearest hdown
  -- what the nearest place hands down is in scope, and would be taken
  obtain ⟨w, hw, -⟩ := (get?_scopeAt hp hk hv h hlevel hnode hbefore habsent hscope).1 j hj hnearest
  exact halong before node.key after rfl ⟨habsent, scope, w, hscope, hw⟩

/-- A section that is taken over is that of the nearest place which hands one down, and holds the
same values. -/
theorem TakenOver.same (htaken : schema.TakenOver [] path v before key) (hp : schema.Proper)
    (hk : schema.InheritsInKind) (hv : v.WellFormed) (h : schema.complete [] path v = .ok out)
    (hinner : schema.under? (before ++ key :: after) = some inner)
    (halong : schema.CompletedAlong [] path v before) :
    ∃ j, schema.HandsSectionDown v before key j ∧
      (∀ i, schema.HandsSectionDown v before key i → i ≤ j) ∧
      schema.under? (before.take j ++ key :: after) = some inner ∧
      ∀ k, (Value.ofEntries out).held? (before ++ key :: after) k =
        (Value.ofEntries out).held? (before.take j ++ key :: after) k := by
  obtain ⟨habsent, scope, w, hscope, hw⟩ := htaken
  obtain ⟨level, hlevel, hrest⟩ := under?_append_eq_some_iff.1 hinner
  obtain ⟨node, hfind, hafter⟩ := under?_cons_eq_some_iff.1 hrest
  obtain ⟨hnode, rfl⟩ := mem_of_section? hfind
  obtain ⟨scope', x, hscope', hx, hheld⟩ := held?_section_of_complete hp hv h hlevel hnode halong
  cases hscope.symm.trans hscope'
  rw [Section.outcome_of_inherited habsent hw] at hx
  cases hx
  obtain ⟨hfar, hnowhere⟩ := get?_scopeAt hp hk hv h hlevel hnode halong habsent hscope
  obtain ⟨j, hj, hnearest⟩ : ∃ j, schema.HandsSectionDown v before node.key j ∧
      ∀ i, schema.HandsSectionDown v before node.key i → i ≤ j := by
    refine exists_nearest ?_
    by_contra hnone
    cases (hnowhere fun j hj => hnone ⟨j, hj⟩).symm.trans hw
  obtain ⟨w', hw', hplace⟩ := hfar j hj hnearest
  cases hw.symm.trans hw'
  refine ⟨j, hj, hnearest, ?_, fun k => ?_⟩
  · -- the section there has the same schema
    obtain ⟨outer, houter, node', hnode', hkey, hinherit⟩ := hj.declared
    have hschema : node.schema = node'.schema :=
      (hk.nested outer (mem_nested_of_under? houter) node' hnode' hinherit level
        (mem_enclosed_of_under? houter hlevel hj.lt_length)).2 node hnode hkey.symm
    refine under?_append_eq_some_iff.2 ⟨outer, houter, ?_⟩
    rw [← hkey, (hp.under? houter).distinctKeys.under?_cons hnode', ← hschema]
    exact hafter
  · rw [Value.held?_append hheld, Value.held?_append hplace]

/-! ## Every place -/

/-- **Where the value of a setting comes from.** In an accepted map whose inheritance fits, the
value at a declared setting is the one that was stored in the place from which it is read: the
completion of what is given there; or the raw value of the nearest place that hands one down; or the
completion of nothing. -/
theorem provenance_of_complete {w : Value} (hp : schema.Proper) (hc : schema.InheritanceConsistent)
    (hv : v.WellFormed) (h : (Range.schema schema).complete path v = .ok w)
    (hinner : schema.under? keys = some inner) (hs : s ∈ inner.settings) :
    ∃ x origin, w.held? keys s.key = some x ∧ schema.ReadFrom v keys origin ∧
      schema.under? origin = some inner ∧ schema.Stored path v origin s x := by
  obtain ⟨out, hout, rfl⟩ := map_eq_ok_iff.1 h
  -- each section that is taken over is read further out, so the way gets shorter
  induction hlength : keys.length using Nat.strongRecOn generalizing keys with
  | ind n ih =>
    by_cases halong : schema.CompletedAlong [] path v keys
    · obtain ⟨x, hheld, hstored⟩ := stored_of_completedAlong hp hc hv hout hinner hs halong
      have hplace := readInPlace_of_completedAlong hp hc.toInheritsInKind hv hout hinner halong
      exact ⟨x, keys, hheld, .here hplace, hinner, hstored⟩
    · obtain ⟨before, key, after, rfl, hbefore, htaken⟩ := exists_first_takenOver halong
      obtain ⟨j, hdown, hnearest, horigin, hsame⟩ :=
        htaken.same hp hc.toInheritsInKind hv hout hinner hbefore
      have hshorter : (before.take j ++ key :: after).length < n := by
        have hj := hdown.lt_length
        simp only [List.length_append, List.length_cons, List.length_take] at hlength ⊢
        omega
      obtain ⟨x, origin, hheld, hread, hplace, hstored⟩ := ih _ hshorter horigin rfl
      obtain ⟨level, hlevel, -⟩ := under?_append_eq_some_iff.1 hinner
      have hway := readInPlace_of_completedAlong hp hc.toInheritsInKind hv hout hlevel hbefore
      exact ⟨x, origin, (hsame s.key).trans hheld,
        .takenOver hway htaken.1 hdown hnearest hread, hplace, hstored⟩

/-- A sample grade. -/
def sampleGrade : Setting := ⟨"grade", "how fine", Range.string (.text "fine"), false⟩

/-- A sample setting that completes to its own place. -/
def sampleWhere : Setting :=
  ⟨"where", "where it is", .scalar "place" fun path _ => .ok path.toValue, false⟩

/-- A sample drive, which knows its place. -/
def sampleDrive : Schema := ⟨"drive", [sampleWhere], []⟩

/-- The stone of a sample mill. -/
def sampleStone : Schema := ⟨"stone", [sampleGrade], [⟨"drive", sampleDrive, false⟩]⟩

/-- A sample mill that hands its grade and its drive down to its stone. -/
def sampleMill : Schema :=
  ⟨"mill", [{ sampleGrade with inherit := true }],
    [⟨"drive", sampleDrive, true⟩, ⟨"stone", sampleStone, false⟩]⟩

/-- The mill is given a drive, and an explicit nil for its grade. -/
def sampleMillMap : Value := .ofEntries [("grade", .null), ("drive", .emptyMap)]

theorem inheritanceConsistent_sampleMill : sampleMill.InheritanceConsistent := by
  refine ⟨⟨?_, ?_⟩, ?_⟩ <;>
    simp [sampleMill, sampleStone, sampleDrive, sampleGrade, sampleWhere, Schema.enclosed,
      Schema.nested, Section.allNested, forall_and]

theorem wellFormed_sampleMillMap : sampleMillMap.WellFormed := by
  simp +decide [sampleMillMap, Value.emptyMap, Value.wellFormed_ofEntries_iff,
    Value.WellFormed.null]

/-- The drive of the stone of the sample mill goes back to some place of the raw map. -/
theorem provenance_sampleMill :
    ∃ w, (Range.schema sampleMill).complete [] sampleMillMap = .ok w ∧
      ∃ x origin, w.held? ["stone", "drive"] "where" = some x ∧
        sampleMill.ReadFrom sampleMillMap ["stone", "drive"] origin ∧
        sampleMill.under? origin = some sampleDrive ∧
        sampleMill.Stored [] sampleMillMap origin sampleWhere x := by
  refine ⟨_, rfl, ?_⟩
  exact provenance_of_complete (s := sampleWhere) (by decide) inheritanceConsistent_sampleMill
    wellFormed_sampleMillMap rfl rfl List.mem_cons_self

/-- In the completed sample mill two values are not what the range of their setting completes to in
that place. The grade of the stone is the raw nil, and the drive of the stone is at the place of the
other drive. -/
theorem complete_sampleMill :
    sampleMill.Proper ∧ sampleMill.InheritanceConsistent ∧ sampleMillMap.WellFormed ∧
      ∃ w, (Range.schema sampleMill).complete [] sampleMillMap = .ok w ∧
        (∃ x, w.held? ["stone"] "grade" = some x ∧
          ∀ u, sampleGrade.range.complete (Path.ofKeys ["stone", "grade"]) u ≠ .ok x) ∧
        ∃ x, w.held? ["stone", "drive"] "where" = some x ∧
          ∀ u, sampleWhere.range.complete (Path.ofKeys ["stone", "drive", "where"]) u ≠ .ok x := by
  refine ⟨by decide, inheritanceConsistent_sampleMill, wellFormed_sampleMillMap, _, rfl,
    ⟨.null, rfl, ?_⟩, (Path.ofKeys ["drive", "where"]).toValue, rfl, ?_⟩
  · intro u hu
    cases u <;> cases hu
  · intro u hu
    have hplace : (Path.ofKeys ["stone", "drive", "where"]).toValue =
        (Path.ofKeys ["drive", "where"]).toValue := Except.ok.inj hu
    simp [Path.toValue, Path.ofKeys, Segment.toValue, Value.ofList] at hplace

end Schema

end LayeredConfig
