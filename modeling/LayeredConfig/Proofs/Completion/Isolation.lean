import LayeredConfig.Proofs.Completion.Level

/-!
# Sections that keep to themselves

A section that is not marked as handed down is seen by nobody but itself. Two raw maps that differ
only in what they give for it, or in whether they give it at all, are completed to maps that differ
at most there.

What a level inherits is threaded through the walk over its sections, so the walk is compared with
the one that leaves the section out.

- `handDown_without`: the settings hand down the same.
- `givenSections_without`: the walk without the section inherits the same at its end, and completes
  every other section to the same map.
- `Schema.complete_apart_from`: so the completed maps agree under every other declared key. Whatever
  the settings and sections inside are marked as, it comes neither to the sections beside nor to the
  level around.
-/

namespace LayeredConfig

section Loops

variable {settings : List (Slot ValueCheck)} {sections : List (Slot LevelCheck)} {path : Path}
  {key : String}

/-- An entry that is not handed down may be left out. -/
theorem handDown_without (hkept : Slot.handsDown settings key = false)
    (inherited given : Entries Value) :
    handDown settings inherited (given.without key) = handDown settings inherited given := by
  induction given generalizing inherited with
  | nil => rfl
  | cons e rest ih =>
    obtain ⟨k, v⟩ := e
    by_cases hk : k = key
    · subst hk
      rw [Entries.without_cons_self, ih, handDown, hkept]
      rfl
    · rw [Entries.without_cons_of_ne hk, handDown, ih, handDown]

/-- **A walk may leave out a section that is not handed down.** It then inherits the same at its
end, and has done the same but for that section. -/
theorem givenSections_without (hkept : Slot.handsDown sections key = false)
    {inherited given : Entries Value} {progress : SectionProgress}
    (h : givenSections sections path inherited given = .ok progress) :
    givenSections sections path inherited (given.without key) =
      .ok ⟨Entries.without progress.done key, progress.inherited⟩ := by
  induction given generalizing inherited progress with
  | nil =>
    cases h
    rfl
  | cons e rest ih =>
    obtain ⟨k, v⟩ := e
    simp only [givenSections] at h
    by_cases hk : k = key
    · -- the section itself: whatever it comes to, what is inherited stays as it is
      subst hk
      rw [Entries.without_cons_self]
      cases hslot : Slot.find? sections k with
      | none =>
        rw [hslot] at h
        exact ih h
      | some slot =>
        rw [hslot] at h
        obtain ⟨es, -, h⟩ := bind_eq_ok_iff.1 h
        obtain ⟨later, hlater, h⟩ := bind_eq_ok_iff.1 h
        cases h
        have hslotKept : slot.inherit = false := by
          rw [Slot.handsDown, hslot] at hkept
          exact hkept
        have hscope : handDownSection slot inherited es = inherited := by
          simp [handDownSection, hslotKept]
        rw [hscope] at hlater
        rw [ih hlater, Entries.without_cons_self]
    · -- any other section: both walks complete it in the same scope
      rw [Entries.without_cons_of_ne hk]
      simp only [givenSections]
      cases hslot : Slot.find? sections k with
      | none =>
        rw [hslot] at h
        exact ih h
      | some slot =>
        rw [hslot] at h
        obtain ⟨es, hes, h⟩ := bind_eq_ok_iff.1 h
        obtain ⟨later, hlater, h⟩ := bind_eq_ok_iff.1 h
        cases h
        refine bind_eq_ok_iff.2 ⟨es, hes, bind_eq_ok_iff.2 ⟨_, ih hlater, ?_⟩⟩
        rw [Entries.without_cons_of_ne hk]
        rfl

/-- Two walks over entries that differ in one section only end alike, apart from that section. -/
theorem givenSections_apart (hkept : Slot.handsDown sections key = false)
    {inherited given given' : Entries Value} {progress progress' : SectionProgress}
    (hrest : given.without key = given'.without key)
    (h : givenSections sections path inherited given = .ok progress)
    (h' : givenSections sections path inherited given' = .ok progress') :
    progress.inherited = progress'.inherited ∧ ∀ other, other ≠ key →
      Entries.get? progress.done other = Entries.get? progress'.done other := by
  have hsame := givenSections_without hkept h
  rw [hrest, givenSections_without hkept h'] at hsame
  obtain ⟨hdone, hinherited⟩ := SectionProgress.mk.inj (Except.ok.inj hsame)
  refine ⟨hinherited.symm, fun other hother => ?_⟩
  have hget := congrArg (fun done => Entries.get? done other) hdone
  simpa only [Entries.get?_without, if_neg hother] using hget.symm

end Loops

namespace Schema

variable {schema : Schema} {node : Section} {inherited given given' : Entries Value}

/-- What a level hands down does not depend on its sections. -/
theorem handedDown_apart (hd : schema.DistinctKeys) (hnode : node ∈ schema.sections)
    (hrest : given.without node.key = given'.without node.key) :
    schema.handedDown inherited given = schema.handedDown inherited given' := by
  have hkept : Slot.handsDown schema.settingSlots node.key = false := by
    refine Bool.eq_false_iff.2 fun hdown => ?_
    obtain ⟨s, hs, hkey, -⟩ := (handsDown_settingSlots hd).1 hdown
    exact hd.ne hs hnode hkey
  rw [handedDown, handedDown, ← handDown_without hkept, hrest, handDown_without hkept]

/-- **Nothing comes out of a section that is not handed down.** Where two raw maps differ at most in
what they give for such a section, their completions agree under every other declared key. -/
theorem complete_apart_from (hp : schema.Proper) (hnode : node ∈ schema.sections)
    (hkept : node.inherit = false) (inherited : Entries Value) (path : Path) {v w : Value}
    (hv : v.WellFormed) (hw : w.WellFormed)
    (hrest : v.entriesOrEmpty.without node.key = w.entriesOrEmpty.without node.key)
    {out out' : Entries Value} (hout : schema.complete inherited path v = .ok out)
    (hout' : schema.complete inherited path w = .ok out') :
    ∀ key ∈ schema.keys, key ≠ node.key →
      ∃ x, Entries.get? out key = some x ∧ Entries.get? out' key = some x := by
  obtain ⟨-, filled, progress, rfl, hdone⟩ := levelDone_of_complete hp hv.nodup hout
  obtain ⟨-, filled', progress', rfl, hdone'⟩ := levelDone_of_complete hp hw.nodup hout'
  intro key hkey hne
  rw [get?_rebuild_of_mem_keys hp hdone hkey, get?_rebuild_of_mem_keys hp hdone' hkey]
  rcases mem_keys_iff.1 hkey with ⟨s, hs, rfl⟩ | ⟨other, hother, rfl⟩
  · -- a setting comes to its outcome, which only looks at what is given for it
    obtain ⟨x, hx, hget⟩ := hdone.setting s hs
    obtain ⟨x', hx', hget'⟩ := hdone'.setting s hs
    have hgiven : Entries.get? v.entriesOrEmpty s.key = Entries.get? w.entriesOrEmpty s.key := by
      have hsame := congrArg (fun es => Entries.get? es s.key) hrest
      simpa only [Entries.get?_without, if_neg hne] using hsame
    rw [Setting.outcome, hgiven] at hx
    cases hx.symm.trans hx'
    exact ⟨x, hget, hget'⟩
  · -- a section has what the walk came to, or what is inherited after it
    obtain ⟨x, hx, hget⟩ := hdone.nested other hother
    obtain ⟨x', hx', hget'⟩ := hdone'.nested other hother
    have hslots : Slot.handsDown schema.sectionSlots node.key = false := by
      rw [← Section.key_slot, Slot.handsDown_of_mem hp.distinctKeys.sectionSlots
        (List.mem_map_of_mem hnode), Section.inherit_slot, hkept]
    have hwalked := hdone.walked
    rw [handedDown_apart hp.distinctKeys hnode hrest] at hwalked
    obtain ⟨hinherited, hsame⟩ := givenSections_apart hslots hrest hwalked hdone'.walked
    rw [slotValue, Section.key_slot] at hx hx'
    rw [hsame other.key hne, hinherited] at hx
    cases hx.symm.trans hx'
    exact ⟨x, hget, hget'⟩

/-- A sample schema of a yard. Its crane hands its load down, and its shed and the yard itself have
a load, too. -/
def sampleYard : Schema :=
  ⟨"yard", [⟨"load", "what may be lifted", Range.string (.text "none"), false⟩],
    [⟨"crane", ⟨"crane", [⟨"load", "what may be lifted", Range.string (.text "none"), true⟩],
        [⟨"hook", ⟨"hook", [], []⟩, true⟩]⟩, false⟩,
      ⟨"shed", ⟨"shed", [⟨"load", "what may be lifted", Range.string (.text "none"), false⟩],
        [⟨"hook", ⟨"hook", [], []⟩, false⟩]⟩, false⟩]⟩

/-- A yard that gives a load and a hook for its crane. -/
def sampleYardMap : Value :=
  .ofEntries [("crane", .ofEntries [("load", .text "steel"), ("hook", .null)]), ("shed", .null)]

/-- What the crane of the sample yard gives comes neither to the shed nor to the yard, which are as
they are without a crane. -/
theorem complete_sampleYard :
    ∃ out out', sampleYard.complete [] [] sampleYardMap = .ok out ∧
      sampleYard.complete [] [] (.ofEntries [("shed", .null)]) = .ok out' ∧
      ∀ key ∈ sampleYard.keys, key ≠ "crane" →
        ∃ x, Entries.get? out key = some x ∧ Entries.get? out' key = some x := by
  have hmap : sampleYardMap.WellFormed := by
    simp +decide [sampleYardMap, Value.wellFormed_ofEntries_iff, Value.WellFormed.text,
      Value.WellFormed.null]
  have hbare : (Value.ofEntries [("shed", .null)]).WellFormed := by
    simp +decide [Value.wellFormed_ofEntries_iff, Value.WellFormed.null]
  have hproper : sampleYard.Proper := by decide
  exact ⟨_, _, rfl, rfl, complete_apart_from hproper List.mem_cons_self rfl [] [] hmap hbare
    rfl rfl rfl⟩

end Schema

end LayeredConfig
