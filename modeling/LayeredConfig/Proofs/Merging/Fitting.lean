import LayeredConfig.Proofs.Merging.Overlay

/-!
# Which maps can be overlaid

Whether one map can be laid over another is a matter of either map alone.

- `Schema.Fits`: a value has the outline that the schema describes. It is a map with declared keys
  only, and what it gives for a section is nil or has the outline of that section. Settings may be
  anything.
- `Schema.overlay_exists_iff`: overlaying succeeds iff both values fit, and the result fits again
  (`Schema.fits_overlay`).
-/

namespace LayeredConfig

mutual

/-- The value is a map, all its keys are declared, and what is read for a section is nil or fits
in turn. -/
def Schema.Fits : Schema → Value → Prop
  | ⟨_, settings, sections⟩, v =>
    v.isMap = true ∧
    (∀ key ∈ Entries.keys v.entriesOrEmpty,
      (∃ s ∈ settings, s.key = key) ∨ ∃ node ∈ sections, node.key = key) ∧
    Section.AllFit sections v.entriesOrEmpty

/-- What is read for each of the sections is nil or fits. -/
def Section.AllFit : List Section → Entries Value → Prop
  | [], _ => True
  | ⟨key, schema, _⟩ :: rest, es =>
    ((Entries.read es key).isNil = true ∨ schema.Fits (Entries.read es key)) ∧
      Section.AllFit rest es

end

theorem Section.allFit_iff (sections : List Section) (es : Entries Value) :
    Section.AllFit sections es ↔
      ∀ node ∈ sections, (Entries.read es node.key).isNil = true ∨
        node.schema.Fits (Entries.read es node.key) := by
  induction sections with
  | nil => simp [Section.AllFit]
  | cons node rest ih =>
    obtain ⟨key, schema, inherit⟩ := node
    rw [Section.AllFit, ih, List.forall_mem_cons]

/-- The value of every key is made iff each of them is. -/
theorem entriesOf_exists_iff {value : String → Except Fault Value} {ks : List String} :
    (∃ es, entriesOf value ks = .ok es) ↔ ∀ key ∈ ks, ∃ v, value key = .ok v := by
  induction ks with
  | nil => simp [entriesOf]
  | cons k rest ih =>
    rw [List.forall_mem_cons, ← ih]
    constructor
    · rintro ⟨es, h⟩
      obtain ⟨v, hv, h⟩ := bind_eq_ok_iff.1 h
      obtain ⟨vs, hvs, -⟩ := bind_eq_ok_iff.1 h
      exact ⟨⟨v, hv⟩, vs, hvs⟩
    · rintro ⟨⟨v, hv⟩, vs, hvs⟩
      exact ⟨_, bind_eq_ok_iff.2 ⟨v, hv, bind_eq_ok_iff.2 ⟨vs, hvs, rfl⟩⟩⟩

theorem requireMap_exists_iff (operation : Operation) (path : Path) (v : Value) :
    (∃ es, requireMap operation path v = .ok es) ↔ v.isMap = true := by
  unfold requireMap Value.isMap
  cases v.entries? <;> simp

namespace Schema

variable {schema : Schema} {path : Path} {lower upper : Value} {out : Entries Value}

/-! ## Fitting -/

theorem fits_emptyMap (schema : Schema) : schema.Fits .emptyMap := by
  obtain ⟨description, settings, sections⟩ := schema
  refine ⟨rfl, fun _ hkey => absurd hkey List.not_mem_nil, ?_⟩
  exact (Section.allFit_iff _ _).2 fun _ _ => .inl rfl

theorem fits_orEmptyMap_iff {v : Value} :
    schema.Fits v.orEmptyMap ↔ v.isNil = true ∨ schema.Fits v := by
  cases hv : v.isNil with
  | true =>
    rw [Value.orEmptyMap_of_isNil hv]
    exact ⟨fun _ => .inl rfl, fun _ => schema.fits_emptyMap⟩
  | false => simp [Value.orEmptyMap, hv]

theorem fits_iff (schema : Schema) (v : Value) :
    schema.Fits v ↔
      v.isMap = true ∧ (∀ key ∈ Entries.keys v.entriesOrEmpty, key ∈ schema.keys) ∧
      ∀ node ∈ schema.sections,
        node.schema.Fits (Entries.read v.entriesOrEmpty node.key).orEmptyMap := by
  simp only [mem_keys_iff, fits_orEmptyMap_iff]
  obtain ⟨description, settings, sections⟩ := schema
  rw [Fits, Section.allFit_iff]

theorem fits_read_of_not_mem (schema : Schema) {es : Entries Value} {key : String}
    (h : key ∉ Entries.keys es) : schema.Fits (Entries.read es key).orEmptyMap := by
  rw [Entries.read, Entries.get?_eq_none_iff.2 h]
  exact schema.fits_emptyMap

/-! ## Overlaying -/

/-- One level can be overlaid iff both values are maps and every key of theirs comes to a value. -/
theorem overlay_exists_iff_forall_key :
    (∃ out, schema.overlay path lower upper = .ok out) ↔
      lower.isMap = true ∧ upper.isMap = true ∧
      ∀ key ∈ jointKeys lower.entriesOrEmpty upper.entriesOrEmpty, ∃ v,
        overlayKey schema.description (schema.settings.map Setting.key) schema.overlaySlots path
          lower.entriesOrEmpty upper.entriesOrEmpty key = .ok v := by
  rw [overlay_eq, ← entriesOf_exists_iff, ← requireMap_exists_iff .overlay path,
    ← requireMap_exists_iff .overlay path]
  constructor
  · rintro ⟨out, h⟩
    obtain ⟨les, hl, h⟩ := bind_eq_ok_iff.1 h
    obtain ⟨ues, hu, h⟩ := bind_eq_ok_iff.1 h
    obtain ⟨merged, hmerged, -⟩ := bind_eq_ok_iff.1 h
    rw [entriesOrEmpty_of_requireMap hl, entriesOrEmpty_of_requireMap hu]
    exact ⟨⟨les, hl⟩, ⟨ues, hu⟩, merged, hmerged⟩
  · rintro ⟨⟨les, hl⟩, ⟨ues, hu⟩, merged, hmerged⟩
    rw [entriesOrEmpty_of_requireMap hl, entriesOrEmpty_of_requireMap hu] at hmerged
    exact ⟨_, bind_eq_ok_iff.2 ⟨les, hl, bind_eq_ok_iff.2 ⟨ues, hu,
      bind_eq_ok_iff.2 ⟨merged, hmerged, rfl⟩⟩⟩⟩

/-- **Overlaying succeeds iff both values fit.** -/
theorem overlay_exists_iff (hp : schema.Proper) :
    (∃ out, schema.overlay path lower upper = .ok out) ↔ schema.Fits lower ∧ schema.Fits upper := by
  induction schema using Schema.induction generalizing path lower upper with
  | step schema ih =>
    rw [overlay_exists_iff_forall_key, fits_iff, fits_iff]
    constructor
    · rintro ⟨hlower, hupper, hvalue⟩
      have hdeclared : ∀ key ∈ jointKeys lower.entriesOrEmpty upper.entriesOrEmpty,
          key ∈ schema.keys := by
        intro key hkey
        obtain ⟨v, hv⟩ := hvalue key hkey
        exact mem_keys_of_overlayKey hv
      have hsection : ∀ node ∈ schema.sections,
          node.schema.Fits (Entries.read lower.entriesOrEmpty node.key).orEmptyMap ∧
            node.schema.Fits (Entries.read upper.entriesOrEmpty node.key).orEmptyMap := by
        intro node hnode
        by_cases hkey : node.key ∈ jointKeys lower.entriesOrEmpty upper.entriesOrEmpty
        · obtain ⟨v, hv⟩ := hvalue node.key hkey
          rw [overlayKey_section hp.distinctKeys hnode] at hv
          obtain ⟨es, hes, -⟩ := map_eq_ok_iff.1 hv
          exact (ih node hnode (hp.section hnode)).1 ⟨es, hes⟩
        · -- neither map has the section
          rw [mem_jointKeys_iff, not_or] at hkey
          exact ⟨node.schema.fits_read_of_not_mem hkey.1, node.schema.fits_read_of_not_mem hkey.2⟩
      exact ⟨⟨hlower, fun key hkey => hdeclared key (mem_jointKeys_iff.2 (.inl hkey)),
          fun node hnode => (hsection node hnode).1⟩,
        ⟨hupper, fun key hkey => hdeclared key (mem_jointKeys_iff.2 (.inr hkey)),
          fun node hnode => (hsection node hnode).2⟩⟩
    · rintro ⟨⟨hlower, hlowerKeys, hlowerFits⟩, ⟨hupper, hupperKeys, hupperFits⟩⟩
      refine ⟨hlower, hupper, fun key hkey => ?_⟩
      have hdeclared : key ∈ schema.keys :=
        (mem_jointKeys_iff.1 hkey).elim (hlowerKeys key) (hupperKeys key)
      rcases mem_keys_iff.1 hdeclared with ⟨s, hs, rfl⟩ | ⟨node, hnode, rfl⟩
      · exact ⟨_, overlayKey_setting hs⟩
      · rw [overlayKey_section hp.distinctKeys hnode]
        obtain ⟨es, hes⟩ := (ih node hnode (hp.section hnode)).2
          ⟨hlowerFits node hnode, hupperFits node hnode⟩
        exact ⟨_, map_eq_ok_iff.2 ⟨es, hes, rfl⟩⟩

/-- **What is overlaid fits again.** -/
theorem fits_overlay (hp : schema.Proper) (hlower : lower.WellFormed) (hupper : upper.WellFormed)
    (h : schema.overlay path lower upper = .ok out) : schema.Fits (.ofEntries out) := by
  induction schema using Schema.induction generalizing path lower upper out with
  | step schema ih =>
    have hdeclared : ∀ key ∈ Entries.keys out, key ∈ schema.keys :=
      fun key hkey => mem_keys_of_overlay hp hlower hupper h hkey
    refine (fits_iff _ _).2 ⟨rfl, hdeclared, fun node hnode => ?_⟩
    obtain ⟨es, hes, hread, -⟩ := section_of_overlay hp hlower hupper h hnode
    rw [Value.entriesOrEmpty_ofEntries, hread]
    exact ih node hnode (hp.section hnode) (hlower.read node.key).orEmptyMap
      (hupper.read node.key).orEmptyMap hes

end Schema

end LayeredConfig
