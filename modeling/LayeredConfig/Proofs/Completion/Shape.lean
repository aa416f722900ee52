import LayeredConfig.Proofs.Completion.InheritedSections
import LayeredConfig.Proofs.Data.Canonical

/-!
# The shape of a completed map

A completed map has exactly the declared keys, in property order, at every level
(`Schema.shaped_of_complete`).

- `Schema.Shaped`: a value is a map of that shape, said by recursion on the schema.
- `Schema.Shaped.copy`, `Schema.Shaped.held?_exists`: a copy keeps the shape, and a map of the shape
  holds something at every declared setting.
- `Schema.InheritsShaped`: whatever is inherited under the key of a section has the shape that the
  section asks for. An inherited section was completed for another place, so the shape of a
  completed map rests on that of what is in scope (`InheritsShaped.shaped`), and what is handed
  down keeps to it (`InheritsShaped.handDownSection`).
-/

namespace LayeredConfig

mutual

/-- The value is a map whose keys are the declared ones, each once, in property order: the settings
as declared, then the sections. Under each section it holds a map of the shape of the section. -/
def Schema.Shaped : Schema → Value → Prop
  | ⟨_, settings, sections⟩, v =>
    v.isMap = true ∧ (Entries.keys v.entriesOrEmpty).Nodup ∧
    Entries.keys v.entriesOrEmpty =
      propertyOrder (settings.map Setting.key ++ sections.map Section.key) ∧
    Section.AllShaped sections v.entriesOrEmpty

/-- Under each of the sections there is a map of the shape of the section. -/
def Section.AllShaped : List Section → Entries Value → Prop
  | [], _ => True
  | ⟨key, schema, _⟩ :: rest, es =>
    (∃ w, Entries.get? es key = some w ∧ schema.Shaped w) ∧ Section.AllShaped rest es

end

theorem Section.allShaped_iff (sections : List Section) (es : Entries Value) :
    Section.AllShaped sections es ↔
      ∀ node ∈ sections, ∃ w, Entries.get? es node.key = some w ∧ node.schema.Shaped w := by
  induction sections with
  | nil => simp [Section.AllShaped]
  | cons node rest ih =>
    obtain ⟨key, schema, inherit⟩ := node
    rw [Section.AllShaped, ih, List.forall_mem_cons]

namespace Schema

variable {schema inner : Schema} {inherited given out : Entries Value} {path : Path} {v : Value}
  {node : Section} {keys : List String}

theorem shaped_iff (schema : Schema) (v : Value) :
    schema.Shaped v ↔
      v.isMap = true ∧ (Entries.keys v.entriesOrEmpty).Nodup ∧
      Entries.keys v.entriesOrEmpty = propertyOrder schema.keys ∧
      ∀ node ∈ schema.sections, ∃ w,
        Entries.get? v.entriesOrEmpty node.key = some w ∧ node.schema.Shaped w := by
  obtain ⟨description, settings, sections⟩ := schema
  rw [Shaped, Section.allShaped_iff]
  rfl

/-! ## What is inherited -/

/-- What is inherited under the key of a section, at or below the level, has the shape of that
section. -/
def InheritsShaped (schema : Schema) (inherited : Entries Value) : Prop :=
  ∀ inner ∈ schema.nested, ∀ node ∈ inner.sections, ∀ w,
    Entries.get? inherited node.key = some w → node.schema.Shaped w

theorem inheritsShaped_nil (schema : Schema) : schema.InheritsShaped [] := by
  intro _ _ _ _ _ hw
  cases hw

theorem InheritsShaped.section (h : schema.InheritsShaped inherited)
    (hnode : node ∈ schema.sections) : node.schema.InheritsShaped inherited :=
  fun inner hinner => h inner (mem_nested_of_section hnode hinner)

/-- Settings hand nothing down to a section. -/
theorem InheritsShaped.handedDown (h : schema.InheritsShaped inherited) (hp : schema.Proper)
    (hk : schema.InheritsInKind) (hn : (Entries.keys given).Nodup) :
    schema.InheritsShaped (schema.handedDown inherited given) := by
  intro inner hinner node hnode w hw
  rw [get?_handedDown_of_section hp hk hn hinner hnode] at hw
  exact h inner hinner node hnode w hw

/-- A section hands a map of its shape down to sections that have its schema. -/
theorem InheritsShaped.handDownSection (h : schema.InheritsShaped inherited) (hp : schema.Proper)
    (hk : schema.InheritsInKind) (hnode : node ∈ schema.sections)
    (hout : node.schema.Shaped (.ofEntries out)) :
    schema.InheritsShaped (handDownSection node.slot inherited out) := by
  intro inner hinner node' hnode' w hw
  have hkey : node'.key ≠ reservedKey := hp.ne_reservedKey hinner (mem_keys_of_section hnode')
  rw [get?_handDownSection _ hkey, Section.inherit_slot, Section.key_slot] at hw
  split at hw
  · rename_i hdown
    cases hw
    rw [hk.schema_eq hp.distinctKeys hnode hdown.1 hinner hnode' hdown.2.symm]
    exact hout
  · exact h inner hinner node' hnode' w hw

/-! ## What is completed -/

/-- A completed level has the declared keys, in property order. -/
theorem keys_of_complete (hp : schema.Proper) (hv : v.WellFormed)
    (h : schema.complete inherited path v = .ok out) :
    Entries.keys out = propertyOrder schema.keys := by
  obtain ⟨-, filled, progress, rfl, hdone⟩ := levelDone_of_complete hp hv.nodup h
  have hreserved : reservedKey ∉ Entries.keys filled := by
    rw [hdone.keys]
    exact fun hmem => hp.ne_reservedKey schema.self_mem_nested hmem rfl
  rw [Entries.keys_rebuild (hdone.nodup hp) hreserved, hdone.keys]

/-- **The shape of a completed map,** where all that is inherited is shaped. -/
theorem InheritsShaped.shaped (h : schema.InheritsShaped inherited) (hp : schema.Proper)
    (hk : schema.InheritsInKind) (hv : v.WellFormed)
    (hout : schema.complete inherited path v = .ok out) : schema.Shaped (.ofEntries out) := by
  induction schema using Schema.induction generalizing inherited path v out with
  | step schema ih =>
    have hkeys : Entries.keys out = propertyOrder schema.keys := keys_of_complete hp hv hout
    refine (shaped_iff _ _).2 ⟨rfl, ?_, hkeys, ?_⟩
    · show (Entries.keys out).Nodup
      rw [hkeys]
      exact nodup_propertyOrder hp.distinctKeys
    · intro node hnode
      obtain ⟨scope, w, hscope, hw, hget⟩ := section_of_complete hp hv hout hnode
      -- the sections before this one, too, hand shaped maps down
      have hshaped : schema.InheritsShaped scope := by
        refine sectionScope_invariant hscope (h.handedDown hp hk hv.nodup) ?_
        intro node' hnode' scope' x es hx hscope' hes
        refine hscope'.handDownSection hp hk hnode' ?_
        exact ih node' hnode' (hscope'.section hnode') (hp.section hnode') (hk.section hnode')
          (hv.entriesOrEmpty.2 _ hx) hes
      refine ⟨w, hget, ?_⟩
      rcases Section.outcome_cases hv hw with ⟨x, es, hx, hes, rfl⟩ | hinherited
      · exact ih node hnode (hshaped.section hnode) (hp.section hnode) (hk.section hnode) hx hes
      · exact hshaped schema schema.self_mem_nested node hnode w hinherited

/-- **The shape of a normalized map.** Where inheritance fits in kind, whatever is accepted becomes
a map with exactly the declared keys, each once and in property order, at every level. -/
theorem shaped_of_complete {w : Value} (hp : schema.Proper) (hk : schema.InheritsInKind)
    (hv : v.WellFormed) (h : (Range.schema schema).complete path v = .ok w) :
    schema.Shaped w := by
  obtain ⟨out, hout, rfl⟩ := map_eq_ok_iff.1 h
  exact (inheritsShaped_nil schema).shaped hp hk hv hout

/-! ## Reading and copying -/

/-- A shaped map holds something at every declared setting. -/
theorem Shaped.held?_exists (h : schema.Shaped v) (hinner : schema.under? keys = some inner)
    {s : Setting} (hs : s ∈ inner.settings) : ∃ x, v.held? keys s.key = some x := by
  induction keys generalizing schema v with
  | nil =>
    cases hinner
    have hmem : s.key ∈ Entries.keys v.entriesOrEmpty := by
      rw [((shaped_iff _ _).1 h).2.2.1, mem_propertyOrder]
      exact mem_keys_of_setting hs
    exact Option.isSome_iff_exists.1 (Entries.has_iff.2 hmem)
  | cons head rest ih =>
    obtain ⟨node, hnode, hrest⟩ := under?_cons_eq_some_iff.1 hinner
    obtain ⟨hmem, rfl⟩ := mem_of_section? hnode
    obtain ⟨x, hx, hshaped⟩ := ((shaped_iff _ _).1 h).2.2.2 node hmem
    obtain ⟨y, hy⟩ := ih hshaped hrest
    exact ⟨y, (Value.held?_cons_of_get? hx rest s.key).trans hy⟩

/-- A shaped map does not have the reserved key. -/
theorem Shaped.reservedKey_not_mem (hp : schema.Proper) (h : schema.Shaped v) :
    reservedKey ∉ Entries.keys v.entriesOrEmpty := by
  rw [((shaped_iff _ _).1 h).2.2.1, mem_propertyOrder]
  exact hp.unreserved schema schema.self_mem_nested

/-- The copy of a shaped map is an ordinary map. -/
theorem Shaped.copy_eq (hp : schema.Proper) (h : schema.Shaped v) :
    v.copy = .ofEntries v.entriesOrEmpty.copy :=
  Value.copy_of_isMap ((shaped_iff _ _).1 h).1 (h.reservedKey_not_mem hp)

/-- The copy of a shaped map holds the copies. -/
theorem Shaped.get?_copy (hp : schema.Proper) (h : schema.Shaped v) (key : String) :
    Entries.get? v.copy.entriesOrEmpty key =
      (Entries.get? v.entriesOrEmpty key).map Value.copy :=
  Value.get?_copy ((shaped_iff _ _).1 h).2.1 (h.reservedKey_not_mem hp) key

theorem Shaped.read_copy (hp : schema.Proper) (h : schema.Shaped v) (key : String) :
    Entries.read v.copy.entriesOrEmpty key = (Entries.read v.entriesOrEmpty key).copy :=
  Value.read_copy ((shaped_iff _ _).1 h).2.1 (h.reservedKey_not_mem hp) key

/-- A copy has the shape of what was copied. -/
theorem Shaped.copy (hp : schema.Proper) (h : schema.Shaped v) : schema.Shaped v.copy := by
  induction schema using Schema.induction generalizing v with
  | step schema ih =>
    obtain ⟨-, hn, hkeys, hsections⟩ := (shaped_iff _ _).1 h
    have hcopied : Entries.keys v.copy.entriesOrEmpty = propertyOrder schema.keys := by
      rw [h.copy_eq hp, Value.entriesOrEmpty_ofEntries,
        Entries.keys_copy_eq hn (h.reservedKey_not_mem hp), hkeys,
        propertyOrder_propertyOrder hp.distinctKeys]
    refine (shaped_iff _ _).2 ⟨?_, ?_, hcopied, fun node hnode => ?_⟩
    · rw [h.copy_eq hp]
      rfl
    · rw [hcopied]
      exact nodup_propertyOrder hp.distinctKeys
    · obtain ⟨x, hx, hshaped⟩ := hsections node hnode
      refine ⟨x.copy, ?_, ih node hnode (hp.section hnode) hshaped⟩
      rw [h.get?_copy hp, hx]
      rfl

/-- A sample schema of a board with numbered sections, the later one handed down into the other. -/
def sampleBoard : Schema :=
  ⟨"board", [⟨"name", "name of the board", Range.string (.text "none"), false⟩],
    [⟨"10", ⟨"slot", [], [⟨"9", sampleLimit, false⟩]⟩, false⟩, ⟨"9", sampleLimit, true⟩]⟩

/-- The numbered sections of the sample board come first, and by number. -/
theorem shaped_sampleBoard :
    ∃ w, (Range.schema sampleBoard).complete []
        (.ofEntries [("9", .ofEntries [("mode", .text "lax")]), ("10", .null)]) = .ok w ∧
      Entries.keys w.entriesOrEmpty = ["9", "10", "name"] ∧ sampleBoard.Shaped w := by
  have hkind : sampleBoard.InheritsInKind := by
    constructor <;>
      simp [sampleBoard, sampleLimit, Schema.enclosed, Schema.nested, Section.allNested, forall_and]
  have hmap : (Value.ofEntries
      [("9", .ofEntries [("mode", .text "lax")]), ("10", .null)]).WellFormed := by
    simp +decide [Value.wellFormed_ofEntries_iff, Value.WellFormed.text, Value.WellFormed.null]
  exact ⟨_, rfl, rfl, @shaped_of_complete sampleBoard [] _ _ (by decide) hkind hmap rfl⟩

end Schema

end LayeredConfig
