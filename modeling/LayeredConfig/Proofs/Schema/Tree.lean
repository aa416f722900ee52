import LayeredConfig.Completion
import LayeredConfig.Proofs.Data.Lookup
import LayeredConfig.Schema.Declaration

/-!
# The tree of a schema

A schema with all that is nested in it through sections.

- `Schema.nested`: the schema itself and the schemas nested in it; `Schema.enclosed`: the latter
  alone.
- `Schema.Proper`: at every level the keys are distinct, as `Schema.declare` sees to it, and none
  is the reserved key.
- `Schema.under?`: the schema to which the keys of nested sections lead.
- `Schema.declaredSettings`: all settings, each with the sections on the way to it, in document
  order. `mem_declaredSettings_iff` and `nodup_settingPaths` say that these are the settings found
  by way of `under?`, each once.

Statements about all schemas go by `Schema.induction`: what holds of a schema whenever it holds of
the schemas of its sections holds of every schema. `Schema.enclosed_induction` assumes it of all
schemas below.
-/

namespace LayeredConfig

/-! ## Nested schemas -/

mutual

/-- The schema itself and all schemas nested in it through sections. -/
def Schema.nested : Schema → List Schema
  | ⟨description, settings, sections⟩ =>
    ⟨description, settings, sections⟩ :: Section.allNested sections

/-- The schemas of several sections, and all schemas nested in them. -/
def Section.allNested : List Section → List Schema
  | [] => []
  | ⟨_, schema, _⟩ :: rest => schema.nested ++ Section.allNested rest

end

/-- The schemas nested in a schema, without the schema itself. -/
def Schema.enclosed (schema : Schema) : List Schema :=
  schema.sections.flatMap fun node => node.schema.nested

theorem Section.allNested_eq_flatMap (sections : List Section) :
    Section.allNested sections = sections.flatMap fun node => node.schema.nested := by
  induction sections with
  | nil => rfl
  | cons node rest ih =>
    obtain ⟨key, schema, inherit⟩ := node
    rw [Section.allNested, ih]
    rfl

theorem Schema.nested_eq (schema : Schema) : schema.nested = schema :: schema.enclosed := by
  obtain ⟨description, settings, sections⟩ := schema
  rw [Schema.nested, Section.allNested_eq_flatMap]
  rfl

theorem Schema.self_mem_nested (schema : Schema) : schema ∈ schema.nested := by
  rw [Schema.nested_eq]
  exact List.mem_cons_self

theorem Schema.mem_enclosed_iff {schema inner : Schema} :
    inner ∈ schema.enclosed ↔ ∃ node ∈ schema.sections, inner ∈ node.schema.nested :=
  List.mem_flatMap

theorem Schema.mem_nested_of_mem_enclosed {schema inner : Schema} (h : inner ∈ schema.enclosed) :
    inner ∈ schema.nested := by
  rw [Schema.nested_eq]
  exact List.mem_cons_of_mem _ h

theorem Schema.mem_nested_of_section {schema inner : Schema} {node : Section}
    (hnode : node ∈ schema.sections) (h : inner ∈ node.schema.nested) :
    inner ∈ schema.nested :=
  Schema.mem_nested_of_mem_enclosed (Schema.mem_enclosed_iff.2 ⟨node, hnode, h⟩)

mutual

/-- What passes from the schemas of the sections to the schema holds of every schema. -/
theorem Schema.induction {P : Schema → Prop}
    (step : ∀ schema : Schema, (∀ node ∈ schema.sections, P node.schema) → P schema) :
    ∀ schema : Schema, P schema
  | ⟨_, _, sections⟩ => step _ (Section.induction step sections)

/-- `Schema.induction` for the sections of a schema. -/
theorem Section.induction {P : Schema → Prop}
    (step : ∀ schema : Schema, (∀ node ∈ schema.sections, P node.schema) → P schema) :
    ∀ sections : List Section, ∀ node ∈ sections, P node.schema
  | [], _, h => nomatch h
  | ⟨_, schema, _⟩ :: rest, node, h => by
    rcases List.mem_cons.1 h with rfl | h
    · exact Schema.induction step schema
    · exact Section.induction step rest node h

end

namespace Schema

/-- What is nested in a nested schema is nested in the outer one. -/
theorem mem_nested_trans {schema inner innermost : Schema} (hinner : inner ∈ schema.nested)
    (h : innermost ∈ inner.nested) : innermost ∈ schema.nested := by
  induction schema using Schema.induction with
  | step schema ih =>
    rw [nested_eq] at hinner
    rcases List.mem_cons.1 hinner with rfl | hinner
    · exact h
    · obtain ⟨node, hnode, hinner⟩ := mem_enclosed_iff.1 hinner
      exact mem_nested_of_section hnode (ih node hnode hinner)

theorem mem_enclosed_trans {schema inner innermost : Schema} (hinner : inner ∈ schema.enclosed)
    (h : innermost ∈ inner.nested) : innermost ∈ schema.enclosed := by
  obtain ⟨node, hnode, hinner⟩ := mem_enclosed_iff.1 hinner
  exact mem_enclosed_iff.2 ⟨node, hnode, mem_nested_trans hinner h⟩

theorem mem_enclosed_of_section {schema : Schema} {node : Section}
    (hnode : node ∈ schema.sections) : node.schema ∈ schema.enclosed :=
  mem_enclosed_iff.2 ⟨node, hnode, node.schema.self_mem_nested⟩

/-- What passes from all enclosed schemas to the schema holds of every schema. Where sections of a
level are taken over at any depth below, those of the level itself are not enough. -/
theorem enclosed_induction {P : Schema → Prop}
    (step : ∀ schema : Schema, (∀ inner ∈ schema.enclosed, P inner) → P schema)
    (schema : Schema) : P schema := by
  suffices hnested : ∀ inner ∈ schema.nested, P inner from hnested schema schema.self_mem_nested
  induction schema using Schema.induction with
  | step schema ih =>
    have henclosed : ∀ inner ∈ schema.enclosed, P inner := by
      intro inner hinner
      obtain ⟨node, hnode, hinner⟩ := mem_enclosed_iff.1 hinner
      exact ih node hnode inner hinner
    intro inner hinner
    rw [nested_eq] at hinner
    rcases List.mem_cons.1 hinner with rfl | hinner
    · exact step _ henclosed
    · exact henclosed inner hinner

/-! ## Proper schemas -/

/-- Every level has distinct keys, none of which is the reserved one. -/
structure Proper (schema : Schema) : Prop where
  distinct : ∀ inner ∈ schema.nested, inner.DistinctKeys
  unreserved : ∀ inner ∈ schema.nested, reservedKey ∉ inner.keys

instance (schema : Schema) : Decidable schema.DistinctKeys :=
  inferInstanceAs (Decidable schema.keys.Nodup)

instance (schema : Schema) : Decidable schema.Proper :=
  decidable_of_iff
    (∀ inner ∈ schema.nested, inner.DistinctKeys ∧ reservedKey ∉ inner.keys)
    ⟨fun h => ⟨fun inner hinner => (h inner hinner).1, fun inner hinner => (h inner hinner).2⟩,
      fun h inner hinner => ⟨h.distinct inner hinner, h.unreserved inner hinner⟩⟩

theorem Proper.distinctKeys {schema : Schema} (h : schema.Proper) : schema.DistinctKeys :=
  h.distinct schema schema.self_mem_nested

theorem Proper.section {schema : Schema} (h : schema.Proper) {node : Section}
    (hnode : node ∈ schema.sections) : node.schema.Proper where
  distinct inner hinner := h.distinct inner (mem_nested_of_section hnode hinner)
  unreserved inner hinner := h.unreserved inner (mem_nested_of_section hnode hinner)

theorem Proper.of_mem_nested {schema inner : Schema} (h : schema.Proper)
    (hinner : inner ∈ schema.nested) : inner.Proper where
  distinct innermost h' := h.distinct innermost (mem_nested_trans hinner h')
  unreserved innermost h' := h.unreserved innermost (mem_nested_trans hinner h')

theorem mem_keys_iff {schema : Schema} {key : String} :
    key ∈ schema.keys ↔
      (∃ s ∈ schema.settings, s.key = key) ∨ ∃ node ∈ schema.sections, node.key = key := by
  simp [keys, List.mem_append, List.mem_map]

theorem mem_keys_of_setting {schema : Schema} {s : Setting} (h : s ∈ schema.settings) :
    s.key ∈ schema.keys :=
  List.mem_append_left _ (List.mem_map_of_mem h)

theorem mem_keys_of_section {schema : Schema} {node : Section} (h : node ∈ schema.sections) :
    node.key ∈ schema.keys :=
  List.mem_append_right _ (List.mem_map_of_mem h)

/-- Declared keys, at any depth, may be created in a map. -/
theorem Proper.ne_reservedKey {schema inner : Schema} (h : schema.Proper)
    (hinner : inner ∈ schema.nested) {key : String} (hkey : key ∈ inner.keys) :
    key ≠ reservedKey := by
  rintro rfl
  exact h.unreserved inner hinner hkey

theorem DistinctKeys.settings {schema : Schema} (h : schema.DistinctKeys) :
    (schema.settings.map Setting.key).Nodup :=
  (List.nodup_append.1 h).1

theorem DistinctKeys.sections {schema : Schema} (h : schema.DistinctKeys) :
    (schema.sections.map Section.key).Nodup :=
  (List.nodup_append.1 h).2.1

theorem DistinctKeys.ne {schema : Schema} (h : schema.DistinctKeys) {s : Setting}
    (hs : s ∈ schema.settings) {node : Section} (hnode : node ∈ schema.sections) :
    s.key ≠ node.key :=
  (List.nodup_append.1 h).2.2 _ (List.mem_map_of_mem hs) _ (List.mem_map_of_mem hnode)

end Schema

/-! ## Declarations by key -/

/-- Distinct keys make an element the one that is found by its key. -/
theorem find?_key_of_mem {α : Type} {key : α → String} {xs : List α} (hn : (xs.map key).Nodup)
    {x : α} (hx : x ∈ xs) : (xs.find? fun y => key y == key x) = some x := by
  induction xs with
  | nil => cases hx
  | cons y rest ih =>
    obtain ⟨hy, hn⟩ := List.nodup_cons.1 hn
    rcases List.mem_cons.1 hx with rfl | hx
    · simp
    · have hne : key y ≠ key x := by
        intro heq
        exact hy (heq ▸ List.mem_map_of_mem hx)
      rw [List.find?_cons_of_neg (by simpa using hne), ih hn hx]

namespace Schema

theorem DistinctKeys.section?_of_mem {schema : Schema} (h : schema.DistinctKeys)
    {node : Section} (hnode : node ∈ schema.sections) : schema.section? node.key = some node :=
  find?_key_of_mem h.sections hnode

theorem DistinctKeys.setting?_of_mem {schema : Schema} (h : schema.DistinctKeys)
    {s : Setting} (hs : s ∈ schema.settings) : schema.setting? s.key = some s :=
  find?_key_of_mem h.settings hs

theorem mem_of_section? {schema : Schema} {key : String} {node : Section}
    (h : schema.section? key = some node) : node ∈ schema.sections ∧ node.key = key :=
  ⟨List.mem_of_find?_eq_some h, by simpa using List.find?_some h⟩

/-! ## Places in a schema -/

/-- The schema to which the keys of nested sections lead. -/
def under? : Schema → List String → Option Schema
  | schema, [] => some schema
  | schema, key :: rest =>
    match schema.section? key with
    | some node => node.schema.under? rest
    | none => none

theorem under?_cons_eq_some_iff {schema inner : Schema} {key : String} {rest : List String} :
    schema.under? (key :: rest) = some inner ↔
      ∃ node, schema.section? key = some node ∧ node.schema.under? rest = some inner := by
  cases h : schema.section? key with
  | none => simp [under?, h]
  | some node => simp [under?, h]

theorem DistinctKeys.under?_cons {schema : Schema} (h : schema.DistinctKeys) {node : Section}
    (hnode : node ∈ schema.sections) (rest : List String) :
    schema.under? (node.key :: rest) = node.schema.under? rest := by
  simp [under?, h.section?_of_mem hnode]

/-- A way through sections may be gone in two parts. -/
theorem under?_append_eq_some_iff {schema inner : Schema} {before after : List String} :
    schema.under? (before ++ after) = some inner ↔
      ∃ outer, schema.under? before = some outer ∧ outer.under? after = some inner := by
  induction before generalizing schema with
  | nil => simp [under?]
  | cons head rest ih =>
    rw [List.cons_append, under?_cons_eq_some_iff]
    constructor
    · rintro ⟨node, hnode, hrest⟩
      obtain ⟨outer, houter, hafter⟩ := ih.1 hrest
      exact ⟨outer, under?_cons_eq_some_iff.2 ⟨node, hnode, houter⟩, hafter⟩
    · rintro ⟨outer, houter, hafter⟩
      obtain ⟨node, hnode, hrest⟩ := under?_cons_eq_some_iff.1 houter
      exact ⟨node, hnode, ih.2 ⟨outer, hrest, hafter⟩⟩

theorem mem_nested_of_under? {schema inner : Schema} {keys : List String}
    (h : schema.under? keys = some inner) : inner ∈ schema.nested := by
  induction keys generalizing schema with
  | nil =>
    cases h
    exact self_mem_nested _
  | cons key rest ih =>
    obtain ⟨node, hnode, hrest⟩ := under?_cons_eq_some_iff.1 h
    exact mem_nested_of_section (mem_of_section? hnode).1 (ih hrest)

/-- A schema on the way encloses the one to which the rest of the way leads. -/
theorem mem_enclosed_of_under? {schema outer inner : Schema} {keys : List String} {j : Nat}
    (houter : schema.under? (keys.take j) = some outer) (hinner : schema.under? keys = some inner)
    (hj : j < keys.length) : inner ∈ outer.enclosed := by
  obtain ⟨key, hdrop⟩ : ∃ key, keys.drop j = key :: keys.drop (j + 1) :=
    ⟨keys[j], List.drop_eq_getElem_cons hj⟩
  rw [← List.take_append_drop j keys, hdrop] at hinner
  obtain ⟨outer', houter', hrest⟩ := under?_append_eq_some_iff.1 hinner
  cases houter.symm.trans houter'
  obtain ⟨node, hnode, hrest⟩ := under?_cons_eq_some_iff.1 hrest
  exact mem_enclosed_iff.2 ⟨node, (mem_of_section? hnode).1, mem_nested_of_under? hrest⟩

theorem Proper.under? {schema inner : Schema} (hp : schema.Proper) {keys : List String}
    (h : schema.under? keys = some inner) : inner.Proper := by
  induction keys generalizing schema with
  | nil =>
    cases h
    exact hp
  | cons key rest ih =>
    obtain ⟨node, hnode, hrest⟩ := under?_cons_eq_some_iff.1 h
    exact ih (hp.section (mem_of_section? hnode).1) hrest

/-- The way to a declared key begins with a declared key. -/
theorem head_mem_keys {schema inner : Schema} {keys : List String}
    (h : schema.under? keys = some inner) {key : String} (hkey : key ∈ inner.keys) {head : String}
    (hhead : head ∈ (keys ++ [key]).head?) : head ∈ schema.keys := by
  cases keys with
  | nil =>
    cases h
    cases hhead
    exact hkey
  | cons first rest =>
    obtain ⟨node, hnode, -⟩ := under?_cons_eq_some_iff.1 h
    cases hhead
    obtain ⟨hmem, rfl⟩ := mem_of_section? hnode
    exact mem_keys_of_section hmem

end Schema

/-! ## Document order -/

mutual

/-- All settings with the keys of the sections around them, in document order: at each level the
settings in declaration order, then what the sections declare. -/
def Schema.declaredSettings : Schema → List (List String × Setting)
  | ⟨_, settings, sections⟩ =>
    settings.map (fun s => ([], s)) ++ Section.declaredSettings sections

/-- What several sections declare. -/
def Section.declaredSettings : List Section → List (List String × Setting)
  | [] => []
  | ⟨key, schema, _⟩ :: rest =>
    schema.declaredSettings.map (fun d => (key :: d.1, d.2)) ++ Section.declaredSettings rest

end

theorem Section.declaredSettings_eq_flatMap (sections : List Section) :
    Section.declaredSettings sections =
      sections.flatMap fun node =>
        node.schema.declaredSettings.map fun d => (node.key :: d.1, d.2) := by
  induction sections with
  | nil => rfl
  | cons node rest ih =>
    obtain ⟨key, schema, inherit⟩ := node
    rw [Section.declaredSettings, ih]
    rfl

namespace Schema

theorem declaredSettings_eq (schema : Schema) :
    schema.declaredSettings =
      schema.settings.map (fun s => ([], s)) ++
        schema.sections.flatMap fun node =>
          node.schema.declaredSettings.map fun d => (node.key :: d.1, d.2) := by
  obtain ⟨description, settings, sections⟩ := schema
  rw [Schema.declaredSettings, Section.declaredSettings_eq_flatMap]

/-- **The declared settings are those to which declared sections lead.** -/
theorem mem_declaredSettings_iff {schema : Schema} (hp : schema.Proper) {keys : List String}
    {s : Setting} :
    (keys, s) ∈ schema.declaredSettings ↔
      ∃ inner, schema.under? keys = some inner ∧ s ∈ inner.settings := by
  induction keys generalizing schema with
  | nil =>
    rw [declaredSettings_eq, List.mem_append]
    simp [under?]
  | cons key rest ih =>
    rw [declaredSettings_eq, List.mem_append, List.mem_flatMap]
    constructor
    · rintro (h | ⟨node, hnode, h⟩)
      · simp at h
      · obtain ⟨⟨keys', s'⟩, hd, heq⟩ := List.mem_map.1 h
        obtain ⟨⟨rfl, rfl⟩, rfl⟩ := by simpa using heq
        rw [hp.distinctKeys.under?_cons hnode]
        exact (ih (hp.section hnode)).1 hd
    · rintro ⟨inner, hinner, hs⟩
      obtain ⟨node, hfind, hrest⟩ := under?_cons_eq_some_iff.1 hinner
      obtain ⟨hnode, rfl⟩ := mem_of_section? hfind
      have hd : (rest, s) ∈ node.schema.declaredSettings :=
        (ih (hp.section hnode)).2 ⟨inner, hrest, hs⟩
      exact .inr ⟨node, hnode, List.mem_map.2 ⟨_, hd, rfl⟩⟩

/-- The keys on the way to each declared setting, its own key last. -/
def settingPaths (schema : Schema) : List (List String) :=
  schema.declaredSettings.map fun d => d.1 ++ [d.2.key]

theorem settingPaths_eq (schema : Schema) :
    schema.settingPaths =
      (schema.settings.map Setting.key).map (fun key => [key]) ++
        schema.sections.flatMap fun node =>
          node.schema.settingPaths.map fun keys => node.key :: keys := by
  unfold settingPaths
  rw [declaredSettings_eq schema, List.map_append, List.map_flatMap]
  simp only [List.map_map]
  rfl

theorem ne_nil_of_mem_settingPaths {schema : Schema} {keys : List String}
    (h : keys ∈ schema.settingPaths) : keys ≠ [] := by
  obtain ⟨d, -, rfl⟩ := List.mem_map.1 h
  simp

/-- **No two declared settings stand at the same place.** -/
theorem nodup_settingPaths {schema : Schema} (hp : schema.Proper) :
    schema.settingPaths.Nodup := by
  induction schema using Schema.induction with
  | step schema ih =>
    rw [settingPaths_eq]
    refine List.nodup_append.2 ⟨?_, ?_, ?_⟩
    · exact List.Pairwise.map _ (fun a b hne heq => hne (List.singleton_inj.1 heq))
        hp.distinctKeys.settings
    · -- paths through different sections begin differently
      refine List.pairwise_flatMap.2 ⟨fun node hnode => ?_, ?_⟩
      · exact List.Pairwise.map _ (fun a b hne heq => hne (List.cons.inj heq).2)
          (ih node hnode (hp.section hnode))
      · refine (List.pairwise_map.1 hp.distinctKeys.sections).imp fun hne x hx y hy heq => ?_
        obtain ⟨keys, -, rfl⟩ := List.mem_map.1 hx
        obtain ⟨keys', -, rfl⟩ := List.mem_map.1 hy
        exact hne (List.cons.inj heq).1
    · -- a path of a setting has one key, one through a section at least two
      intro x hx y hy heq
      obtain ⟨key, -, rfl⟩ := List.mem_map.1 hx
      obtain ⟨node, -, hy⟩ := List.mem_flatMap.1 hy
      obtain ⟨keys, hkeys, rfl⟩ := List.mem_map.1 hy
      exact ne_nil_of_mem_settingPaths hkeys (List.cons.inj heq).2.symm

end Schema

end LayeredConfig
