import LayeredConfig.Fault

/-!
# Declaring schemas

A schema is declared as a description and a list of declarations, settings and sections mixed.

- `Schema.declare`: keeps the declarations of each kind in order, and refuses a list in which
  two of them share a key, naming the first key that occurs again (`firstRepeated?`).
- `Schema.setting?`, `Schema.section?`: the declaration of a key. `Schema.settingsByKey` and
  `Schema.sectionsByKey` are the indexes that are built for this.
- `Schema.DistinctKeys`: what `declare` establishes; `declare_distinctKeys` says so.
-/

namespace LayeredConfig

/-- A setting or a section. -/
inductive Declaration where
  | setting (setting : Setting)
  | nested (node : Section)

namespace Declaration

/-- The declared key. -/
def key : Declaration → String
  | .setting s => s.key
  | .nested s => s.key

/-- The setting, if it is one. -/
def setting? : Declaration → Option Setting
  | .setting s => some s
  | .nested _ => none

/-- The section, if it is one. -/
def section? : Declaration → Option Section
  | .setting _ => none
  | .nested s => some s

end Declaration

/-- The first of the keys that occurs among the keys before it, or among `seen`. -/
def firstRepeated? (seen : List String) : List String → Option String
  | [] => none
  | k :: rest => if k ∈ seen then some k else firstRepeated? (k :: seen) rest

theorem firstRepeated?_eq_none_iff {seen keys : List String} :
    firstRepeated? seen keys = none ↔ (∀ k ∈ keys, k ∉ seen) ∧ keys.Nodup := by
  induction keys generalizing seen with
  | nil => simp [firstRepeated?]
  | cons k rest ih =>
    by_cases h : k ∈ seen
    · simp [firstRepeated?, h]
    · simp only [firstRepeated?, if_neg h, ih, List.mem_cons, not_or, List.nodup_cons,
        forall_eq_or_imp]
      constructor
      · rintro ⟨hs, hn⟩
        exact ⟨⟨h, fun a ha => (hs a ha).2⟩, fun hk => (hs k hk).1 rfl, hn⟩
      · rintro ⟨⟨_, hs⟩, hk, hn⟩
        exact ⟨fun a ha => ⟨fun e => hk (e ▸ ha), hs a ha⟩, hn⟩

/-- The index of pairs by key, in order of insertion. A key that comes again gets another value
where it stands. -/
def byKey {α : Type} (pairs : List (String × α)) : List (String × α) :=
  pairs.foldl (fun index pair =>
    if Entries.has index pair.1 then Entries.replace pair.1 pair.2 index else index ++ [pair]) []

namespace Schema

/-- Builds a schema from its declarations. -/
def declare (description : String) (declarations : List Declaration) : Except Fault Schema :=
  match firstRepeated? [] (declarations.map Declaration.key) with
  | some key => .error (.duplicateKey key description)
  | none =>
    .ok ⟨description, declarations.filterMap Declaration.setting?,
      declarations.filterMap Declaration.section?⟩

/-- The setting of a key. -/
def setting? (schema : Schema) (key : String) : Option Setting :=
  schema.settings.find? (·.key == key)

/-- The section of a key. -/
def section? (schema : Schema) (key : String) : Option Section :=
  schema.sections.find? (·.key == key)

/-- The settings by key. -/
def settingsByKey (schema : Schema) : List (String × Setting) :=
  byKey (schema.settings.map fun s => (s.key, s))

/-- The sections by key. -/
def sectionsByKey (schema : Schema) : List (String × Section) :=
  byKey (schema.sections.map fun node => (node.key, node))

/-- The declared keys, settings first. -/
def keys (schema : Schema) : List String :=
  schema.settings.map Setting.key ++ schema.sections.map Section.key

/-- No key is declared twice. -/
def DistinctKeys (schema : Schema) : Prop := schema.keys.Nodup

theorem mem_map_key_setting {ds : List Declaration} {k : String}
    (h : k ∈ (ds.filterMap Declaration.setting?).map Setting.key) : k ∈ ds.map Declaration.key := by
  simp only [List.mem_map, List.mem_filterMap] at h ⊢
  obtain ⟨s, ⟨d, hd, hs⟩, rfl⟩ := h
  cases d <;> simp [Declaration.setting?] at hs
  exact ⟨_, hd, by simp [Declaration.key, hs]⟩

theorem mem_map_key_section {ds : List Declaration} {k : String}
    (h : k ∈ (ds.filterMap Declaration.section?).map Section.key) : k ∈ ds.map Declaration.key := by
  simp only [List.mem_map, List.mem_filterMap] at h ⊢
  obtain ⟨s, ⟨d, hd, hs⟩, rfl⟩ := h
  cases d <;> simp [Declaration.section?] at hs
  exact ⟨_, hd, by simp [Declaration.key, hs]⟩

/-- **A declared schema has distinct keys.** -/
theorem declare_distinctKeys {description : String} {ds : List Declaration} {schema : Schema}
    (h : declare description ds = .ok schema) : schema.DistinctKeys := by
  unfold declare at h
  split at h
  · simp at h
  · rename_i hnone
    cases h
    have hnodup := (firstRepeated?_eq_none_iff.1 hnone).2
    clear hnone
    unfold DistinctKeys keys
    induction ds with
    | nil => simp
    | cons d rest ih =>
      simp only [List.map_cons, List.nodup_cons] at hnodup
      have ih := ih hnodup.2
      cases d with
      | setting s =>
        simp only [List.filterMap_cons, Declaration.setting?, Declaration.section?, List.map_cons,
          List.cons_append, List.nodup_cons]
        refine ⟨fun hm => hnodup.1 ?_, ih⟩
        rcases List.mem_append.1 hm with hm | hm
        · exact mem_map_key_setting hm
        · exact mem_map_key_section hm
      | nested s =>
        simp only [List.filterMap_cons, Declaration.setting?, Declaration.section?, List.map_cons]
        rw [List.nodup_append] at ih ⊢
        refine ⟨ih.1, ?_, ?_⟩
        · exact List.nodup_cons.2 ⟨fun hm => hnodup.1 (mem_map_key_section hm), ih.2.1⟩
        · intro a ha b hb
          rcases List.mem_cons.1 hb with rfl | hb
          · rintro rfl
            exact hnodup.1 (mem_map_key_setting ha)
          · exact ih.2.2 a ha b hb

end Schema

end LayeredConfig
