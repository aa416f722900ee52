import LayeredConfig.Proofs.Data.Outcome
import LayeredConfig.Proofs.Schema.Tree
import Mathlib.Data.List.Nodup

/-!
# Declared schemas

`Schema.declare` goes through the declarations once and keeps the keys that it has seen.

- `firstRepeated?_eq_some_iff`: where it stops. The keys in front of the one that is reported are
  distinct, and it is among them.
- `setting?_eq_some_iff`, `section?_eq_some_iff`: in a schema with distinct keys, a key leads to the
  declaration that has it and to no other.
- `Schema.get?_settingsByKey`, `Schema.get?_sectionsByKey`: the indexes lead to the same.
- `Schema.Declares`: a schema holds what was declared, in the order of declaration, and each
  declaration is found by its key.
- `Schema.declare_faithful`: two declarations with one key are refused, and the first one to repeat
  a key is named. All other declarations make the schema that holds them.
-/

namespace LayeredConfig

namespace Declaration

/-- Whether a setting is declared. -/
def isSetting (d : Declaration) : Bool := d.setting?.isSome

theorem setting?_eq_some_iff {d : Declaration} {s : Setting} :
    d.setting? = some s ↔ d = .setting s := by
  cases d <;> simp [setting?]

theorem section?_eq_some_iff {d : Declaration} {node : Section} :
    d.section? = some node ↔ d = .nested node := by
  cases d <;> simp [section?]

/-- The settings that are declared, in order. -/
theorem map_filterMap_setting? (ds : List Declaration) :
    (ds.filterMap setting?).map .setting = ds.filter isSetting := by
  induction ds with
  | nil => rfl
  | cons d rest ih =>
    cases d with
    | setting s =>
      have hsome : setting? (.setting s) = some s := rfl
      rw [List.filterMap_cons_some hsome, List.map_cons, ih, List.filter_cons_of_pos rfl]
    | nested node =>
      rw [List.filterMap_cons_none rfl, ih, List.filter_cons_of_neg Bool.false_ne_true]

/-- The sections that are declared, in order. -/
theorem map_filterMap_section? (ds : List Declaration) :
    (ds.filterMap section?).map .nested = ds.filter fun d => !d.isSetting := by
  induction ds with
  | nil => rfl
  | cons d rest ih =>
    cases d with
    | setting s =>
      rw [List.filterMap_cons_none rfl, ih, List.filter_cons_of_neg Bool.false_ne_true]
    | nested node =>
      have hsome : section? (.nested node) = some node := rfl
      rw [List.filterMap_cons_some hsome, List.map_cons, ih, List.filter_cons_of_pos rfl]

end Declaration

/-! ## Repeated keys -/

/-- **The key that is reported:** those in front of it are new and distinct, and it was seen before
them or is among them. -/
theorem firstRepeated?_eq_some_iff {seen keys : List String} {key : String} :
    firstRepeated? seen keys = some key ↔
      ∃ before after, keys = before ++ key :: after ∧ (∀ k ∈ before, k ∉ seen) ∧ before.Nodup ∧
        (key ∈ seen ∨ key ∈ before) := by
  induction keys generalizing seen with
  | nil => simp [firstRepeated?]
  | cons first rest ih =>
    by_cases hseen : first ∈ seen
    · -- the walk stops here, and nothing that was seen stands in front of the reported key
      rw [firstRepeated?, if_pos hseen]
      constructor
      · intro h
        cases h
        exact ⟨[], rest, rfl, by simp, List.nodup_nil, .inl hseen⟩
      · rintro ⟨before, after, heq, hnew, -, -⟩
        cases before with
        | nil => exact congrArg some (List.cons.inj heq).1
        | cons k before =>
          obtain ⟨rfl, -⟩ := List.cons.inj heq
          exact absurd hseen (hnew first List.mem_cons_self)
    · -- the walk goes on, having seen one more key
      rw [firstRepeated?, if_neg hseen, ih]
      constructor
      · rintro ⟨before, after, rfl, hnew, hnodup, hkey⟩
        refine ⟨first :: before, after, rfl, ?_, ?_, ?_⟩
        · intro k hk
          rcases List.mem_cons.1 hk with rfl | hk
          · exact hseen
          · exact fun hmem => hnew k hk (List.mem_cons_of_mem _ hmem)
        · exact List.nodup_cons.2 ⟨fun hmem => hnew first hmem List.mem_cons_self, hnodup⟩
        · simpa [or_assoc, or_left_comm] using hkey
      · rintro ⟨before, after, heq, hnew, hnodup, hkey⟩
        cases before with
        | nil =>
          obtain ⟨rfl, -⟩ := List.cons.inj heq
          exact absurd (hkey.resolve_right List.not_mem_nil) hseen
        | cons k before =>
          obtain ⟨rfl, rfl⟩ := List.cons.inj heq
          obtain ⟨hfirst, hnodup⟩ := List.nodup_cons.1 hnodup
          refine ⟨before, after, rfl, fun k hk => ?_, hnodup, ?_⟩
          · rw [List.mem_cons, not_or]
            exact ⟨fun heq => hfirst (heq ▸ hk), hnew k (List.mem_cons_of_mem _ hk)⟩
          · simpa [or_assoc, or_left_comm] using hkey

/-- Two of the declarations have the same key. -/
def ShareKey (ds : List Declaration) : Prop :=
  ∃ (i j : Nat) (d d' : Declaration), i < j ∧ ds[i]? = some d ∧ ds[j]? = some d' ∧ d.key = d'.key

theorem shareKey_iff {ds : List Declaration} :
    ShareKey ds ↔ ¬(ds.map Declaration.key).Nodup := by
  rw [List.nodup_iff_getElem?_ne_getElem?]
  constructor
  · rintro ⟨i, j, d, d', hlt, hd, hd', hkey⟩ hne
    obtain ⟨hj, -⟩ := List.getElem?_eq_some_iff.1 hd'
    refine hne i j hlt (by rwa [List.length_map]) ?_
    rw [List.getElem?_map, List.getElem?_map, hd, hd', Option.map_some, Option.map_some, hkey]
  · intro h
    push Not at h
    obtain ⟨i, j, hlt, hj, heq⟩ := h
    rw [List.length_map] at hj
    have hi : i < ds.length := Nat.lt_trans hlt hj
    refine ⟨i, j, ds[i], ds[j], hlt, List.getElem?_eq_getElem hi, List.getElem?_eq_getElem hj, ?_⟩
    simpa [hi, hj] using heq

/-- A declaration repeats a key of those in front of it, and is the first one to do so. -/
def RepeatsFirst (before : List Declaration) (d : Declaration) : Prop :=
  (before.map Declaration.key).Nodup ∧ d.key ∈ before.map Declaration.key

namespace Schema

variable {schema : Schema} {description : String} {ds : List Declaration}

theorem firstRepeated?_map_key_iff {key : String} :
    firstRepeated? [] (ds.map Declaration.key) = some key ↔
      ∃ before d after, ds = before ++ d :: after ∧ RepeatsFirst before d ∧ d.key = key := by
  rw [firstRepeated?_eq_some_iff]
  constructor
  · rintro ⟨keys, keys', heq, -, hnodup, hkey⟩
    obtain ⟨before, rest, rfl, rfl, hrest⟩ := List.map_eq_append_iff.1 heq
    obtain ⟨d, after, rfl, rfl, -⟩ := List.map_eq_cons_iff.1 hrest
    exact ⟨before, d, after, rfl, ⟨hnodup, hkey.resolve_left List.not_mem_nil⟩, rfl⟩
  · rintro ⟨before, d, after, rfl, ⟨hnodup, hkey⟩, rfl⟩
    exact ⟨before.map Declaration.key, after.map Declaration.key, by simp, by simp, hnodup,
      .inr hkey⟩

/-! ## Finding declarations -/

theorem setting?_eq_some_iff (hd : schema.DistinctKeys) {key : String} {s : Setting} :
    schema.setting? key = some s ↔ s ∈ schema.settings ∧ s.key = key := by
  constructor
  · intro h
    exact ⟨List.mem_of_find?_eq_some h, by simpa using List.find?_some h⟩
  · rintro ⟨hs, rfl⟩
    exact hd.setting?_of_mem hs

theorem section?_eq_some_iff (hd : schema.DistinctKeys) {key : String} {node : Section} :
    schema.section? key = some node ↔ node ∈ schema.sections ∧ node.key = key := by
  constructor
  · exact mem_of_section?
  · rintro ⟨hnode, rfl⟩
    exact hd.section?_of_mem hnode

/-- No key leads to a setting and to a section. -/
theorem setting?_or_section?_eq_none (hd : schema.DistinctKeys) (key : String) :
    schema.setting? key = none ∨ schema.section? key = none := by
  cases hs : schema.setting? key with
  | none => exact .inl rfl
  | some s =>
    cases hnode : schema.section? key with
    | none => exact .inr rfl
    | some node =>
      obtain ⟨hmem, hkey⟩ := (setting?_eq_some_iff hd).1 hs
      obtain ⟨hmem', hkey'⟩ := (section?_eq_some_iff hd).1 hnode
      exact absurd (hkey.trans hkey'.symm) (hd.ne hmem hmem')

/-! ## Indexes -/

theorem byKey_append_of_nodup {α : Type} {index pairs : List (String × α)}
    (h : (Entries.keys (index ++ pairs)).Nodup) :
    pairs.foldl (fun index pair => if Entries.has index pair.1 then
      Entries.replace pair.1 pair.2 index else index ++ [pair]) index = index ++ pairs := by
  induction pairs generalizing index with
  | nil => exact (List.append_nil index).symm
  | cons pair rest ih =>
    have hnew : Entries.has index pair.1 = false := by
      rw [Entries.has_eq_false_iff, Entries.get?_eq_none_iff]
      rw [Entries.keys, List.map_append, List.nodup_append] at h
      exact fun hmem => h.2.2 _ hmem _ List.mem_cons_self rfl
    rw [List.foldl_cons, hnew, if_neg Bool.false_ne_true, ih (by simpa using h)]
    exact (List.append_cons index pair rest).symm

/-- Pairs with distinct keys make up their index as they are. -/
theorem byKey_eq_self {α : Type} {pairs : List (String × α)} (h : (Entries.keys pairs).Nodup) :
    byKey pairs = pairs := byKey_append_of_nodup h

theorem get?_map_key {α : Type} (xs : List α) (key : α → String) (k : String) :
    Entries.get? (xs.map fun x => (key x, x)) k = xs.find? fun x => key x == k := by
  induction xs with
  | nil => rfl
  | cons x rest ih =>
    rw [List.map_cons, Entries.get?_cons, List.find?_cons, ih]
    by_cases hkey : key x = k
    · rw [if_pos hkey, beq_iff_eq.2 hkey]
    · rw [if_neg hkey, beq_eq_false_iff_ne.2 hkey]

theorem get?_settingsByKey (hd : schema.DistinctKeys) (key : String) :
    Entries.get? schema.settingsByKey key = schema.setting? key := by
  have hn : (Entries.keys (schema.settings.map fun s => (s.key, s))).Nodup := by
    rw [Entries.keys, List.map_map]
    exact hd.settings
  rw [settingsByKey, byKey_eq_self hn, get?_map_key]
  rfl

theorem get?_sectionsByKey (hd : schema.DistinctKeys) (key : String) :
    Entries.get? schema.sectionsByKey key = schema.section? key := by
  have hn : (Entries.keys (schema.sections.map fun node => (node.key, node))).Nodup := by
    rw [Entries.keys, List.map_map]
    exact hd.sections
  rw [sectionsByKey, byKey_eq_self hn, get?_map_key]
  rfl

/-! ## What is declared -/

/-- A schema holds the declarations: the settings among them and the sections among them, in the
order in which they stand there, and each is found by its key, also in the indexes. -/
structure Declares (schema : Schema) (description : String) (ds : List Declaration) : Prop where
  description : schema.description = description
  settings : schema.settings.map .setting = ds.filter Declaration.isSetting
  sections : schema.sections.map .nested = ds.filter fun d => !d.isSetting
  findsSetting : ∀ key s, schema.setting? key = some s ↔ .setting s ∈ ds ∧ s.key = key
  findsSection : ∀ key node, schema.section? key = some node ↔ .nested node ∈ ds ∧ node.key = key
  apart : ∀ key, schema.setting? key = none ∨ schema.section? key = none
  settingsByKey : ∀ key, Entries.get? schema.settingsByKey key = schema.setting? key
  sectionsByKey : ∀ key, Entries.get? schema.sectionsByKey key = schema.section? key

/-- Declarations with distinct keys make the schema that holds them. -/
theorem declare_eq_of_nodup (description : String) (h : (ds.map Declaration.key).Nodup) :
    declare description ds =
      .ok ⟨description, ds.filterMap Declaration.setting?, ds.filterMap Declaration.section?⟩ := by
  have hnone : firstRepeated? [] (ds.map Declaration.key) = none :=
    firstRepeated?_eq_none_iff.2 ⟨by simp, h⟩
  rw [declare, hnone]

theorem declare_eq_error_iff {fault : Fault} :
    declare description ds = .error fault ↔
      ∃ key, firstRepeated? [] (ds.map Declaration.key) = some key ∧
        fault = .duplicateKey key description := by
  unfold declare
  cases firstRepeated? [] (ds.map Declaration.key) <;> simp [eq_comm]

theorem declares_of_declare (h : declare description ds = .ok schema) :
    schema.Declares description ds := by
  have hd : schema.DistinctKeys := declare_distinctKeys h
  unfold declare at h
  split at h
  · cases h
  · cases h
    refine ⟨rfl, Declaration.map_filterMap_setting? ds, Declaration.map_filterMap_section? ds,
      fun key s => ?_, fun key node => ?_, setting?_or_section?_eq_none hd,
      get?_settingsByKey hd, get?_sectionsByKey hd⟩
    · rw [setting?_eq_some_iff hd, List.mem_filterMap]
      simp only [Declaration.setting?_eq_some_iff, exists_eq_right]
    · rw [section?_eq_some_iff hd, List.mem_filterMap]
      simp only [Declaration.section?_eq_some_iff, exists_eq_right]

/-- What a schema holds determines it. -/
theorem Declares.eq (h : schema.Declares description ds) :
    schema = ⟨description, ds.filterMap Declaration.setting?,
      ds.filterMap Declaration.section?⟩ := by
  obtain ⟨text, settings, sections⟩ := schema
  have hsettings : settings = ds.filterMap Declaration.setting? := by
    refine (List.map_inj_right fun _ _ heq => Declaration.setting.inj heq).1 ?_
    exact h.settings.trans (Declaration.map_filterMap_setting? ds).symm
  have hsections : sections = ds.filterMap Declaration.section? := by
    refine (List.map_inj_right fun _ _ heq => Declaration.nested.inj heq).1 ?_
    exact h.sections.trans (Declaration.map_filterMap_section? ds).symm
  rw [← h.description, hsettings, hsections]

theorem declare_eq_ok_iff :
    declare description ds = .ok schema ↔
      (ds.map Declaration.key).Nodup ∧ schema.Declares description ds := by
  constructor
  · intro h
    refine ⟨?_, declares_of_declare h⟩
    unfold declare at h
    split at h
    · cases h
    · rename_i hnone
      exact (firstRepeated?_eq_none_iff.1 hnone).2
  · rintro ⟨hnodup, hdeclares⟩
    rw [declare_eq_of_nodup description hnodup, hdeclares.eq]

/-- **Declaring is faithful.** It fails exactly when two declarations, of whatever kind, share a
key, and then names the key of the first one that repeats a key. Else it comes to the schema that
holds the declarations. -/
theorem declare_faithful (description : String) (ds : List Declaration) :
    ((∃ fault, declare description ds = .error fault) ↔ ShareKey ds) ∧
      (∀ fault, declare description ds = .error fault ↔
        ∃ before d after, ds = before ++ d :: after ∧ RepeatsFirst before d ∧
          fault = .duplicateKey d.key description ∧ fault.code = .duplicateSchemaKey ∧
          Entries.get? fault.details "key" = some (.text d.key)) ∧
      ∀ schema, declare description ds = .ok schema ↔
        ¬ShareKey ds ∧ schema.Declares description ds := by
  refine ⟨?_, fun fault => ?_, fun schema => ?_⟩
  · rw [exists_error_iff, shareKey_iff, not_iff_not]
    constructor
    · rintro ⟨schema, h⟩
      exact (declare_eq_ok_iff.1 h).1
    · intro h
      exact ⟨_, declare_eq_of_nodup description h⟩
  · rw [declare_eq_error_iff]
    constructor
    · rintro ⟨key, hfirst, rfl⟩
      obtain ⟨before, d, after, heq, hrepeats, rfl⟩ := firstRepeated?_map_key_iff.1 hfirst
      exact ⟨before, d, after, heq, hrepeats, rfl, rfl, rfl⟩
    · rintro ⟨before, d, after, heq, hrepeats, rfl, -⟩
      exact ⟨d.key, firstRepeated?_map_key_iff.2 ⟨before, d, after, heq, hrepeats, rfl⟩, rfl⟩
  · rw [declare_eq_ok_iff, shareKey_iff, not_not]

/-- Of several keys that come again, the one is named that does so first. -/
example : firstRepeated? [] ["port", "host", "host", "port"] = some "host" := by decide

end Schema

end LayeredConfig
