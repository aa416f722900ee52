import LayeredConfig.Proofs.Completion.Level

/-!
# Why a level is rejected

`LayeredConfig.Proofs.Completion.Level` says what a completed level tells. This is the other side:
a level that is not completed was stopped by one of its checks, and its violation is the one that
this check came to.

- `givenSettings_eq_error`, `rejectUndeclared_eq_error`, `fill_eq_error`, `givenSections_eq_error`:
  each loop of a level stops at one of its steps.
- `Range.complete_predicate_eq_error` and its kin: ranges that test the value themselves, and those
  that speak for their alternatives, name themselves and the value.
- `Schema.LevelRejection`: what may stop a level, in the order of the checks.
  `Schema.levelRejection_of_complete` says that there is nothing else, whatever the keys of the
  schema and of the map are.
- `Schema.complete_of_undeclared`: a key that is not declared is enough for a level to be rejected.
- `Schema.unnamed_or_blames_setting`: at any depth, a violation names no range, or is one that the
  range of a setting came to.
-/

namespace LayeredConfig

/-! ## The loops of a level -/

section Loops

variable {settings : List (Slot ValueCheck)} {sections : List (Slot LevelCheck)}
  {inherited given : Entries Value} {path : Path} {violation : Violation}

theorem givenSettings_eq_error (h : givenSettings settings path given = .error violation) :
    ∃ e ∈ given, ∃ slot, Slot.find? settings e.1 = some slot ∧
      slot.run (path.entry e.1) e.2 = .error violation := by
  induction given with
  | nil => cases h
  | cons e rest ih =>
    obtain ⟨k, v⟩ := e
    have hrest : givenSettings settings path rest = .error violation → ∃ e ∈ (k, v) :: rest,
        ∃ slot, Slot.find? settings e.1 = some slot ∧
          slot.run (path.entry e.1) e.2 = .error violation := by
      intro h
      obtain ⟨e, he, hslot⟩ := ih h
      exact ⟨e, List.mem_cons_of_mem _ he, hslot⟩
    simp only [givenSettings] at h
    split at h
    · exact hrest h
    · rename_i slot hslot
      rcases bind_eq_error_iff.1 h with hrun | ⟨w, -, h⟩
      · exact ⟨(k, v), List.mem_cons_self, slot, hslot, hrun⟩
      · rcases bind_eq_error_iff.1 h with hlater | ⟨ws, -, h⟩
        · exact hrest hlater
        · cases h

theorem rejectUndeclared_eq_error
    (h : rejectUndeclared settings sections path given = .error violation) :
    ∃ e ∈ given, Slot.declares settings e.1 = false ∧ Slot.declares sections e.1 = false ∧
      violation = ⟨none, path.entry e.1, e.2⟩ := by
  unfold rejectUndeclared at h
  split at h
  · rename_i k v hfirst
    cases h
    have hneither := List.find?_some hfirst
    simp only [Bool.and_eq_true, Bool.not_eq_true'] at hneither
    exact ⟨(k, v), List.mem_of_find?_eq_some hfirst, hneither.1, hneither.2, rfl⟩
  · cases h

theorem fill_eq_error {α : Type} {slots : List (Slot α)} {done : List (String × Value)}
    {absent : Slot α → Except Violation Value}
    (h : fill done inherited absent slots = .error violation) :
    ∃ slot ∈ slots, Entries.get? done slot.key = none ∧ Entries.get? inherited slot.key = none ∧
      absent slot = .error violation := by
  induction slots with
  | nil => cases h
  | cons slot rest ih =>
    rcases bind_eq_error_iff.1 h with hvalue | ⟨w, -, h⟩
    · unfold slotValue at hvalue
      split at hvalue
      · cases hvalue
      · rename_i hnone
        obtain ⟨hdone, hinherited⟩ := Option.or_eq_none_iff.1 hnone
        exact ⟨slot, List.mem_cons_self, hdone, hinherited, hvalue⟩
    · rcases bind_eq_error_iff.1 h with hlater | ⟨ws, -, h⟩
      · obtain ⟨slot', hslot', hstop⟩ := ih hlater
        exact ⟨slot', List.mem_cons_of_mem _ hslot', hstop⟩
      · cases h

theorem givenSections_eq_error
    (h : givenSections sections path inherited given = .error violation) :
    ∃ e ∈ given, ∃ slot scope, Slot.find? sections e.1 = some slot ∧
      slot.run scope (path.entry e.1) e.2 = .error violation := by
  induction given generalizing inherited with
  | nil => cases h
  | cons e rest ih =>
    obtain ⟨k, v⟩ := e
    have hrest : ∀ {scope}, givenSections sections path scope rest = .error violation →
        ∃ e ∈ (k, v) :: rest, ∃ slot scope, Slot.find? sections e.1 = some slot ∧
          slot.run scope (path.entry e.1) e.2 = .error violation := by
      intro scope h
      obtain ⟨e, he, hslot⟩ := ih h
      exact ⟨e, List.mem_cons_of_mem _ he, hslot⟩
    simp only [givenSections] at h
    split at h
    · exact hrest h
    · rename_i slot hslot
      rcases bind_eq_error_iff.1 h with hrun | ⟨es, -, h⟩
      · exact ⟨(k, v), List.mem_cons_self, slot, inherited, hslot, hrun⟩
      · rcases bind_eq_error_iff.1 h with hlater | ⟨later, -, h⟩
        · exact hrest hlater
        · cases h

/-- A declared key that was not completed as a setting was not given. -/
theorem get?_eq_none_of_givenSettings {done : List (String × Value)} {slot : Slot ValueCheck}
    (h : givenSettings settings path given = .ok done) (hslot : slot ∈ settings)
    (hdone : Entries.get? done slot.key = none) : Entries.get? given slot.key = none := by
  refine Option.eq_none_iff_forall_ne_some.2 fun v hv => ?_
  obtain ⟨found, hfound⟩ : ∃ found, Slot.find? settings slot.key = some found :=
    Option.isSome_iff_exists.1 (Slot.declares_iff.2 (List.mem_map_of_mem hslot))
  obtain ⟨w, -, hw⟩ := givenSettings_of_get? h hv hfound
  cases hdone.symm.trans hw

/-- A declared key that was not completed as a section was not given. -/
theorem get?_eq_none_of_givenSections {progress : SectionProgress} {slot : Slot LevelCheck}
    (h : givenSections sections path inherited given = .ok progress) (hslot : slot ∈ sections)
    (hdone : Entries.get? progress.done slot.key = none) :
    Entries.get? given slot.key = none := by
  refine Option.eq_none_iff_forall_ne_some.2 fun v hv => ?_
  obtain ⟨found, hfound⟩ : ∃ found, Slot.find? sections slot.key = some found :=
    Option.isSome_iff_exists.1 (Slot.declares_iff.2 (List.mem_map_of_mem hslot))
  obtain ⟨_, _, _, _, hw⟩ := givenSections_of_get? h hv hfound
  cases hdone.symm.trans hw

end Loops

/-! ## Ranges that blame themselves -/

namespace Range

variable {path : Path} {v default : Value} {violation : Violation}

theorem complete_nonNil_eq_error (h : nonNil.complete path v = .error violation) :
    violation = ⟨some nonNil, path, v⟩ := by
  unfold complete at h
  split at h
  · cases h
    rfl
  · cases h

theorem complete_predicate_eq_error {text : String} {accepts : Value → Bool}
    (h : (predicate text accepts default).complete path v = .error violation) :
    violation = ⟨some (predicate text accepts default), path, v⟩ := by
  unfold complete at h
  split at h
  · cases h
  · split at h
    · cases h
    · cases h
      rfl

theorem complete_choice_eq_error {candidates : List Value} {fits : Value → Value → Bool}
    (h : (choice candidates default fits).complete path v = .error violation) :
    violation = ⟨some (choice candidates default fits), path, v⟩ := by
  unfold complete at h
  split at h
  · cases h
  · split at h
    · cases h
    · cases h
      rfl

/-- Whatever its ranges blame, a range of alternatives blames itself. -/
theorem complete_anyOf_eq_error {ranges : List Range}
    (h : (anyOf ranges).complete path v = .error violation) :
    violation = ⟨some (anyOf ranges), path, v⟩ := by
  unfold complete at h
  split at h
  · cases h
  · cases h
    rfl

end Range

namespace Schema

/-! ## One level -/

/-- What stops the completion of a level, in the order of the checks: the value is no map; a given
setting is rejected; a key is not declared; a setting that has to be given is not; a given section
is rejected; a section that is not given cannot do without. -/
inductive LevelRejection (schema : Schema) (path : Path) (v : Value) : Violation → Prop
  | notMap (hnil : v.isNil = false) (hmap : v.isMap = false) :
    LevelRejection schema path v ⟨none, path, v⟩
  | given {s : Setting} {x : Value} {violation : Violation} (hs : s ∈ schema.settings)
    (hx : (s.key, x) ∈ v.entriesOrEmpty)
    (h : s.range.complete (path.entry s.key) x = .error violation) :
    LevelRejection schema path v violation
  | undeclared {key : String} {x : Value} (hx : (key, x) ∈ v.entriesOrEmpty)
    (hkey : key ∉ schema.keys) : LevelRejection schema path v ⟨none, path.entry key, x⟩
  | absent {s : Setting} {violation : Violation} (hs : s ∈ schema.settings)
    (hx : Entries.get? v.entriesOrEmpty s.key = none)
    (h : s.range.complete (path.entry s.key) .undefined = .error violation) :
    LevelRejection schema path v violation
  | nested {node : Section} {x : Value} {scope : Entries Value} {violation : Violation}
    (hnode : node ∈ schema.sections) (hx : (node.key, x) ∈ v.entriesOrEmpty)
    (h : node.schema.complete scope (path.entry node.key) x = .error violation) :
    LevelRejection schema path v violation
  | absentNested {node : Section} {scope : Entries Value} {violation : Violation}
    (hnode : node ∈ schema.sections) (hx : Entries.get? v.entriesOrEmpty node.key = none)
    (h : node.schema.complete scope (path.entry node.key) .emptyMap = .error violation) :
    LevelRejection schema path v violation

variable {schema : Schema} {inherited : Entries Value} {path : Path} {v : Value}
  {violation : Violation}

theorem given_of_givenSettings {given : Entries Value}
    (h : givenSettings schema.settingSlots path given = .error violation) :
    ∃ s ∈ schema.settings, ∃ x, (s.key, x) ∈ given ∧
      s.range.complete (path.entry s.key) x = .error violation := by
  obtain ⟨⟨key, x⟩, hx, slot, hslot, hrun⟩ := givenSettings_eq_error h
  obtain ⟨s, hs, rfl, rfl⟩ := exists_of_find?_settingSlots hslot
  rw [Setting.run_slot] at hrun
  exact ⟨s, hs, x, hx, hrun⟩

theorem undeclared_of_rejectUndeclared {given : Entries Value}
    (h : rejectUndeclared schema.settingSlots schema.sectionSlots path given = .error violation) :
    ∃ key x, (key, x) ∈ given ∧ key ∉ schema.keys ∧ violation = ⟨none, path.entry key, x⟩ := by
  obtain ⟨⟨key, x⟩, hx, hsetting, hsection, hviolation⟩ := rejectUndeclared_eq_error h
  refine ⟨key, x, hx, fun hkey => ?_, hviolation⟩
  rcases (schema.declares_iff_mem_keys key).2 hkey with hdeclares | hdeclares
  · exact Bool.false_ne_true (hsetting.symm.trans hdeclares)
  · exact Bool.false_ne_true (hsection.symm.trans hdeclares)

/-- **What a rejected level tells.** -/
theorem levelRejection_of_complete (h : schema.complete inherited path v = .error violation) :
    schema.LevelRejection path v violation := by
  rw [Schema.complete_eq] at h
  unfold completeLevel at h
  split at h
  · rename_i given hgiven
    obtain ⟨-, rfl⟩ := Value.entries?_orEmptyMap_iff.1 hgiven
    -- the first of the five steps that did not succeed
    rcases bind_eq_error_iff.1 h with hstop | ⟨done, hdone, h⟩
    · obtain ⟨s, hs, x, hx, hrun⟩ := given_of_givenSettings hstop
      exact .given hs hx hrun
    rcases bind_eq_error_iff.1 h with hstop | ⟨_, -, h⟩
    · obtain ⟨key, x, hx, hkey, rfl⟩ := undeclared_of_rejectUndeclared hstop
      exact .undeclared hx hkey
    rcases bind_eq_error_iff.1 h with hstop | ⟨filled, -, h⟩
    · obtain ⟨slot, hslot, hnone, -, hrun⟩ := fill_eq_error hstop
      have hx := get?_eq_none_of_givenSettings hdone hslot hnone
      obtain ⟨s, hs, rfl⟩ := List.mem_map.1 hslot
      rw [Setting.key_slot] at hx
      rw [absentSetting, Setting.run_slot, Setting.key_slot] at hrun
      exact .absent hs hx hrun
    rcases bind_eq_error_iff.1 h with hstop | ⟨progress, hwalked, h⟩
    · obtain ⟨⟨key, x⟩, hx, slot, scope, hslot, hrun⟩ := givenSections_eq_error hstop
      obtain ⟨node, hnode, rfl, rfl⟩ := exists_of_find?_sectionSlots hslot
      rw [Section.run_slot] at hrun
      exact .nested hnode hx hrun
    rcases bind_eq_error_iff.1 h with hstop | ⟨filled', -, h⟩
    · obtain ⟨slot, hslot, hnone, -, hrun⟩ := fill_eq_error hstop
      have hx := get?_eq_none_of_givenSections hwalked hslot hnone
      obtain ⟨node, hnode, rfl⟩ := List.mem_map.1 hslot
      rw [Section.key_slot] at hx
      rw [absentSection, map_eq_error_iff, Section.run_slot, Section.key_slot] at hrun
      exact .absentNested hnode hx hrun
    · cases h
  · rename_i hnone
    cases h
    have hshape : ¬(v.isNil = true ∨ v.isMap = true) := fun hshape => by
      cases hnone.symm.trans (Value.entries?_orEmptyMap_iff.2 ⟨hshape, rfl⟩)
    rw [not_or, Bool.not_eq_true, Bool.not_eq_true] at hshape
    exact .notMap hshape.1 hshape.2

/-- **A map with a key that is not declared** is rejected for such a key, unless one of its settings
is rejected before. -/
theorem complete_of_undeclared (hmap : v.isMap = true) {key : String}
    (hkey : key ∈ Entries.keys v.entriesOrEmpty) (hundeclared : key ∉ schema.keys)
    (inherited : Entries Value) (path : Path) :
    ∃ violation, schema.complete inherited path v = .error violation ∧
      ((∃ s ∈ schema.settings, ∃ x, (s.key, x) ∈ v.entriesOrEmpty ∧
        s.range.complete (path.entry s.key) x = .error violation) ∨
      ∃ key' x, (key', x) ∈ v.entriesOrEmpty ∧ key' ∉ schema.keys ∧
        violation = ⟨none, path.entry key', x⟩) := by
  rw [schema.complete_of_isMap hmap]
  cases hdone : givenSettings schema.settingSlots path v.entriesOrEmpty with
  | error violation =>
    exact ⟨violation, bind_eq_error_iff.2 (.inl hdone), .inl (given_of_givenSettings hdone)⟩
  | ok done =>
    cases hreject : rejectUndeclared schema.settingSlots schema.sectionSlots path
        v.entriesOrEmpty with
    | ok u =>
      have hdeclared := rejectUndeclared_eq_ok_iff.1 hreject key hkey
      exact absurd ((schema.declares_iff_mem_keys key).1 hdeclared) hundeclared
    | error violation =>
      refine ⟨violation, bind_eq_error_iff.2 (.inr ⟨done, hdone, ?_⟩),
        .inr (undeclared_of_rejectUndeclared hreject)⟩
      exact bind_eq_error_iff.2 (.inl hreject)

/-! ## At every depth -/

/-- **Who rejects a map.** Its violation names no range, or is one to which the range of a setting
came, of the schema itself or of one nested in it. -/
theorem unnamed_or_blames_setting (h : schema.complete inherited path v = .error violation) :
    violation.range = none ∨ ∃ inner ∈ schema.nested, ∃ s ∈ inner.settings, ∃ path' x,
      s.range.complete path' x = .error violation := by
  induction schema using Schema.induction generalizing inherited path v with
  | step schema ih =>
    have hsection : ∀ node ∈ schema.sections, ∀ {scope path x},
        node.schema.complete scope path x = .error violation →
          violation.range = none ∨ ∃ inner ∈ schema.nested, ∃ s ∈ inner.settings, ∃ path' x,
            s.range.complete path' x = .error violation := by
      intro node hnode scope path x hstop
      rcases ih node hnode hstop with hnone | ⟨inner, hinner, hblame⟩
      · exact .inl hnone
      · exact .inr ⟨inner, mem_nested_of_section hnode hinner, hblame⟩
    have hself : schema ∈ schema.nested := schema.self_mem_nested
    cases levelRejection_of_complete h with
    | notMap => exact .inl rfl
    | undeclared => exact .inl rfl
    | given hs _ hstop => exact .inr ⟨schema, hself, _, hs, _, _, hstop⟩
    | absent hs _ hstop => exact .inr ⟨schema, hself, _, hs, _, _, hstop⟩
    | nested hnode _ hstop => exact hsection _ hnode hstop
    | absentNested hnode _ hstop => exact hsection _ hnode hstop

end Schema

end LayeredConfig
