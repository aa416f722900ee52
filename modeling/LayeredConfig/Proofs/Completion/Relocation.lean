import LayeredConfig.Proofs.Completion.Elements
import LayeredConfig.Proofs.Completion.Level

/-!
# Completing in another place

The path at which a value is completed says where the value stands, and nothing depends on it but
the paths of violations. Completing at `outer ++ path` is completing at `path`, and then putting
`outer` in front of the path of the violation, if there is one (`Range.IsRelative.complete_under`).

- `Violation.under`: a violation as it is seen from further out.
- `ValueCheck.Relative`, `LevelCheck.Relative`: the checks of which this holds. Each loop of
  completion keeps to it, as soon as the checks that it runs do.
- `Range.IsRelative`: the ranges all of whose caller's checks are relative, and whose functions on
  completed values reject nothing: what such a function rejects is said without a path.
-/

namespace LayeredConfig

/-! ## Paths seen from further out -/

namespace Path

theorem entry_under (outer path : Path) (key : String) :
    entry (outer ++ path) key = outer ++ entry path key :=
  List.append_assoc outer path _

theorem element_under (outer path : Path) (i : Nat) :
    element (outer ++ path) i = outer ++ element path i :=
  List.append_assoc outer path _

theorem pair_under (outer path : Path) (key : Value) :
    pair (outer ++ path) key = outer ++ pair path key :=
  List.append_assoc outer path _

end Path

/-- The violation, seen from further out. -/
def Violation.under (outer : Path) (violation : Violation) : Violation :=
  { violation with path := outer ++ violation.path }

/-- The rejection of a caller's check, seen from further out. -/
def Rejection.under (outer : Path) (rejection : Rejection) : Rejection :=
  { rejection with path := outer ++ rejection.path }

/-! ## Relative checks -/

/-- The check says of paths what it says of them in any other place. -/
def ValueCheck.Relative (check : ValueCheck) : Prop :=
  ∀ outer path v, check (outer ++ path) v = (check path v).mapError (·.under outer)

/-- The check says of paths what it says of them in any other place, whatever is inherited. -/
def LevelCheck.Relative (check : LevelCheck) : Prop :=
  ∀ inherited outer path v,
    check inherited (outer ++ path) v = (check inherited path v).mapError (·.under outer)

section Elements

variable {checks : List ValueCheck} {key value : ValueCheck}

theorem completeEach_under (h : ∀ check ∈ checks, ValueCheck.Relative check) (outer path : Path)
    (i : Nat) (vs : List Value) :
    completeEach (outer ++ path) checks i vs =
      (completeEach path checks i vs).mapError (·.under outer) := by
  induction checks generalizing i vs with
  | nil => rfl
  | cons check rest ih =>
    cases vs with
    | nil => rfl
    | cons v vs =>
      have hfirst := h check List.mem_cons_self outer (path.element i) v
      have hrest := ih (fun c hc => h c (List.mem_cons_of_mem check hc)) (i + 1) vs
      simp only [completeEach, Path.element_under, hfirst, hrest, mapError_bind, mapError_pure]

theorem completePairs_under (hkey : key.Relative) (hvalue : value.Relative) (outer path : Path)
    (ps : List (Value × Value)) :
    completePairs key value (outer ++ path) ps =
      (completePairs key value path ps).mapError (·.under outer) := by
  induction ps with
  | nil => rfl
  | cons p rest ih =>
    simp only [completePairs, Path.pair_under, hkey outer, hvalue outer, ih, mapError_bind,
      mapError_pure]

theorem firstAccepted?_under (h : ∀ check ∈ checks, ValueCheck.Relative check) (outer path : Path)
    (v : Value) : firstAccepted? (outer ++ path) v checks = firstAccepted? path v checks := by
  induction checks with
  | nil => rfl
  | cons check rest ih =>
    rw [firstAccepted?, firstAccepted?, h check List.mem_cons_self outer path v,
      ih fun c hc => h c (List.mem_cons_of_mem check hc)]
    cases check path v <;> rfl

theorem completeSequence_under {range : Range} {checks : List Value → List ValueCheck}
    (h : ∀ elements, ∀ check ∈ checks elements, ValueCheck.Relative check) (outer path : Path)
    (v : Value) :
    completeSequence range checks (outer ++ path) v =
      (completeSequence range checks path v).mapError (·.under outer) := by
  unfold completeSequence
  split
  · rfl
  · split
    · exact completeEach_under (h _) outer path 0 _
    · rfl

end Elements

section Level

variable {settings : List (Slot ValueCheck)} {sections : List (Slot LevelCheck)}

theorem givenSettings_under (h : ∀ slot ∈ settings, slot.run.Relative) (outer path : Path)
    (given : Entries Value) :
    givenSettings settings (outer ++ path) given =
      (givenSettings settings path given).mapError (·.under outer) := by
  induction given with
  | nil => rfl
  | cons e rest ih =>
    obtain ⟨k, v⟩ := e
    simp only [givenSettings]
    split
    · exact ih
    · rename_i slot hslot
      have hrun := h slot (Slot.mem_of_find? hslot) outer (path.entry k) v
      simp only [Path.entry_under, hrun, ih, mapError_bind, mapError_pure]

theorem rejectUndeclared_under (outer path : Path) (given : Entries Value) :
    rejectUndeclared settings sections (outer ++ path) given =
      (rejectUndeclared settings sections path given).mapError (·.under outer) := by
  unfold rejectUndeclared
  split
  · rw [Path.entry_under]
    rfl
  · rfl

theorem fill_under {α : Type} {slots : List (Slot α)} {outer : Path}
    {absent absent' : Slot α → Except Violation Value}
    (h : ∀ slot ∈ slots, absent' slot = (absent slot).mapError (·.under outer))
    (done : List (String × Value)) (inherited : Entries Value) :
    fill done inherited absent' slots =
      (fill done inherited absent slots).mapError (·.under outer) := by
  induction slots with
  | nil => rfl
  | cons slot rest ih =>
    have hvalue : slotValue done inherited absent' slot =
        (slotValue done inherited absent slot).mapError (·.under outer) := by
      unfold slotValue
      split
      · rfl
      · exact h slot List.mem_cons_self
    have hrest := ih fun slot' hslot => h slot' (List.mem_cons_of_mem slot hslot)
    simp only [fill, hvalue, hrest, mapError_bind, mapError_pure]

theorem givenSections_under (h : ∀ slot ∈ sections, slot.run.Relative) (outer path : Path)
    (inherited given : Entries Value) :
    givenSections sections (outer ++ path) inherited given =
      (givenSections sections path inherited given).mapError (·.under outer) := by
  induction given generalizing inherited with
  | nil => rfl
  | cons e rest ih =>
    obtain ⟨k, v⟩ := e
    simp only [givenSections]
    split
    · exact ih inherited
    · rename_i slot hslot
      have hrun := h slot (Slot.mem_of_find? hslot) inherited outer (path.entry k) v
      simp only [Path.entry_under, hrun, ih, mapError_bind, mapError_pure]

/-- **A level of relative checks is relative.** -/
theorem completeLevel_relative (hsettings : ∀ slot ∈ settings, slot.run.Relative)
    (hsections : ∀ slot ∈ sections, slot.run.Relative) :
    LevelCheck.Relative (completeLevel settings sections) := by
  intro inherited outer path v
  unfold completeLevel
  split
  · rename_i given _
    have habsentSetting : ∀ slot ∈ settings, absentSetting (outer ++ path) slot =
        (absentSetting path slot).mapError (·.under outer) := by
      intro slot hslot
      unfold absentSetting
      rw [Path.entry_under]
      exact hsettings slot hslot outer _ _
    have habsentSection : ∀ scope, ∀ slot ∈ sections, absentSection (outer ++ path) scope slot =
        (absentSection path scope slot).mapError (·.under outer) := by
      intro scope slot hslot
      unfold absentSection
      rw [Path.entry_under, hsections slot hslot scope outer, mapError_map]
    simp only [completeEntries, givenSettings_under hsettings, rejectUndeclared_under,
      givenSections_under hsections, fill_under habsentSetting, fill_under (habsentSection _),
      mapError_bind, mapError_pure]
  · rfl

end Level

/-- A schema is relative, if the ranges of its settings are. -/
theorem Schema.complete_relative {schema : Schema}
    (h : ∀ inner ∈ schema.nested, ∀ s ∈ inner.settings, ValueCheck.Relative s.range.complete) :
    LevelCheck.Relative schema.complete := by
  induction schema using Schema.induction with
  | step schema ih =>
    rw [Schema.complete_eq]
    refine completeLevel_relative ?_ ?_
    · intro slot hslot
      obtain ⟨s, hs, rfl⟩ := List.mem_map.1 hslot
      rw [Setting.run_slot]
      exact h schema schema.self_mem_nested s hs
    · intro slot hslot
      obtain ⟨node, hnode, rfl⟩ := List.mem_map.1 hslot
      rw [Section.run_slot]
      exact ih node hnode fun inner hinner => h inner (mem_nested_of_section hnode hinner)

namespace Range

/-- Ranges of which all checks of the caller are relative, and whose functions on completed values
reject nothing. -/
inductive IsRelative : Range → Prop
  | any (default : Value) : IsRelative (.any default)
  | nonNil : IsRelative .nonNil
  | predicate (description : String) (accepts : Value → Bool) (default : Value) :
    IsRelative (.predicate description accepts default)
  | scalar (description : String) {judge : Path → Value → Except Rejection Value}
    (hjudge : ∀ outer path v, judge (outer ++ path) v = (judge path v).mapError (·.under outer)) :
    IsRelative (.scalar description judge)
  | choice (candidates : List Value) (default : Value) (fits : Value → Value → Bool) :
    IsRelative (.choice candidates default fits)
  | mapped {range : Range} (description : String) (h : IsRelative range)
    {f : Value → Except Rejection Value} (hf : ∀ w, ∃ x, f w = .ok x) :
    IsRelative (.mapped description range f)
  | optional {range : Range} (h : IsRelative range) : IsRelative (.optional range)
  | optionalDefault {range : Range} (h : IsRelative range) (default : Value) :
    IsRelative (.optionalDefault range default)
  | anyOf {ranges : List Range} (h : ∀ range ∈ ranges, IsRelative range) :
    IsRelative (.anyOf ranges)
  | sequence {range : Range} (h : IsRelative range) : IsRelative (.sequence range)
  | set {range : Range} (h : IsRelative range) : IsRelative (.set range)
  | tuple {ranges : List Range} (h : ∀ range ∈ ranges, IsRelative range) :
    IsRelative (.tuple ranges)
  | mapOf {key value : Range} (hkey : IsRelative key) (hvalue : IsRelative value) :
    IsRelative (.mapOf key value)
  | schema {schema : Schema}
    (h : ∀ inner ∈ schema.nested, ∀ s ∈ inner.settings, IsRelative s.range) :
    IsRelative (.schema schema)

theorem checks_relative {ranges : List Range}
    (h : ∀ range ∈ ranges, ValueCheck.Relative range.complete) :
    ∀ check ∈ Range.checks ranges, ValueCheck.Relative check := by
  rw [Range.checks_eq_map, List.forall_mem_map]
  exact h

theorem uniformly_relative {range : Range} (h : ValueCheck.Relative range.complete)
    (elements : List Value) :
    ∀ check ∈ uniformly range.complete elements, ValueCheck.Relative check := by
  intro check hcheck
  rw [List.eq_of_mem_replicate hcheck]
  exact h

/-- **Completing in another place.** What is completed further in is completed alike, and violations
have the longer path. -/
theorem IsRelative.complete_under {range : Range} (h : range.IsRelative) :
    ValueCheck.Relative range.complete := by
  induction h with
  | any default =>
    intro outer path v
    rfl
  | nonNil =>
    intro outer path v
    unfold complete
    split <;> rfl
  | predicate description accepts default =>
    intro outer path v
    unfold complete
    split
    · rfl
    · split <;> rfl
  | @scalar description judge hjudge =>
    intro outer path v
    unfold complete
    rw [hjudge outer path v]
    cases judge path v <;> rfl
  | choice candidates default fits =>
    intro outer path v
    unfold complete
    split
    · rfl
    · split <;> rfl
  | mapped description h hf ih =>
    intro outer path v
    unfold complete
    rw [ih outer path v, mapError_bind]
    refine bind_congr fun w => ?_
    -- the function rejects nothing
    obtain ⟨x, hx⟩ := hf w
    rw [hx]
    rfl
  | optional h ih =>
    intro outer path v
    unfold complete
    split
    · rfl
    · exact ih outer path v
  | optionalDefault h default ih =>
    intro outer path v
    exact ih outer path _
  | anyOf h ih =>
    intro outer path v
    unfold complete
    rw [firstAccepted?_under (checks_relative ih)]
    split <;> rfl
  | sequence h ih =>
    intro outer path v
    unfold complete
    rw [completeSequence_under (uniformly_relative ih), mapError_map]
  | set h ih =>
    intro outer path v
    unfold complete
    rw [completeSequence_under (uniformly_relative ih), mapError_map]
  | tuple h ih =>
    intro outer path v
    unfold complete
    rw [completeSequence_under fun _ => checks_relative ih, mapError_map]
  | mapOf hkey hvalue ihkey ihvalue =>
    intro outer path v
    unfold complete
    split
    · rfl
    · split
      · rw [completePairs_under ihkey ihvalue, mapError_map]
      · rfl
  | schema h ih =>
    intro outer path v
    unfold complete
    rw [Schema.complete_relative ih [] outer path v, mapError_map]

end Range

end LayeredConfig
