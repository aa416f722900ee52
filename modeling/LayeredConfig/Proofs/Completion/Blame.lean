import LayeredConfig.Proofs.Completion.Elements
import LayeredConfig.Proofs.Completion.Rejection

/-!
# The blamed range

A violation names a range, a path and a value. Combinators hand the violations of their parts on or
put their own in their place, and in both cases the range that is named in the end would have said
the same by itself: applied to the value alone, it rejects it again, with the same violation
(`Range.blame_reproducible`).

- `Range.IsBuiltIn`: the ranges built without a check of the caller that may reject: no
  `Range.scalar`, and no function in `Range.mapped` that answers a rejection.
- `Violation.Reproducible`: what is said above of a violation. One that names no range blames none,
  and one that names the range which was run is the outcome of that very run; the others come from
  a part of the range.
-/

namespace LayeredConfig

/-- The blamed range, if there is one, rejects the blamed value by itself, in the same way. -/
def Violation.Reproducible (violation : Violation) : Prop :=
  ∀ range ∈ violation.range, range.complete violation.path violation.value = .error violation

theorem Violation.reproducible_of_unnamed {violation : Violation} (h : violation.range = none) :
    violation.Reproducible := by
  intro range hrange
  rw [h] at hrange
  cases hrange

namespace Range

/-- Ranges of which no part is left to a check of the caller that may reject. -/
inductive IsBuiltIn : Range → Prop
  | any (default : Value) : IsBuiltIn (.any default)
  | nonNil : IsBuiltIn .nonNil
  | predicate (description : String) (accepts : Value → Bool) (default : Value) :
    IsBuiltIn (.predicate description accepts default)
  | choice (candidates : List Value) (default : Value) (fits : Value → Value → Bool) :
    IsBuiltIn (.choice candidates default fits)
  | mapped {range : Range} (description : String) (h : IsBuiltIn range)
    {f : Value → Except Rejection Value} (hf : ∀ w, ∃ x, f w = .ok x) :
    IsBuiltIn (.mapped description range f)
  | optional {range : Range} (h : IsBuiltIn range) : IsBuiltIn (.optional range)
  | optionalDefault {range : Range} (h : IsBuiltIn range) (default : Value) :
    IsBuiltIn (.optionalDefault range default)
  | anyOf {ranges : List Range} (h : ∀ range ∈ ranges, IsBuiltIn range) : IsBuiltIn (.anyOf ranges)
  | sequence {range : Range} (h : IsBuiltIn range) : IsBuiltIn (.sequence range)
  | set {range : Range} (h : IsBuiltIn range) : IsBuiltIn (.set range)
  | tuple {ranges : List Range} (h : ∀ range ∈ ranges, IsBuiltIn range) : IsBuiltIn (.tuple ranges)
  | mapOf {key value : Range} (hkey : IsBuiltIn key) (hvalue : IsBuiltIn value) :
    IsBuiltIn (.mapOf key value)
  | schema {schema : Schema}
    (h : ∀ inner ∈ schema.nested, ∀ s ∈ inner.settings, IsBuiltIn s.range) :
    IsBuiltIn (.schema schema)

variable {range : Range} {path : Path} {v : Value} {violation : Violation}

/-- A violation that names the range which was run. -/
theorem reproducible_of_own (h : range.complete path v = .error ⟨some range, path, v⟩) :
    (⟨some range, path, v⟩ : Violation).Reproducible := by
  rintro blamed hblamed
  cases hblamed
  exact h

/-- A sequence blames itself, or what one of its elements blames. -/
theorem reproducible_of_completeSequence {checks : List Value → List ValueCheck}
    (hrun : range.complete path v = .error violation)
    (hstop : completeSequence range checks path v = .error violation)
    (hchecks : ∀ elements, ∀ check ∈ checks elements, ∀ {path v violation},
      check path v = .error violation → violation.Reproducible) : violation.Reproducible := by
  rcases completeSequence_eq_error hstop with rfl | ⟨elements, -, hstop⟩
  · exact reproducible_of_own hrun
  · obtain ⟨j, check, x, hcheck, -, hx, -⟩ := completeEach_eq_error hstop
    exact hchecks elements check (List.mem_of_getElem? hcheck) hx

theorem IsBuiltIn.reproducible (h : range.IsBuiltIn)
    (hv : range.complete path v = .error violation) : violation.Reproducible := by
  induction h generalizing path v violation with
  | any default => cases hv
  | nonNil =>
    obtain rfl := complete_nonNil_eq_error hv
    exact reproducible_of_own hv
  | predicate description accepts default =>
    obtain rfl := complete_predicate_eq_error hv
    exact reproducible_of_own hv
  | choice candidates default fits =>
    obtain rfl := complete_choice_eq_error hv
    exact reproducible_of_own hv
  | mapped description h hf ih =>
    rcases bind_eq_error_iff.1 hv with hstop | ⟨w, -, hstop⟩
    · exact ih hstop
    · -- the function rejects nothing
      obtain ⟨x, hx⟩ := hf w
      rw [hx] at hstop
      cases hstop
  | optional h ih =>
    unfold complete at hv
    split at hv
    · cases hv
    · exact ih hv
  | optionalDefault h default ih => exact ih hv
  | anyOf h ih =>
    -- whatever its ranges blame, the range blames itself
    obtain rfl := complete_anyOf_eq_error hv
    exact reproducible_of_own hv
  | sequence h ih =>
    refine reproducible_of_completeSequence hv (map_eq_error_iff.1 hv)
      fun elements check hcheck => ?_
    obtain rfl := List.eq_of_mem_replicate hcheck
    exact ih
  | set h ih =>
    refine reproducible_of_completeSequence hv (map_eq_error_iff.1 hv)
      fun elements check hcheck => ?_
    obtain rfl := List.eq_of_mem_replicate hcheck
    exact ih
  | tuple h ih =>
    refine reproducible_of_completeSequence hv (map_eq_error_iff.1 hv)
      fun elements check hcheck => ?_
    rw [Range.checks_eq_map] at hcheck
    obtain ⟨range, hrange, rfl⟩ := List.mem_map.1 hcheck
    exact ih range hrange
  | mapOf hkey hvalue ihkey ihvalue =>
    have hrun := hv
    unfold complete at hv
    split at hv
    · cases hv
    · split at hv
      · obtain ⟨p, -, hstop | hstop⟩ := completePairs_eq_error (map_eq_error_iff.1 hv)
        · exact ihkey hstop
        · exact ihvalue hstop
      · cases hv
        exact reproducible_of_own hrun
  | schema h ih =>
    rcases Schema.unnamed_or_blames_setting (map_eq_error_iff.1 hv) with
      hnone | ⟨inner, hinner, s, hs, path', x, hstop⟩
    · exact Violation.reproducible_of_unnamed hnone
    · exact ih inner hinner s hs hstop

/-- **Blame is reproducible.** The range that a violation names, run alone on the value and the path
that it names, comes to the same violation. -/
theorem blame_reproducible {blamed : Range} {path' : Path} {v' : Value} (h : range.IsBuiltIn)
    (hv : range.complete path v = .error ⟨some blamed, path', v'⟩) :
    blamed.complete path' v' = .error ⟨some blamed, path', v'⟩ :=
  h.reproducible hv blamed rfl

/-- A sample range of loads: an integer or a flag. -/
def sampleLoad : Range := .anyOf [integer (.number (.finite 0)), boolean (.bool false)]

/-- A sample schema of a crane whose arm keeps a list of loads for each of its hooks. -/
def sampleCrane : Schema :=
  ⟨"crane", [], [⟨"arm", ⟨"arm", [⟨"hooks", "loads of each hook",
    .mapOf (string .null) (.sequence (.optional sampleLoad)), false⟩], []⟩, false⟩]⟩

/-- The second load of the left hook is no load. -/
def sampleCraneMap : Value :=
  .ofEntries [("arm", .ofEntries [("hooks",
    .tableOf [(.text "left", .ofList [.number (.finite 1), .text "two"])])])]

/-- The place of that load. -/
def sampleLoadPath : Path := [.key "arm", .key "hooks", .key "left", .position (.ofNat 1)]

/-- The load range itself is blamed for the second load, not one of its parts, and not the list or
the table around it; alone it rejects that load in the same way. -/
theorem blame_sampleCrane :
    (schema sampleCrane).complete [] sampleCraneMap =
        .error ⟨some sampleLoad, sampleLoadPath, .text "two"⟩ ∧
      sampleLoad.complete sampleLoadPath (.text "two") =
        .error ⟨some sampleLoad, sampleLoadPath, .text "two"⟩ := by
  have hload : sampleLoad.IsBuiltIn := by
    refine .anyOf fun range hrange => ?_
    simp only [List.mem_cons, List.not_mem_nil, or_false] at hrange
    rcases hrange with rfl | rfl
    · exact .predicate _ _ _
    · exact .predicate _ _ _
  have hcrane : (schema sampleCrane).IsBuiltIn := by
    refine .schema fun inner hinner s hs => ?_
    simp only [sampleCrane, Schema.nested, Section.allNested, List.append_nil, List.mem_cons,
      List.not_mem_nil, or_false] at hinner
    rcases hinner with rfl | rfl
    · cases hs
    · obtain rfl := List.mem_singleton.1 hs
      exact .mapOf (.predicate _ _ _) (.sequence (.optional hload))
  have hrejected : (schema sampleCrane).complete [] sampleCraneMap =
      .error ⟨some sampleLoad, sampleLoadPath, .text "two"⟩ := rfl
  exact ⟨hrejected, blame_reproducible hcrane hrejected⟩

end Range

end LayeredConfig
