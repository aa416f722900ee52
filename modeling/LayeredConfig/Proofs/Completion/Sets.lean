import LayeredConfig.Proofs.Completion.Elements
import LayeredConfig.Proofs.Completion.Rejection
import LayeredConfig.Proofs.Data.FirstOccurrences
import LayeredConfig.Proofs.Schema.Tree

/-!
# Sets and sequences

A set is completed like the sequence of its elements, and elements that were there before are then
dropped. What one of the elements is rejected for, the sequence and the set are rejected for, too.
What is no sequence at all is blamed on the sequence or on the set, whichever was asked for.

- `Range.parts`: the ranges that a range is put together from.
- `Range.self_or_part_of_error`: a violation names no range, or the range which was run, or came
  from a part.
- `Range.sizeOf_blamed_le`: so the blamed range is never larger than the one that was run. Ranges
  hold functions and are not compared; their size is enough to tell that no element of a sequence
  blames the sequence that it stands in (`Range.range_ne_sequence_of_error`).
- `Range.complete_set_eq`: so completing a set is running the sequence, and to blame the set for
  what the sequence blames itself for.
- `Range.complete_set_agrees`: how both compare.
-/

namespace LayeredConfig

namespace Range

variable {range : Range} {path : Path} {v : Value} {violation : Violation}

/-! ## Where blame comes from -/

/-- The ranges that a range is put together from. Those of a schema are the ranges of its settings,
and of those of the schemas nested in it. -/
def parts : Range → List Range
  | .any _ | .nonNil | .predicate _ _ _ | .scalar _ _ | .choice _ _ _ => []
  | .mapped _ range _ | .optional range | .optionalDefault range _ => [range]
  | .sequence range | .set range => [range]
  | .anyOf ranges | .tuple ranges => ranges
  | .mapOf key value => [key, value]
  | .schema s => s.nested.flatMap fun inner => inner.settings.map Setting.range

/-- A rejection by a check of the caller names the range that asked, or none. -/
theorem range_toViolation (range : Range) (rejection : Rejection) :
    (rejection.toViolation range).range = none ∨
      (rejection.toViolation range).range = some range := by
  unfold Rejection.toViolation
  cases rejection.namesRange <;> simp

/-- What stops a sequence is that it is none, or one of its checks. -/
theorem self_or_check_of_error {checks : List Value → List ValueCheck} {parts : List Range}
    (hchecks : ∀ elements, ∀ check ∈ checks elements, ∃ part ∈ parts, check = part.complete)
    (h : completeSequence range checks path v = .error violation) :
    violation.range = some range ∨
      ∃ part ∈ parts, ∃ path' x, part.complete path' x = .error violation := by
  rcases completeSequence_eq_error h with rfl | ⟨elements, -, h⟩
  · exact .inl rfl
  · obtain ⟨j, check, x, hcheck, -, hstop, -⟩ := completeEach_eq_error h
    obtain ⟨part, hpart, rfl⟩ := hchecks elements check (List.mem_of_getElem? hcheck)
    exact .inr ⟨part, hpart, _, x, hstop⟩

/-- **Where a violation comes from.** It names no range, or the range itself, or is one to which a
part of the range came. -/
theorem self_or_part_of_error (h : range.complete path v = .error violation) :
    violation.range = none ∨ violation.range = some range ∨
      ∃ part ∈ range.parts, ∃ path' x, part.complete path' x = .error violation := by
  have huniform : ∀ (part : Range) (elements : List Value),
      ∀ check ∈ uniformly part.complete elements, ∃ part' ∈ [part], check = part'.complete :=
    fun part _ _ hcheck => ⟨part, List.mem_cons_self, List.eq_of_mem_replicate hcheck⟩
  cases range with
  | any default => cases h
  | nonNil => exact .inr (.inl (by rw [complete_nonNil_eq_error h]))
  | predicate description accepts default =>
    exact .inr (.inl (by rw [complete_predicate_eq_error h]))
  | scalar description judge =>
    obtain ⟨rejection, -, rfl⟩ := mapError_eq_error_iff.1 h
    exact (range_toViolation _ rejection).imp_right .inl
  | choice candidates default fits => exact .inr (.inl (by rw [complete_choice_eq_error h]))
  | mapped description part f =>
    rcases bind_eq_error_iff.1 h with hstop | ⟨w, -, hstop⟩
    · exact .inr (.inr ⟨part, List.mem_cons_self, path, v, hstop⟩)
    · obtain ⟨rejection, -, rfl⟩ := mapError_eq_error_iff.1 hstop
      exact (range_toViolation _ rejection).imp_right .inl
  | optional part =>
    unfold complete at h
    split at h
    · cases h
    · exact .inr (.inr ⟨part, List.mem_cons_self, path, v, h⟩)
  | optionalDefault part default => exact .inr (.inr ⟨part, List.mem_cons_self, path, _, h⟩)
  | anyOf ranges => exact .inr (.inl (by rw [complete_anyOf_eq_error h]))
  | sequence part => exact .inr (self_or_check_of_error (huniform part) (map_eq_error_iff.1 h))
  | set part => exact .inr (self_or_check_of_error (huniform part) (map_eq_error_iff.1 h))
  | tuple ranges =>
    refine .inr (self_or_check_of_error (fun _ check hcheck => ?_) (map_eq_error_iff.1 h))
    rw [Range.checks_eq_map] at hcheck
    obtain ⟨part, hpart, rfl⟩ := List.mem_map.1 hcheck
    exact ⟨part, hpart, rfl⟩
  | mapOf key value =>
    unfold complete at h
    split at h
    · cases h
    · split at h
      · obtain ⟨p, -, hstop | hstop⟩ := completePairs_eq_error (map_eq_error_iff.1 h)
        · exact .inr (.inr ⟨key, List.mem_cons_self, _, _, hstop⟩)
        · exact .inr (.inr ⟨value, List.mem_cons_of_mem _ List.mem_cons_self, _, _, hstop⟩)
      · cases h
        exact .inr (.inl rfl)
  | schema schema =>
    rcases Schema.unnamed_or_blames_setting (map_eq_error_iff.1 h) with
      hnone | ⟨inner, hinner, s, hs, path', x, hstop⟩
    · exact .inl hnone
    · exact .inr (.inr ⟨s.range, List.mem_flatMap.2 ⟨inner, hinner, List.mem_map_of_mem hs⟩, path',
        x, hstop⟩)

end Range

/-! ## Sizes -/

/-- A schema is at least as large as those nested in it. -/
theorem Schema.sizeOf_le_of_mem_nested {schema inner : Schema} (h : inner ∈ schema.nested) :
    sizeOf inner ≤ sizeOf schema := by
  induction schema using Schema.induction with
  | step schema ih =>
    rw [nested_eq] at h
    rcases List.mem_cons.1 h with rfl | h
    · exact Nat.le_refl _
    · obtain ⟨node, hnode, h⟩ := mem_enclosed_iff.1 h
      have hinner := ih node hnode h
      have hsections := List.sizeOf_lt_of_mem hnode
      obtain ⟨description, settings, sections⟩ := schema
      obtain ⟨key, nested, inherit⟩ := node
      simp only [Schema.mk.sizeOf_spec, Section.mk.sizeOf_spec] at *
      omega

namespace Range

variable {range blamed part : Range} {path : Path} {v : Value} {violation : Violation}

/-- A range is larger than its parts. -/
theorem sizeOf_lt_of_mem_parts (h : part ∈ range.parts) : sizeOf part < sizeOf range := by
  cases range with
  | any _ | nonNil | predicate _ _ _ | scalar _ _ | choice _ _ _ => cases h
  | mapped _ _ _ | optional _ | optionalDefault _ _ | sequence _ | set _ =>
    obtain rfl := List.mem_singleton.1 h
    simp +arith
  | anyOf ranges | tuple ranges =>
    have hlt : sizeOf part < sizeOf ranges := List.sizeOf_lt_of_mem h
    simp only [anyOf.sizeOf_spec, tuple.sizeOf_spec]
    omega
  | mapOf key value =>
    rw [mapOf.sizeOf_spec]
    rcases List.mem_pair.1 h with rfl | rfl <;> omega
  | schema outer =>
    obtain ⟨inner, hinner, h⟩ := List.mem_flatMap.1 h
    obtain ⟨s, hs, rfl⟩ := List.mem_map.1 h
    have hle := Schema.sizeOf_le_of_mem_nested hinner
    have hlt := List.sizeOf_lt_of_mem hs
    obtain ⟨description, settings, sections⟩ := inner
    obtain ⟨key, description, range, inherit⟩ := s
    simp only [Schema.mk.sizeOf_spec, Setting.mk.sizeOf_spec, schema.sizeOf_spec] at *
    omega

/-- **The blamed range is not larger than the range that was run.** -/
theorem sizeOf_blamed_le (h : range.complete path v = .error violation)
    (hblamed : violation.range = some blamed) : sizeOf blamed ≤ sizeOf range := by
  -- on the size, since a part of a schema may be a setting at any depth
  induction hsize : sizeOf range using Nat.strongRecOn generalizing range path v with
  | ind size ih =>
    rcases self_or_part_of_error h with hnone | hself | ⟨part, hpart, path', x, hstop⟩
    · cases hblamed.symm.trans hnone
    · cases hblamed.symm.trans hself
      exact Nat.le_of_eq hsize
    · have hlt := hsize ▸ sizeOf_lt_of_mem_parts hpart
      exact (ih _ hlt hstop rfl).trans hlt.le

/-- **No element blames the sequence that it stands in,** be it itself a sequence or a set. -/
theorem range_ne_sequence_of_error {elements : List Value}
    (h : completeEach path (uniformly range.complete elements) 0 elements = .error violation) :
    violation.range ≠ some (sequence range) := by
  obtain ⟨j, check, x, hcheck, -, hstop, -⟩ := completeEach_eq_error h
  obtain rfl := List.eq_of_mem_replicate (List.mem_of_getElem? hcheck)
  intro hblamed
  have hle := sizeOf_blamed_le hstop hblamed
  rw [sequence.sizeOf_spec] at hle
  omega

/-! ## The comparison -/

open Classical in
/-- **A set runs the sequence** of its elements and takes on itself exactly what the sequence is
blamed for. -/
theorem complete_set_eq (range : Range) (path : Path) (v : Value) :
    (set range).complete path v =
      match (sequence range).complete path v with
      | .ok w => .ok (.setOf (w.elements?.getD []))
      | .error violation =>
        if violation.range = some (sequence range) then .error ⟨some (set range), path, v⟩
        else .error violation := by
  by_cases hgiven : v.isNil = true ∨ v.elements?.isSome = true
  · rw [complete, complete, completeSequence_of_elements hgiven,
      completeSequence_of_elements hgiven]
    cases hrun : completeEach path (uniformly range.complete (v.elements?.getD [])) 0
        (v.elements?.getD []) with
    | ok ws => rfl
    | error violation => exact (if_neg (range_ne_sequence_of_error hrun)).symm
  · -- only here the sequence blames itself
    rw [not_or, Bool.not_eq_true, Bool.not_eq_true, Option.isSome_eq_false_iff,
      Option.isNone_iff_eq_none] at hgiven
    rw [complete, complete, completeSequence_of_not_elements hgiven.1 hgiven.2,
      completeSequence_of_not_elements hgiven.1 hgiven.2]
    exact (if_pos rfl).symm

/-- **Sets agree with sequences.**

1. Where a sequence is completed to a list, a set is completed to the elements of the list, those
   that are one member with an earlier one left out, and a negatively signed zero stored as zero.
2. What is given, but not as a list or a set, is rejected. The sequence blames itself, and so does
   the set.
3. In every other case the set has the violation of the sequence, and it does not blame the
   sequence. -/
theorem complete_set_agrees (range : Range) (path : Path) (v : Value) :
    (∀ w, (sequence range).complete path v = .ok w → ∃ ws, w = .ofList ws ∧
      (set range).complete path v =
        .ok (.set .anonymous ((Value.firstsBy id ws).map Value.asMember))) ∧
    (v.isNil = false → v.elements? = none →
      (sequence range).complete path v = .error ⟨some (sequence range), path, v⟩ ∧
      (set range).complete path v = .error ⟨some (set range), path, v⟩) ∧
    (v.isNil = true ∨ v.elements?.isSome = true → ∀ violation,
      (sequence range).complete path v = .error violation →
      (set range).complete path v = .error violation ∧
        violation.range ≠ some (sequence range)) := by
  refine ⟨fun w h => ?_, fun hnil hnone => ?_, fun hgiven violation h => ?_⟩
  · obtain ⟨ws, hws, rfl⟩ := map_eq_ok_iff.1 h
    refine ⟨ws, rfl, map_eq_ok_iff.2 ⟨ws, ?_, ?_⟩⟩
    · rw [completeSequence_eq_ok_iff] at hws ⊢
      exact hws
    · rw [Value.setOf, Value.distinctMembers_eq]
  · constructor <;> rw [complete, completeSequence_of_not_elements hnil hnone] <;> rfl
  · have hstop := map_eq_error_iff.1 h
    rw [completeSequence_of_elements hgiven] at hstop
    refine ⟨map_eq_error_iff.2 ?_, range_ne_sequence_of_error hstop⟩
    rw [completeSequence_of_elements hgiven]
    exact hstop

/-- A sample range of tags: lists of texts. -/
def sampleTags : Range := .sequence (string .null)

/-- Both zeros are one member, which is stored without a sign. Of a set of lists, the element that
is no list is blamed by the range of the lists, and what is no set at all by the set. -/
theorem complete_set_agrees_sampleTags :
    (set (any .null)).complete [] (.ofList [.number .negativeZero, .text "a",
        .number (.ofNat 0), .text "a"]) = .ok (.set .anonymous [.number (.ofNat 0), .text "a"]) ∧
    (set sampleTags).complete [] (.ofList [.ofList [.text "a"], .text "b"]) =
      .error ⟨some sampleTags, [.position (.ofNat 1)], .text "b"⟩ ∧
    (set sampleTags).complete [] (.text "b") = .error ⟨some (set sampleTags), [], .text "b"⟩ := by
  refine ⟨?_, ?_, ?_⟩
  · obtain ⟨ws, hws, hset⟩ := (complete_set_agrees (any .null) [] (.ofList [.number .negativeZero,
      .text "a", .number (.ofNat 0), .text "a"])).1 _ rfl
    cases hws
    exact hset
  · exact ((complete_set_agrees sampleTags [] _).2.2 (.inr rfl) _ rfl).1
  · exact ((complete_set_agrees sampleTags [] _).2.1 rfl rfl).2

end Range

end LayeredConfig
