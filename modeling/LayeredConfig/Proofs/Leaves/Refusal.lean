import LayeredConfig.Proofs.Completion.Elements
import LayeredConfig.Proofs.Completion.Settled
import LayeredConfig.Proofs.Leaves.Loops

/-!
# When a fold is refused

A fold completes the value that it is given, and then visits the parts. It is refused where the
value is rejected, whatever the range is (`Range.leaves_refused`). Whether it is refused nowhere
else depends on what the parts are read off.

- Lists, tuples and tables are folded over the elements that are given, which have just been
  accepted. A set is folded over its completed members, and these pass through the range of the
  members once more.
- `Range.TakesBack`: a range accepts what it has completed, too. The standard ranges do; a
  `Range.mapped` that turns values into others in general does not.
- `Range.IsFoldable`: ranges without schemas in which every set is one of a range that takes back.
  `Range.fold_fails_iff_rejected` says that their folds are refused exactly where their values are
  rejected. Without the condition on sets that fails (`fold_sampleCrates`).
-/

namespace LayeredConfig

/-! ## Rejected values -/

section Refused

variable {range : Range} {path : Path} {v : Value} {violation : Violation}

/-- A value that is rejected cannot be completed for a fold. -/
theorem completeForFold_refused (h : range.complete path v = .error violation) :
    ∃ fault, completeForFold range path v = .error fault ∧ fault.code = .foldPrecondition := by
  refine ⟨.cannotFold range path violation.path violation.value, ?_, rfl⟩
  rw [completeForFold, h]
  rfl

theorem scalarLeaf_refused (h : range.complete path v = .error violation) :
    ∃ fault, scalarLeaf range path v = .error fault ∧ fault.code = .foldPrecondition := by
  obtain ⟨fault, hfault, hcode⟩ := completeForFold_refused h
  exact ⟨fault, map_eq_error_iff.2 hfault, hcode⟩

/-- What is completed first cannot go on without. -/
theorem bind_refused {k : Value → Except Fault (List Leaf)}
    (h : range.complete path v = .error violation) :
    ∃ fault, (completeForFold range path v >>= k) = .error fault ∧
      fault.code = .foldPrecondition := by
  obtain ⟨fault, hfault, hcode⟩ := completeForFold_refused h
  exact ⟨fault, bind_eq_error_iff.2 (.inl hfault), hcode⟩

/-- Where no check accepts the value, no leaves are found. -/
theorem acceptedLeaves?_eq_none {ranges : List Range}
    (h : firstAccepted? path v (Range.checks ranges) = none) :
    Range.acceptedLeaves? ranges path v = none := by
  induction ranges with
  | nil => rfl
  | cons range rest ih =>
    simp only [Range.checks, firstAccepted?] at h
    cases hv : range.complete path v with
    | ok w =>
      rw [hv] at h
      cases h
    | error violation =>
      rw [hv] at h
      rw [Range.acceptedLeaves?, hv]
      exact ih h

/-- **A rejected value has no leaves.** -/
theorem Range.leaves_refused (range : Range) {path : Path} {v : Value} {violation : Violation}
    (h : range.complete path v = .error violation) :
    ∃ fault, range.leaves path v = .error fault ∧ fault.code = .foldPrecondition :=
  match range with
  | .any _ => scalarLeaf_refused h
  | .nonNil => scalarLeaf_refused h
  | .predicate .. => scalarLeaf_refused h
  | .scalar .. => scalarLeaf_refused h
  | .choice .. => scalarLeaf_refused h
  | .mapped .. => scalarLeaf_refused h
  | .optional range => by
    unfold Range.complete at h
    unfold Range.leaves
    split at h
    · cases h
    · rw [if_neg ‹_›]
      exact range.leaves_refused h
  | .optionalDefault range _ => range.leaves_refused h
  | .anyOf ranges => by
    unfold Range.complete at h
    unfold Range.leaves
    split at h
    · cases h
    · rename_i hnone
      rw [acceptedLeaves?_eq_none hnone]
      exact ⟨_, rfl, rfl⟩
  | .sequence _ => bind_refused h
  | .set _ => bind_refused h
  | .tuple _ => bind_refused h
  | .mapOf .. => bind_refused h
  | .schema _ => bind_refused h

end Refused

/-- **When a fold fails,** if all that is accepted has leaves: where the value is rejected. -/
theorem Range.fold_fails_iff_of_leaves_exist {α : Type} {range : Range} {path : Path}
    {f : Range → Path → α → Value → α} {init : α} {v : Value}
    (h : ∀ w, range.complete path v = .ok w → ∃ leaves, range.leaves path v = .ok leaves) :
    (∃ fault, range.fold path f init v = .error fault ∧ fault.code = .foldPrecondition) ↔
      ∃ violation, range.complete path v = .error violation := by
  constructor
  · rintro ⟨fault, hfault, -⟩
    cases hv : range.complete path v with
    | error violation => exact ⟨violation, rfl⟩
    | ok w =>
      obtain ⟨leaves, hleaves⟩ := h w hv
      cases hleaves.symm.trans (map_eq_error_iff.1 hfault)
  · rintro ⟨violation, hv⟩
    obtain ⟨fault, hfault, hcode⟩ := range.leaves_refused hv
    exact ⟨fault, map_eq_error_iff.2 hfault, hcode⟩

namespace Range

/-! ## Accepted values -/

/-- Whatever the range has completed, it accepts as the member of a set, in every place. -/
def TakesBack (range : Range) : Prop :=
  ∀ path v w, range.complete path v = .ok w →
    ∀ path', ∃ w', range.complete path' w.asMember = .ok w'

/-- Standard ranges take back what they have completed, since they keep it. -/
theorem IsStandard.takesBack {range : Range} (h : range.IsStandard) : range.TakesBack := by
  intro path v w hv path'
  have hkept : range.Keeps w := h.keeps_rebuilt Value.rebuilds_id hv
  exact ⟨w.asMember, h.keeps_asMember hkept path'⟩

/-- Ranges without schemas in which every set is one of a range that takes its values back. -/
inductive IsFoldable : Range → Prop
  | any (default : Value) : IsFoldable (.any default)
  | nonNil : IsFoldable .nonNil
  | predicate (description : String) (accepts : Value → Bool) (default : Value) :
    IsFoldable (.predicate description accepts default)
  | scalar (description : String) (judge : Path → Value → Except Rejection Value) :
    IsFoldable (.scalar description judge)
  | choice (candidates : List Value) (default : Value) (fits : Value → Value → Bool) :
    IsFoldable (.choice candidates default fits)
  | mapped (description : String) (range : Range) (f : Value → Except Rejection Value) :
    IsFoldable (.mapped description range f)
  | optional {range : Range} (h : IsFoldable range) : IsFoldable (.optional range)
  | optionalDefault {range : Range} (h : IsFoldable range) (default : Value) :
    IsFoldable (.optionalDefault range default)
  | anyOf {ranges : List Range} (h : ∀ range ∈ ranges, IsFoldable range) :
    IsFoldable (.anyOf ranges)
  | sequence {range : Range} (h : IsFoldable range) : IsFoldable (.sequence range)
  | set {range : Range} (h : IsFoldable range) (hback : range.TakesBack) : IsFoldable (.set range)
  | tuple {ranges : List Range} (h : ∀ range ∈ ranges, IsFoldable range) :
    IsFoldable (.tuple ranges)
  | mapOf {key value : Range} (hkey : IsFoldable key) (hvalue : IsFoldable value) :
    IsFoldable (.mapOf key value)

section Accepted

variable {range key value : Range} {ranges : List Range} {path : Path} {v w : Value}

/-- The value has leaves in every place where the range accepts it. -/
def HasLeaves (range : Range) : Prop :=
  ∀ {path v w}, range.complete path v = .ok w → ∃ leaves, range.leaves path v = .ok leaves

theorem scalarLeaf_exists (h : range.complete path v = .ok w) :
    ∃ leaves, scalarLeaf range path v = .ok leaves :=
  ⟨_, map_eq_ok_iff.2 ⟨w, mapError_eq_ok_iff.2 h, rfl⟩⟩

/-- The first range that accepts the value shows its leaves. -/
theorem acceptedLeaves?_exists (hranges : ∀ range ∈ ranges, range.HasLeaves)
    (h : firstAccepted? path v (checks ranges) = some w) :
    ∃ leaves, acceptedLeaves? ranges path v = some (.ok leaves) := by
  induction ranges with
  | nil => cases h
  | cons range rest ih =>
    simp only [checks, firstAccepted?] at h
    cases hv : range.complete path v with
    | ok x =>
      obtain ⟨leaves, hleaves⟩ := hranges range List.mem_cons_self hv
      rw [acceptedLeaves?, hv]
      exact ⟨leaves, congrArg some hleaves⟩
    | error violation =>
      rw [hv] at h
      rw [acceptedLeaves?, hv]
      exact ih (fun range hrange => hranges range (List.mem_cons_of_mem _ hrange)) h

theorem hasLeaves_sequence (h : range.HasLeaves) : (sequence range).HasLeaves := by
  intro path v w hv
  obtain ⟨ws, hws, -⟩ := map_eq_ok_iff.1 hv
  obtain ⟨leaves, hleaves⟩ : ∃ leaves, elementLeaves path
      (List.replicate (v.elements?.getD []).length range.leaves) 0 (v.elements?.getD []) =
        .ok leaves := by
    refine elementLeaves_exists fun j visit x hvisit hx => ?_
    obtain rfl := List.eq_of_mem_replicate (List.mem_of_getElem? hvisit)
    obtain ⟨y, hy, -⟩ := of_completeSequence hws (getElem?_uniformly range.complete hx) hx
    rw [Nat.zero_add]
    exact h hy
  exact ⟨leaves, bind_eq_ok_iff.2 ⟨w, mapError_eq_ok_iff.2 hv, hleaves⟩⟩

theorem hasLeaves_set (h : range.HasLeaves) (hback : range.TakesBack) : (set range).HasLeaves := by
  intro path v w hv
  obtain ⟨ws, rfl, hws⟩ := of_complete_set hv
  obtain ⟨leaves, hleaves⟩ : ∃ leaves, elementLeaves path
      (List.replicate (Value.distinctMembers ws).length range.leaves) 0
        (Value.distinctMembers ws) = .ok leaves := by
    refine elementLeaves_exists fun j visit x hvisit hx => ?_
    obtain rfl := List.eq_of_mem_replicate (List.mem_of_getElem? hvisit)
    -- the member was completed once, and now is completed again
    obtain ⟨y, hy, rfl⟩ := Value.mem_distinctMembers (List.mem_of_getElem? hx)
    obtain ⟨path', u, hu⟩ := hws y hy
    obtain ⟨z, hz⟩ := hback path' u y hu (path.element (0 + j))
    exact h hz
  exact ⟨leaves, bind_eq_ok_iff.2 ⟨_, mapError_eq_ok_iff.2 hv, hleaves⟩⟩

theorem hasLeaves_tuple (h : ∀ range ∈ ranges, range.HasLeaves) : (tuple ranges).HasLeaves := by
  intro path v w hv
  obtain ⟨ws, hws, -⟩ := map_eq_ok_iff.1 hv
  obtain ⟨leaves, hleaves⟩ : ∃ leaves,
      elementLeaves path (visits ranges) 0 (v.elements?.getD []) = .ok leaves := by
    refine elementLeaves_exists fun j visit x hvisit hx => ?_
    rw [visits_eq_map, List.getElem?_map] at hvisit
    obtain ⟨range, hrange, rfl⟩ := Option.map_eq_some_iff.1 hvisit
    have hcheck : (checks ranges)[j]? = some range.complete := by
      rw [checks_eq_map, List.getElem?_map, hrange]
      rfl
    obtain ⟨y, hy, -⟩ := of_completeSequence hws hcheck hx
    rw [Nat.zero_add]
    exact h range (List.mem_of_getElem? hrange) hy
  exact ⟨leaves, bind_eq_ok_iff.2 ⟨w, mapError_eq_ok_iff.2 hv, hleaves⟩⟩

theorem hasLeaves_mapOf (hkey : key.HasLeaves) (hvalue : value.HasLeaves) :
    (mapOf key value).HasLeaves := by
  intro path v w hv
  obtain ⟨leaves, hleaves⟩ : ∃ leaves,
      pairLeaves key.leaves value.leaves path (v.pairs?.getD []) = .ok leaves := by
    refine pairLeaves_exists fun p hp => ?_
    cases hpairs : v.pairs? with
    | none =>
      rw [hpairs] at hp
      cases hp
    | some pairs =>
      rw [hpairs] at hp
      rw [complete_mapOf_of_pairs hpairs] at hv
      obtain ⟨qs, hqs, -⟩ := map_eq_ok_iff.1 hv
      obtain ⟨⟨k, hk⟩, x, hx⟩ := of_completePairs_of_mem hqs hp
      exact ⟨hkey hk, hvalue hx⟩
  exact ⟨leaves, bind_eq_ok_iff.2 ⟨w, mapError_eq_ok_iff.2 hv, hleaves⟩⟩

/-- **What a foldable range accepts has leaves.** -/
theorem IsFoldable.hasLeaves (h : range.IsFoldable) : range.HasLeaves := by
  induction h with
  | any default => exact scalarLeaf_exists
  | nonNil => exact scalarLeaf_exists
  | predicate description accepts default => exact scalarLeaf_exists
  | scalar description judge => exact scalarLeaf_exists
  | choice candidates default fits => exact scalarLeaf_exists
  | mapped description range f => exact scalarLeaf_exists
  | optional h ih =>
    intro path v w hv
    unfold leaves
    rcases complete_optional_iff.1 hv with ⟨hnil, -⟩ | ⟨hnil, hv⟩
    · rw [if_pos hnil]
      exact ⟨_, rfl⟩
    · rw [hnil, if_neg Bool.false_ne_true]
      exact ih hv
  | optionalDefault h default ih => exact ih
  | anyOf h ih =>
    intro path v w hv
    unfold complete at hv
    split at hv
    · rename_i x hx
      obtain ⟨leaves, hleaves⟩ := acceptedLeaves?_exists ih hx
      unfold Range.leaves
      rw [hleaves]
      exact ⟨leaves, rfl⟩
    · cases hv
  | sequence h ih => exact hasLeaves_sequence ih
  | set h hback ih => exact hasLeaves_set ih hback
  | tuple h ih => exact hasLeaves_tuple ih
  | mapOf hkey hvalue ihkey ihvalue => exact hasLeaves_mapOf ihkey ihvalue

end Accepted

/-- **A fold is refused exactly where the value is rejected,** for ranges without schemas in which
sets are only of ranges that take their values back. -/
theorem fold_fails_iff_rejected {α : Type} {range : Range} (h : range.IsFoldable) (path : Path)
    (f : Range → Path → α → Value → α) (init : α) (v : Value) :
    (∃ fault, range.fold path f init v = .error fault ∧ fault.code = .foldPrecondition) ↔
      ∃ violation, range.complete path v = .error violation :=
  fold_fails_iff_of_leaves_exist fun _ hv => h.hasLeaves hv

/-- Counts the leaves. -/
def countLeaf (_ : Range) (_ : Path) (seen : Nat) (_ : Value) : Nat := seen + 1

/-- A sample range of badges: a set of texts that may be left out. -/
def sampleBadges : Range := .set (.optional (string (.text "none")))

/-- A fold over the sample badges is refused for a number among them, and not for one that is left
out. -/
theorem fold_sampleBadges :
    (∃ fault, sampleBadges.fold [] countLeaf 0 (.ofList [.text "a", .number (.finite 5)]) =
        .error fault ∧ fault.code = .foldPrecondition) ∧
      ¬∃ fault, sampleBadges.fold [] countLeaf 0 (.ofList [.text "a", .null, .text "a"]) =
        .error fault ∧ fault.code = .foldPrecondition := by
  have hstandard : (Range.optional (string (.text "none"))).IsStandard :=
    .optional (.named .string (.inr ⟨_, rfl⟩))
  have hbadges : sampleBadges.IsFoldable :=
    .set (.optional (.predicate _ _ _)) hstandard.takesBack
  constructor
  · exact (fold_fails_iff_rejected hbadges _ _ _ _).2 ⟨_, rfl⟩
  · rw [fold_fails_iff_rejected hbadges]
    rintro ⟨violation, hv⟩
    cases hv

/-- A sample range of boxes: a text is put into a list. -/
def sampleBox : Range := .mapped "boxed" (string (.text "")) fun w => .ok (.ofList [w])

/-- A fold over a set of sample boxes is refused although the set is accepted: the boxed text is no
text any more. Over a list of them it is not. -/
theorem fold_sampleCrates :
    (set sampleBox).complete [] (.ofList [.text "a"]) = .ok (.setOf [.ofList [.text "a"]]) ∧
      (∃ fault, (set sampleBox).fold [] countLeaf 0 (.ofList [.text "a"]) = .error fault ∧
        fault.code = .foldPrecondition) ∧
      (sequence sampleBox).fold [] countLeaf 0 (.ofList [.text "a"]) = .ok 1 :=
  ⟨rfl, ⟨_, rfl, rfl⟩, rfl⟩

end Range

end LayeredConfig
