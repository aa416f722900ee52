import LayeredConfig.Completion
import LayeredConfig.Proofs.Data.Outcome
import Mathlib.Data.List.Forall2

/-!
# Completing element by element

How the outcome for a sequence or a table follows from the outcomes for its parts.

- `of_completeEach`, `completeEach_eq_error`: where a sequence is completed, each element is, by the
  check of its position; where it is not, the first element that is rejected says why.
  `completeEach_eq_ok_iff` has both the elements and their number.
  `completeEach_take`: elements for which there is no check make no difference.
- `completePairs_eq_ok_iff`, `of_completePairs_of_mem`, `completePairs_eq_error`: the same for the
  keys and values of a table.
- `completeSequence_of_elements`, `completeSequence_of_not_elements`: what is given as a sequence is
  completed in this way; what is none is rejected as such. `completeSequence_eq_ok_iff`,
  `of_completeSequence`, `completeSequence_eq_error`: the same for it. For the ranges that take
  sequences, see `complete_sequence_of_elements` and `complete_tuple_of_elements`.
-/

namespace LayeredConfig

variable {path : Path} {check key value : ValueCheck} {checks : List ValueCheck} {i j : Nat}
  {v : Value} {vs ws : List Value} {ps qs : List (Value × Value)} {violation : Violation}

/-! ## Sequences -/

/-- An element of a completed sequence is completed by the check of its position. -/
theorem of_completeEach (h : completeEach path checks i vs = .ok ws)
    (hcheck : checks[j]? = some check) (hv : vs[j]? = some v) :
    ∃ w, check (path.element (i + j)) v = .ok w ∧ ws[j]? = some w := by
  induction checks generalizing i j vs ws with
  | nil => cases hcheck
  | cons first rest ih =>
    cases vs with
    | nil => cases hv
    | cons x xs =>
      obtain ⟨w, hw, h⟩ := bind_eq_ok_iff.1 h
      obtain ⟨later, hlater, h⟩ := bind_eq_ok_iff.1 h
      cases h
      cases j with
      | zero =>
        cases hcheck
        cases hv
        exact ⟨w, hw, rfl⟩
      | succ j =>
        rw [← Nat.succ_add_eq_add_succ]
        exact ih hlater hcheck hv

/-- A sequence is completed as far as there are both elements and checks. -/
theorem length_of_completeEach (h : completeEach path checks i vs = .ok ws) :
    ws.length = min checks.length vs.length := by
  induction checks generalizing i vs ws with
  | nil =>
    cases h
    exact (Nat.zero_min _).symm
  | cons check rest ih =>
    cases vs with
    | nil =>
      cases h
      rfl
    | cons x xs =>
      obtain ⟨w, -, h⟩ := bind_eq_ok_iff.1 h
      obtain ⟨later, hlater, h⟩ := bind_eq_ok_iff.1 h
      cases h
      rw [List.length_cons, ih hlater, List.length_cons, List.length_cons, Nat.succ_min_succ]

/-- **When a sequence is completed:** when each element is, by the check of its position. -/
theorem completeEach_eq_ok_iff :
    completeEach path checks i vs = .ok ws ↔ ws.length = min checks.length vs.length ∧
      ∀ (j : Nat) (check : ValueCheck) (v w : Value), checks[j]? = some check → vs[j]? = some v →
        ws[j]? = some w → check (path.element (i + j)) v = .ok w := by
  constructor
  · intro h
    refine ⟨length_of_completeEach h, fun j check v w hcheck hv hw => ?_⟩
    obtain ⟨w', hdone, hw'⟩ := of_completeEach h hcheck hv
    cases hw.symm.trans hw'
    exact hdone
  · rintro ⟨hlength, hdone⟩
    induction checks generalizing i vs ws with
    | nil =>
      rw [List.length_nil, Nat.zero_min, List.length_eq_zero_iff] at hlength
      rw [hlength]
      rfl
    | cons check rest ih =>
      cases vs with
      | nil =>
        rw [List.length_nil, Nat.min_zero, List.length_eq_zero_iff] at hlength
        rw [hlength]
        rfl
      | cons x xs =>
        rw [List.length_cons, List.length_cons, Nat.succ_min_succ] at hlength
        cases ws with
        | nil => cases hlength
        | cons w later =>
          have hlater : completeEach path rest (i + 1) xs = .ok later := by
            refine ih (Nat.succ.inj hlength) fun j check v w hcheck hv hw => ?_
            rw [Nat.succ_add_eq_add_succ]
            exact hdone (j + 1) check v w hcheck hv hw
          exact bind_eq_ok_iff.2 ⟨w, hdone 0 check x w rfl rfl rfl,
            bind_eq_ok_iff.2 ⟨later, hlater, rfl⟩⟩

/-- Elements for which there is no check are not looked at. -/
theorem completeEach_take :
    completeEach path checks i (vs.take checks.length) = completeEach path checks i vs := by
  induction checks generalizing i vs with
  | nil => rfl
  | cons check rest ih =>
    cases vs with
    | nil => rfl
    | cons x xs =>
      rw [List.length_cons, List.take_succ_cons, completeEach, completeEach, ih]

/-- **A sequence is rejected for the first of its elements that is.** -/
theorem completeEach_eq_error (h : completeEach path checks i vs = .error violation) :
    ∃ (j : Nat) (check : ValueCheck) (v : Value), checks[j]? = some check ∧ vs[j]? = some v ∧
      check (path.element (i + j)) v = .error violation ∧
      ∀ k < j, ∀ (check : ValueCheck) (v : Value), checks[k]? = some check → vs[k]? = some v →
        ∃ w, check (path.element (i + k)) v = .ok w := by
  induction checks generalizing i vs with
  | nil => cases h
  | cons first rest ih =>
    cases vs with
    | nil => cases h
    | cons x xs =>
      rcases bind_eq_error_iff.1 h with hx | ⟨w, hw, h⟩
      · exact ⟨0, first, x, rfl, rfl, hx, fun k hk => absurd hk (Nat.not_lt_zero k)⟩
      · rcases bind_eq_error_iff.1 h with hlater | ⟨later, -, h⟩
        · obtain ⟨j, check, v, hcheck, hv, hviolation, hbefore⟩ := ih hlater
          rw [Nat.succ_add_eq_add_succ] at hviolation
          refine ⟨j + 1, check, v, hcheck, hv, hviolation, fun k hk check' v' hcheck' hv' => ?_⟩
          cases k with
          | zero =>
            cases hcheck'
            cases hv'
            exact ⟨w, hw⟩
          | succ k =>
            rw [← Nat.succ_add_eq_add_succ]
            exact hbefore k (Nat.lt_of_succ_lt_succ hk) check' v' hcheck' hv'
        · cases h

/-- What is given as a sequence is rejected for one of its elements, or for being none. -/
theorem completeSequence_eq_error {range : Range} {checks : List Value → List ValueCheck}
    (h : completeSequence range checks path v = .error violation) :
    violation = ⟨some range, path, v⟩ ∨ ∃ elements, v.elements? = some elements ∧
      completeEach path (checks elements) 0 elements = .error violation := by
  unfold completeSequence at h
  split at h
  · cases h
  · split at h
    · exact .inr ⟨_, ‹_›, h⟩
    · cases h
      exact .inl rfl

/-- The same check stands at every position. -/
theorem getElem?_uniformly (check : ValueCheck) {x : Value} (hx : vs[j]? = some x) :
    (uniformly check vs)[j]? = some check := by
  rw [uniformly, List.getElem?_replicate, if_pos (List.getElem?_eq_some_iff.1 hx).1]

/-- The checks of the same range at every position. -/
theorem Range.checks_replicate (range : Range) (vs : List Value) :
    Range.checks (List.replicate vs.length range) = uniformly range.complete vs := by
  rw [Range.checks_eq_map, List.map_replicate]
  rfl

theorem completeEach_nil (path : Path) (checks : List ValueCheck) (i : Nat) :
    completeEach path checks i [] = .ok [] := by
  cases checks <;> rfl

/-- What is given as a sequence is completed element by element. Where nothing is given, there are
no elements. -/
theorem completeSequence_of_elements (h : v.isNil = true ∨ v.elements?.isSome = true)
    (range : Range) (checks : List Value → List ValueCheck) (path : Path) :
    completeSequence range checks path v =
      completeEach path (checks (v.elements?.getD [])) 0 (v.elements?.getD []) := by
  unfold completeSequence
  cases hnil : v.isNil with
  | true =>
    rcases Value.isNil_iff.1 hnil with rfl | rfl <;> exact (completeEach_nil path _ 0).symm
  | false =>
    obtain ⟨elements, helements⟩ := Option.isSome_iff_exists.1 (h.resolve_left (by simp [hnil]))
    rw [helements]
    rfl

/-- What is given, but not as a sequence, is rejected as such. -/
theorem completeSequence_of_not_elements (hnil : v.isNil = false) (hnone : v.elements? = none)
    (range : Range) (checks : List Value → List ValueCheck) (path : Path) :
    completeSequence range checks path v = .error ⟨some range, path, v⟩ := by
  rw [completeSequence, hnil, hnone]
  rfl

/-- **When what is given as a sequence is completed:** when it is one, or nil, and its elements
are. -/
theorem completeSequence_eq_ok_iff {range : Range} {checks : List Value → List ValueCheck} :
    completeSequence range checks path v = .ok ws ↔
      (v.isNil = true ∨ v.elements?.isSome = true) ∧
        completeEach path (checks (v.elements?.getD [])) 0 (v.elements?.getD []) = .ok ws := by
  by_cases h : v.isNil = true ∨ v.elements?.isSome = true
  · rw [completeSequence_of_elements h, and_iff_right h]
  · rw [not_or, Bool.not_eq_true, Option.not_isSome_iff_eq_none] at h
    rw [completeSequence_of_not_elements h.1 h.2]
    simp [h.1, h.2]

/-- What is completed as a sequence are the elements that are given. -/
theorem completeEach_of_completeSequence {range : Range} {checks : List Value → List ValueCheck}
    (h : completeSequence range checks path v = .ok ws) :
    completeEach path (checks (v.elements?.getD [])) 0 (v.elements?.getD []) = .ok ws :=
  (completeSequence_eq_ok_iff.1 h).2

/-- What is given as a list of values of a range is completed by that range at every position. -/
theorem complete_sequence_of_elements {range : Range} (h : v.elements? = some vs) (path : Path) :
    (Range.sequence range).complete path v =
      (completeEach path (Range.checks (List.replicate vs.length range)) 0 vs).map .ofList := by
  rw [Range.complete, completeSequence_of_elements (.inr (Option.isSome_of_eq_some h)), h,
    Range.checks_replicate]
  rfl

/-- What is given as a tuple is completed by the range of each position. -/
theorem complete_tuple_of_elements {ranges : List Range} (h : v.elements? = some vs) (path : Path) :
    (Range.tuple ranges).complete path v =
      (completeEach path (Range.checks ranges) 0 vs).map .ofList := by
  rw [Range.complete, completeSequence_of_elements (.inr (Option.isSome_of_eq_some h)), h]
  rfl

/-- What is given as a completed sequence has elements that are completed, each by the check of its
position. -/
theorem of_completeSequence {range : Range} {checks : List Value → List ValueCheck}
    (h : completeSequence range checks path v = .ok ws) {x : Value}
    (hcheck : (checks (v.elements?.getD []))[j]? = some check)
    (hx : (v.elements?.getD [])[j]? = some x) :
    ∃ w, check (path.element j) x = .ok w ∧ ws[j]? = some w := by
  have hdone := of_completeEach (completeEach_of_completeSequence h) hcheck hx
  rw [Nat.zero_add] at hdone
  exact hdone

/-! ## Tables -/

/-- **When the pairs of a table are completed:** when both parts of each are, at the path of the
pair. -/
theorem completePairs_eq_ok_iff :
    completePairs key value path ps = .ok qs ↔ List.Forall₂ (fun p q =>
      key (path.pair p.1) p.1 = .ok q.1 ∧ value (path.pair p.1) p.2 = .ok q.2) ps qs := by
  induction ps generalizing qs with
  | nil =>
    rw [List.forall₂_nil_left_iff]
    exact ⟨fun h => (Except.ok.inj h).symm, fun h => congrArg Except.ok h.symm⟩
  | cons p rest ih =>
    obtain ⟨k, v⟩ := p
    rw [List.forall₂_cons_left_iff]
    constructor
    · intro h
      obtain ⟨k', hk, h⟩ := bind_eq_ok_iff.1 h
      obtain ⟨v', hv, h⟩ := bind_eq_ok_iff.1 h
      obtain ⟨later, hlater, h⟩ := bind_eq_ok_iff.1 h
      cases h
      exact ⟨(k', v'), later, ⟨hk, hv⟩, ih.1 hlater, rfl⟩
    · rintro ⟨q, later, ⟨hk, hv⟩, hlater, rfl⟩
      exact bind_eq_ok_iff.2 ⟨q.1, hk, bind_eq_ok_iff.2 ⟨q.2, hv,
        bind_eq_ok_iff.2 ⟨later, ih.2 hlater, rfl⟩⟩⟩

/-- The key and the value of each completed pair are completed at the path of the pair. -/
theorem of_completePairs_of_mem (h : completePairs key value path ps = .ok qs)
    {p : Value × Value} (hp : p ∈ ps) :
    (∃ k, key (path.pair p.1) p.1 = .ok k) ∧ ∃ w, value (path.pair p.1) p.2 = .ok w := by
  induction ps generalizing qs with
  | nil => cases hp
  | cons first rest ih =>
    obtain ⟨k, hk, h⟩ := bind_eq_ok_iff.1 h
    obtain ⟨w, hw, h⟩ := bind_eq_ok_iff.1 h
    obtain ⟨later, hlater, -⟩ := bind_eq_ok_iff.1 h
    rcases List.mem_cons.1 hp with rfl | hp
    · exact ⟨⟨k, hk⟩, w, hw⟩
    · exact ih hlater hp

/-- **A table is rejected for one of its keys or values.** -/
theorem completePairs_eq_error (h : completePairs key value path ps = .error violation) :
    ∃ p ∈ ps, key (path.pair p.1) p.1 = .error violation ∨
      value (path.pair p.1) p.2 = .error violation := by
  induction ps with
  | nil => cases h
  | cons first rest ih =>
    rcases bind_eq_error_iff.1 h with hkey | ⟨k, -, h⟩
    · exact ⟨first, List.mem_cons_self, .inl hkey⟩
    rcases bind_eq_error_iff.1 h with hvalue | ⟨w, -, h⟩
    · exact ⟨first, List.mem_cons_self, .inr hvalue⟩
    rcases bind_eq_error_iff.1 h with hlater | ⟨later, -, h⟩
    · obtain ⟨p, hp, hviolation⟩ := ih hlater
      exact ⟨p, List.mem_cons_of_mem first hp, hviolation⟩
    · cases h

/-- What is given as a table is completed pair by pair. -/
theorem complete_mapOf_of_pairs {key value : Range} (h : v.pairs? = some ps) (path : Path) :
    (Range.mapOf key value).complete path v =
      (completePairs key.complete value.complete path ps).map .tableOf := by
  have hgiven : v.isNil = false := by
    cases v <;> first | rfl | cases h
  unfold Range.complete
  rw [hgiven, h]
  rfl

end LayeredConfig
