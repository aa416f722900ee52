import LayeredConfig.Proofs.Completion.Elements

/-!
# Which element a sequence is rejected for

A sequence is completed up to the first element that is rejected; what stands behind it is never
looked at. Here this is told without stopping anywhere: every element is completed on its own, and
what comes of the sequence is read off from what came of all of them.

- `outcomes`: what the elements come to one by one, as far as there are both elements and ranges.
- `StopsAtFirst`: the first violation among them, as it is; or else the list of them all.
- `stopsAtFirst_completeEach`: completing element by element comes to that. There is one first
  violation only (`IsFirstViolation.unique`), so it is enough to know where a run stops, and when it
  does not stop.
- `Range.complete_stopsAtFirst`: so do lists with one range for all elements, and lists with a range
  for each position. Of the latter, elements for which there is no range make no difference.
-/

namespace LayeredConfig

/-- What the elements of a sequence at a path come to, each by the range of its position, as far as
there are both. -/
def outcomes (path : Path) (ranges : List Range) (vs : List Value) :
    List (Except Violation Value) :=
  (ranges.zip vs).mapIdx fun i p => p.1.complete (path.element i) p.2

/-- The outcome at position `i` is a violation, and none of those before it is one. -/
def IsFirstViolation (outcomes : List (Except Violation Value)) (i : Nat) (violation : Violation) :
    Prop :=
  outcomes[i]? = some (.error violation) ∧ ∀ j < i, ∃ w, outcomes[j]? = some (.ok w)

/-- What a sequence comes to follows from what its elements come to. -/
structure StopsAtFirst (outcomes : List (Except Violation Value))
    (outcome : Except Violation Value) : Prop where
  /-- It is rejected iff one of its elements is. -/
  rejected_iff : (∃ violation, outcome = .error violation) ↔
    ∃ violation, .error violation ∈ outcomes
  /-- It has the violation of the first such element. -/
  error_iff (violation : Violation) :
    outcome = .error violation ↔ ∃ i, IsFirstViolation outcomes i violation
  /-- Otherwise it comes to the list of all that its elements come to, in their order. -/
  ok_iff (w : Value) : outcome = .ok w ↔ ∃ ws, w = .ofList ws ∧ outcomes = ws.map .ok

variable {path : Path} {range : Range} {ranges : List Range} {v w : Value} {vs ws : List Value}
  {violation violation' : Violation} {i j : Nat}

/-! ## Outcomes -/

theorem length_outcomes : (outcomes path ranges vs).length = min ranges.length vs.length := by
  simp [outcomes]

/-- There is an outcome where there are both a range and an element. -/
theorem getElem?_outcomes_eq_some_iff {outcome : Except Violation Value} :
    (outcomes path ranges vs)[i]? = some outcome ↔ ∃ range x, ranges[i]? = some range ∧
      vs[i]? = some x ∧ range.complete (path.element i) x = outcome := by
  simp only [outcomes, List.getElem?_mapIdx, Option.map_eq_some_iff, List.getElem?_zip_eq_some,
    Prod.exists, and_assoc]

/-- **The first violation is one only.** -/
theorem IsFirstViolation.unique {outcomes : List (Except Violation Value)}
    (h : IsFirstViolation outcomes i violation) (h' : IsFirstViolation outcomes j violation') :
    violation = violation' := by
  rcases Nat.lt_trichotomy i j with hlt | rfl | hlt
  · obtain ⟨w, hw⟩ := h'.2 i hlt
    cases hw.symm.trans h.1
  · exact Except.error.inj (Option.some.inj (h.1.symm.trans h'.1))
  · obtain ⟨w, hw⟩ := h.2 j hlt
    cases hw.symm.trans h'.1

/-- Where nothing is rejected, there is no first violation. -/
theorem not_isFirstViolation_map_ok : ¬IsFirstViolation (ws.map .ok) i violation := by
  rintro ⟨hviolation, -⟩
  rw [List.getElem?_map] at hviolation
  obtain ⟨w, -, hw⟩ := Option.map_eq_some_iff.1 hviolation
  cases hw

/-! ## Completing element by element -/

/-- The check at a position is that of the range there. -/
theorem getElem?_checks_eq_some_iff {check : ValueCheck} :
    (Range.checks ranges)[i]? = some check ↔
      ∃ range, ranges[i]? = some range ∧ range.complete = check := by
  rw [Range.checks_eq_map, List.getElem?_map, Option.map_eq_some_iff]

/-- A run goes through iff all elements come to completed values. -/
theorem completeEach_eq_ok_iff_outcomes :
    completeEach path (Range.checks ranges) 0 vs = .ok ws ↔
      outcomes path ranges vs = ws.map .ok := by
  constructor
  · intro h
    refine List.ext_getElem? fun i => ?_
    rw [List.getElem?_map]
    cases houtcome : (outcomes path ranges vs)[i]? with
    | none =>
      have hlength : ws.length = (outcomes path ranges vs).length := by
        rw [length_of_completeEach h, length_outcomes, Range.checks_eq_map, List.length_map]
      rw [List.getElem?_eq_none_iff, ← hlength, ← List.getElem?_eq_none_iff] at houtcome
      rw [houtcome]
      rfl
    | some outcome =>
      obtain ⟨range, x, hrange, hx, rfl⟩ := getElem?_outcomes_eq_some_iff.1 houtcome
      have hcheck := getElem?_checks_eq_some_iff.2 ⟨range, hrange, rfl⟩
      obtain ⟨w, hdone, hw⟩ := of_completeEach h hcheck hx
      rw [Nat.zero_add] at hdone
      rw [hdone, hw]
      rfl
  · intro h
    refine completeEach_eq_ok_iff.2 ⟨?_, fun j check x w hcheck hx hw => ?_⟩
    · have hlength := congrArg List.length h
      rw [length_outcomes, List.length_map] at hlength
      rw [← hlength, Range.checks_eq_map, List.length_map]
    · obtain ⟨range, hrange, rfl⟩ := getElem?_checks_eq_some_iff.1 hcheck
      have houtcome : (outcomes path ranges vs)[j]? = some (range.complete (path.element j) x) :=
        getElem?_outcomes_eq_some_iff.2 ⟨range, x, hrange, hx, rfl⟩
      rw [h, List.getElem?_map, hw] at houtcome
      rw [Nat.zero_add]
      exact (Option.some.inj houtcome).symm

/-- A run stops at the first violation. -/
theorem isFirstViolation_of_completeEach
    (h : completeEach path (Range.checks ranges) 0 vs = .error violation) :
    ∃ i, IsFirstViolation (outcomes path ranges vs) i violation := by
  obtain ⟨i, check, x, hcheck, hx, hstop, hbefore⟩ := completeEach_eq_error h
  obtain ⟨range, hrange, rfl⟩ := getElem?_checks_eq_some_iff.1 hcheck
  rw [Nat.zero_add] at hstop
  refine ⟨i, getElem?_outcomes_eq_some_iff.2 ⟨range, x, hrange, hx, hstop⟩, fun j hj => ?_⟩
  have hlength : j < (outcomes path ranges vs).length := by
    have hi := (List.getElem?_eq_some_iff.1 hrange).1
    have hi' := (List.getElem?_eq_some_iff.1 hx).1
    rw [length_outcomes]
    omega
  have houtcome := List.getElem?_eq_getElem hlength
  obtain ⟨range', x', hrange', hx', heq⟩ := getElem?_outcomes_eq_some_iff.1 houtcome
  obtain ⟨w, hw⟩ := hbefore j hj _ x' (getElem?_checks_eq_some_iff.2 ⟨range', hrange', rfl⟩) hx'
  rw [Nat.zero_add] at hw
  exact ⟨w, houtcome.trans (congrArg some (heq.symm.trans hw))⟩

/-- **Completing element by element stops at the first violation,** and comes to the list of all
completed values if there is none. -/
theorem stopsAtFirst_completeEach (path : Path) (ranges : List Range) (vs : List Value) :
    StopsAtFirst (outcomes path ranges vs)
      ((completeEach path (Range.checks ranges) 0 vs).map .ofList) := by
  have herror : ∀ violation, completeEach path (Range.checks ranges) 0 vs = .error violation ↔
      ∃ i, IsFirstViolation (outcomes path ranges vs) i violation := by
    refine fun violation => ⟨isFirstViolation_of_completeEach, fun ⟨i, hfirst⟩ => ?_⟩
    cases hrun : completeEach path (Range.checks ranges) 0 vs with
    | ok ws =>
      rw [completeEach_eq_ok_iff_outcomes.1 hrun] at hfirst
      exact absurd hfirst not_isFirstViolation_map_ok
    | error violation' =>
      obtain ⟨j, hfirst'⟩ := isFirstViolation_of_completeEach hrun
      rw [hfirst.unique hfirst']
  refine ⟨⟨?_, ?_⟩, fun violation => ?_, fun w => ?_⟩
  · rintro ⟨violation, h⟩
    obtain ⟨i, hfirst, -⟩ := isFirstViolation_of_completeEach (map_eq_error_iff.1 h)
    exact ⟨violation, List.mem_of_getElem? hfirst⟩
  · rintro ⟨violation, hmem⟩
    refine exists_error_iff.2 fun ⟨w, h⟩ => ?_
    obtain ⟨ws, hws, -⟩ := map_eq_ok_iff.1 h
    rw [completeEach_eq_ok_iff_outcomes.1 hws] at hmem
    obtain ⟨x, -, hx⟩ := List.mem_map.1 hmem
    cases hx
  · rw [map_eq_error_iff, herror]
  · rw [map_eq_ok_iff]
    refine exists_congr fun ws => ?_
    rw [completeEach_eq_ok_iff_outcomes, and_comm, eq_comm]

/-! ## Lists and tuples -/

namespace Range

/-- **Which element a list is rejected for.** What is given as a list, or as a set, has the elements
`vs`.

1. If there is one range for all of them, the outcome follows from those of all the elements: the
   violation of the first that is rejected, as it is, or else the list of what they come to.
2. If there is a range for each position, the outcome follows in the same way from those of the
   elements for which there is a range. It does not depend on the others, nor on whether it is a
   list or a set that holds the elements. -/
theorem complete_stopsAtFirst (hv : v.elements? = some vs) (path : Path) :
    (∀ range, StopsAtFirst (outcomes path (List.replicate vs.length range) vs)
      ((sequence range).complete path v)) ∧
    ∀ ranges, StopsAtFirst (outcomes path ranges vs) ((tuple ranges).complete path v) ∧
      ∀ {w : Value} {ws : List Value}, w.elements? = some ws →
        ws.take ranges.length = vs.take ranges.length →
        (tuple ranges).complete path w = (tuple ranges).complete path v := by
  refine ⟨fun range => ?_, fun ranges => ⟨?_, fun {w ws} hw htake => ?_⟩⟩
  · rw [complete_sequence_of_elements hv]
    exact stopsAtFirst_completeEach path _ vs
  · rw [complete_tuple_of_elements hv]
    exact stopsAtFirst_completeEach path ranges vs
  · have hlength : (checks ranges).length = ranges.length := by
      rw [checks_eq_map, List.length_map]
    rw [complete_tuple_of_elements hw, complete_tuple_of_elements hv, ← completeEach_take, hlength,
      htake, ← hlength, completeEach_take]

/-- A sample range of a stop: its name and the platforms there. -/
def sampleStop : Range := .tuple [string .null, .sequence (integer .null)]

/-- A stop with one platform, and a remark. -/
def sampleStopGiven : Value :=
  .ofList [.text "north", .ofList [.number (.ofNat 4)], .text "closed"]

/-- Of a set of names, the first that is no text is reported, and not a later one. Of a stop, the
remark behind the platforms is not looked at. -/
theorem complete_stopsAtFirst_sampleStop :
    (sequence (string .null)).complete [.key "names"]
        (.set .anonymous [.text "north", .bool true, .text "south", .number (.ofNat 4)]) =
      .error ⟨some (string .null), [.key "names", .position (.ofNat 1)], .bool true⟩ ∧
    sampleStop.complete [] sampleStopGiven =
      .ok (.ofList [.text "north", .ofList [.number (.ofNat 4)]]) ∧
    sampleStop.complete [] (.set .anonymous [.text "north", .ofList [.number (.ofNat 4)]]) =
      sampleStop.complete [] sampleStopGiven := by
  have hgiven : sampleStopGiven.elements? =
    some [.text "north", .ofList [.number (.ofNat 4)], .text "closed"] := rfl
  refine ⟨?_, ?_, ?_⟩
  · refine (((complete_stopsAtFirst rfl _).1 (string .null)).error_iff _).2 ⟨1, rfl, fun j hj => ?_⟩
    obtain rfl : j = 0 := Nat.lt_one_iff.1 hj
    exact ⟨.text "north", rfl⟩
  · exact (((complete_stopsAtFirst hgiven []).2 _).1.ok_iff _).2
      ⟨[.text "north", .ofList [.number (.ofNat 4)]], rfl, rfl⟩
  · exact ((complete_stopsAtFirst hgiven []).2 _).2 rfl rfl

end Range

end LayeredConfig
