import LayeredConfig.Proofs.Completion.Elements
import LayeredConfig.Proofs.Completion.Rejection

/-!
# Where the offending value stands

A violation names a path and a value. The path goes on from where the value that was checked
stands, and who walks the rest of it, from that value, finds the value that the violation names
(`Range.violation_pointsInto`).

- `Value.step?`, `Value.found?`: one step from a value, and a walk from it along a path. Nil is
  walked through: beyond it, and under a key that a map does not have, there is undefined. A walk
  leads nowhere if it takes a key for a position, or goes past the end of a sequence.
- `Violation.PointsInto`: what is said above of a violation.
- `Range.IsDirect`: the ranges that check what they are given, and not something else in its place.
  A default that is checked stands nowhere (`Range.optionalDefault`), and the keys of a table are
  no step away from it (`Range.mapOf`).
-/

namespace LayeredConfig

/-! ## Walking along a path -/

/-- The position or count that a number is. -/
def Number.toNat? : Number → Option Nat
  | .finite q => if q.den = 1 ∧ 0 ≤ q.num then some q.num.toNat else none
  | _ => none

@[simp] theorem Number.toNat?_ofNat (n : Nat) : (ofNat n).toNat? = some n := by
  simp [ofNat, toNat?]

namespace Value

variable {v w x : Value} {vs : List Value} {segment : Segment}

/-- What stands one step further: the value under a key of a map, or the element at a position of a
list or a set. -/
def step? (v : Value) (segment : Segment) : Option Value :=
  if v.isNil then some .undefined
  else match segment with
    | .key name => v.entries?.map fun es => Entries.read es name
    | .position n => n.toNat?.bind fun i => (v.elements?.getD [])[i]?

/-- What is found by walking along a path. -/
def found? : Value → Path → Option Value
  | v, [] => some v
  | v, segment :: rest => (v.step? segment).bind fun w => w.found? rest

theorem found?_cons_of_step? (h : v.step? segment = some w) (rest : Path) :
    v.found? (segment :: rest) = w.found? rest := by
  rw [found?, h]
  rfl

/-- Where a map is due, a key leads to what is read under it. -/
theorem step?_key (h : v.isNil = true ∨ v.isMap = true) (key : String) :
    v.step? (.key key) = some (Entries.read v.entriesOrEmpty key) := by
  rcases h with h | h
  · rcases isNil_iff.1 h with rfl | rfl <;> rfl
  · cases v with
    | object _ _ es => rfl
    | _ => cases h

theorem step?_position (h : v.elements? = some vs) {i : Nat} (hx : vs[i]? = some x) :
    v.step? (.position (.ofNat i)) = some x := by
  have hgiven : v.isNil = false := by
    cases hnil : v.isNil with
    | false => rfl
    | true => rcases isNil_iff.1 hnil with rfl | rfl <;> cases h
  simp [step?, hgiven, h, hx]

theorem WellFormed.elements (hv : v.WellFormed) (h : v.elements? = some vs) (hx : x ∈ vs) :
    x.WellFormed := by
  cases hv with
  | list elements =>
    cases h
    exact elements x hx
  | set _ members =>
    cases h
    exact members x hx
  | _ => cases h

end Value

/-! ## Pointing into a value -/

/-- From the value `v` at `path`, the rest of the violation's path leads to the value that it
names. -/
def Violation.PointsInto (violation : Violation) (path : Path) (v : Value) : Prop :=
  ∃ rest, violation.path = path ++ rest ∧ v.found? rest = some violation.value

namespace Violation

variable {violation : Violation} {path : Path} {v w : Value}

/-- A violation that names the value which was checked. -/
theorem pointsInto_self (range : Option Range) (path : Path) (v : Value) :
    (⟨range, path, v⟩ : Violation).PointsInto path v :=
  ⟨[], (List.append_nil path).symm, rfl⟩

/-- What points into a part of a value points into the value. -/
theorem PointsInto.of_step {segment : Segment} (h : violation.PointsInto (path ++ [segment]) w)
    (hw : v.step? segment = some w) : violation.PointsInto path v := by
  obtain ⟨rest, hpath, hfound⟩ := h
  refine ⟨segment :: rest, ?_, ?_⟩
  · rw [hpath, List.append_assoc]
    rfl
  · rw [Value.found?_cons_of_step? hw, hfound]

end Violation

/-- All violations of the range point into the value that was checked. -/
def Range.Points (range : Range) : Prop :=
  ∀ {path v violation}, v.WellFormed → range.complete path v = .error violation →
    violation.PointsInto path v

namespace Schema

variable {schema : Schema} {inherited : Entries Value} {path : Path} {v : Value}
  {violation : Violation}

/-- What is given and is no map is rejected as such. -/
theorem complete_of_not_map (hnil : v.isNil = false) (hmap : v.isMap = false) :
    schema.complete inherited path v = .error ⟨none, path, v⟩ := by
  rw [Schema.complete_eq]
  cases v with
  | undefined => cases hnil
  | null => cases hnil
  | object _ _ _ => cases hmap
  | _ => rfl

/-- **The violation of a map points into it,** at any depth, if those of its settings point into
what is given for them. -/
theorem pointsInto_of_complete
    (hs : ∀ inner ∈ schema.nested, ∀ s ∈ inner.settings, s.range.Points) (hv : v.WellFormed)
    (h : schema.complete inherited path v = .error violation) : violation.PointsInto path v := by
  induction schema using Schema.induction generalizing inherited path v with
  | step schema ih =>
    by_cases hshape : v.isNil = true ∨ v.isMap = true
    case neg =>
      rw [not_or, Bool.not_eq_true, Bool.not_eq_true] at hshape
      rw [complete_of_not_map hshape.1 hshape.2] at h
      cases h
      exact Violation.pointsInto_self none path v
    have hown : ∀ s ∈ schema.settings, s.range.Points := hs schema schema.self_mem_nested
    have hsection : ∀ node ∈ schema.sections, ∀ {scope path x}, x.WellFormed →
        node.schema.complete scope path x = .error violation → violation.PointsInto path x :=
      fun node hnode _ _ _ hx hstop =>
        ih node hnode (fun inner hinner => hs inner (mem_nested_of_section hnode hinner)) hx hstop
    -- a step to a declared key reads the entry that was checked, or undefined
    have hgiven : ∀ {key x}, (key, x) ∈ v.entriesOrEmpty →
        x.WellFormed ∧ v.step? (.key key) = some x := by
      intro key x hx
      have hget : Entries.get? v.entriesOrEmpty key = some x :=
        (Entries.get?_eq_some_iff_mem hv.nodup).2 hx
      refine ⟨hv.get? hget, ?_⟩
      rw [Value.step?_key hshape, Entries.read_of_get? hget]
    have habsent : ∀ {key}, Entries.get? v.entriesOrEmpty key = none →
        v.step? (.key key) = some .undefined := by
      intro key hnone
      rw [Value.step?_key hshape, Entries.read, hnone]
      rfl
    cases levelRejection_of_complete h with
    | notMap => exact Violation.pointsInto_self none path v
    | undeclared hx hkey => exact (Violation.pointsInto_self none _ _).of_step (hgiven hx).2
    | given hs hx hstop =>
      obtain ⟨hwell, hstep⟩ := hgiven hx
      exact (hown _ hs hwell hstop).of_step hstep
    | absent hs hnone hstop => exact (hown _ hs .undefined hstop).of_step (habsent hnone)
    | nested hnode hx hstop =>
      obtain ⟨hwell, hstep⟩ := hgiven hx
      exact (hsection _ hnode hwell hstop).of_step hstep
    | @absentNested node scope _ hnode hnone hstop =>
      -- the empty map that is completed stands for undefined, where the walk comes to
      have hundefined : node.schema.complete scope (path.entry node.key) .undefined =
          .error violation := by
        rw [← Schema.complete_orEmptyMap]
        exact hstop
      exact (hsection _ hnode .undefined hundefined).of_step (habsent hnone)

end Schema

namespace Range

variable {range : Range} {path : Path} {v : Value} {violation : Violation}

/-- The violation of a sequence points into it, if those of its elements point into them. -/
theorem pointsInto_of_completeSequence {checks : List Value → List ValueCheck} (hv : v.WellFormed)
    (h : completeSequence range checks path v = .error violation)
    (hchecks : ∀ elements, ∀ check ∈ checks elements, ∀ {path v violation}, v.WellFormed →
      check path v = .error violation → violation.PointsInto path v) :
    violation.PointsInto path v := by
  rcases completeSequence_eq_error h with rfl | ⟨elements, helements, hstop⟩
  · exact Violation.pointsInto_self (some range) path v
  · obtain ⟨j, check, x, hcheck, hx, hrejected, -⟩ := completeEach_eq_error hstop
    rw [Nat.zero_add] at hrejected
    have hwell : x.WellFormed := hv.elements helements (List.mem_of_getElem? hx)
    exact (hchecks elements check (List.mem_of_getElem? hcheck) hwell hrejected).of_step
      (Value.step?_position helements hx)

/-- Ranges that check what they are given, and not something else in its place. -/
inductive IsDirect : Range → Prop
  | any (default : Value) : IsDirect (.any default)
  | nonNil : IsDirect .nonNil
  | predicate (description : String) (accepts : Value → Bool) (default : Value) :
    IsDirect (.predicate description accepts default)
  | choice (candidates : List Value) (default : Value) (fits : Value → Value → Bool) :
    IsDirect (.choice candidates default fits)
  | mapped {range : Range} (description : String) (h : IsDirect range)
    {f : Value → Except Rejection Value} (hf : ∀ w, ∃ x, f w = .ok x) :
    IsDirect (.mapped description range f)
  | optional {range : Range} (h : IsDirect range) : IsDirect (.optional range)
  | anyOf {ranges : List Range} (h : ∀ range ∈ ranges, IsDirect range) : IsDirect (.anyOf ranges)
  | sequence {range : Range} (h : IsDirect range) : IsDirect (.sequence range)
  | set {range : Range} (h : IsDirect range) : IsDirect (.set range)
  | tuple {ranges : List Range} (h : ∀ range ∈ ranges, IsDirect range) : IsDirect (.tuple ranges)
  | schema {schema : Schema}
    (h : ∀ inner ∈ schema.nested, ∀ s ∈ inner.settings, IsDirect s.range) :
    IsDirect (.schema schema)

/-- **A violation points at the offending value.** The path of a violation goes on from the path at
which the value was checked, and the rest of it leads from that value to the one that the violation
names. -/
theorem violation_pointsInto (h : range.IsDirect) (hv : v.WellFormed)
    (hrejected : range.complete path v = .error violation) : violation.PointsInto path v := by
  induction h generalizing path v violation with
  | any default => cases hrejected
  | nonNil =>
    obtain rfl := complete_nonNil_eq_error hrejected
    exact Violation.pointsInto_self _ path v
  | predicate description accepts default =>
    obtain rfl := complete_predicate_eq_error hrejected
    exact Violation.pointsInto_self _ path v
  | choice candidates default fits =>
    obtain rfl := complete_choice_eq_error hrejected
    exact Violation.pointsInto_self _ path v
  | mapped description h hf ih =>
    rcases bind_eq_error_iff.1 hrejected with hstop | ⟨w, -, hstop⟩
    · exact ih hv hstop
    · -- the function rejects nothing
      obtain ⟨x, hx⟩ := hf w
      rw [hx] at hstop
      cases hstop
  | optional h ih =>
    unfold complete at hrejected
    split at hrejected
    · cases hrejected
    · exact ih hv hrejected
  | anyOf h ih =>
    obtain rfl := complete_anyOf_eq_error hrejected
    exact Violation.pointsInto_self _ path v
  | sequence h ih =>
    refine pointsInto_of_completeSequence hv (map_eq_error_iff.1 hrejected)
      fun elements check hcheck => ?_
    obtain rfl := List.eq_of_mem_replicate hcheck
    exact ih
  | set h ih =>
    refine pointsInto_of_completeSequence hv (map_eq_error_iff.1 hrejected)
      fun elements check hcheck => ?_
    obtain rfl := List.eq_of_mem_replicate hcheck
    exact ih
  | tuple h ih =>
    refine pointsInto_of_completeSequence hv (map_eq_error_iff.1 hrejected)
      fun elements check hcheck => ?_
    rw [Range.checks_eq_map] at hcheck
    obtain ⟨range, hrange, rfl⟩ := List.mem_map.1 hcheck
    exact ih range hrange
  | schema h ih =>
    exact Schema.pointsInto_of_complete ih hv (map_eq_error_iff.1 hrejected)

/-- A sample range of the parcels of a load: each has a label, and a seal with a code. -/
def sampleParcels : Range :=
  .set (.schema ⟨"parcel", [⟨"label", "where to", .optional (string .null), true⟩],
    [⟨"seal", ⟨"seal", [⟨"code", "code of the seal", .nonNil, false⟩], []⟩, false⟩]⟩)

/-- Two parcels, the second of which has no seal. -/
def sampleLoadedParcels : Value :=
  .set .anonymous [.ofEntries [("seal", .ofEntries [("code", .text "x1")])],
    .ofEntries [("label", .text "north")]]

/-- What is missing from the second parcel is the code of its seal. -/
theorem pointsInto_sampleParcels :
    sampleParcels.complete [.key "parcels"] sampleLoadedParcels =
        .error ⟨some .nonNil,
          [.key "parcels", .position (.ofNat 1), .key "seal", .key "code"], .undefined⟩ ∧
      sampleLoadedParcels.found? [.position (.ofNat 1), .key "seal", .key "code"] =
        some .undefined := by
  have hdirect : sampleParcels.IsDirect := by
    refine .set (.schema fun inner hinner s hs => ?_)
    simp only [Schema.nested, Section.allNested, List.append_nil, List.mem_cons,
      List.not_mem_nil, or_false] at hinner
    rcases hinner with rfl | rfl
    · obtain rfl := List.mem_singleton.1 hs
      exact .optional (.predicate _ _ _)
    · obtain rfl := List.mem_singleton.1 hs
      exact .nonNil
  have hparcels : sampleLoadedParcels.WellFormed := by
    refine .set (by simp +decide) ?_
    simp +decide [Value.wellFormed_ofEntries_iff, Value.WellFormed.text]
  have hrejected : sampleParcels.complete [.key "parcels"] sampleLoadedParcels =
      .error ⟨some .nonNil,
        [.key "parcels", .position (.ofNat 1), .key "seal", .key "code"], .undefined⟩ := rfl
  refine ⟨hrejected, ?_⟩
  obtain ⟨rest, hpath, hfound⟩ := violation_pointsInto hdirect hparcels hrejected
  obtain rfl : _ = rest := (List.cons.inj hpath).2
  exact hfound

end Range

end LayeredConfig
