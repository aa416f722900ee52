import LayeredConfig.Proofs.Completion.Relocation
import LayeredConfig.Proofs.Leaves.Mirrors

/-!
# Folding in another place

A fold at `outer ++ path` visits what the fold at `path` visits, in the same order, with `outer`
in front of the path of each leaf; and it is refused where that one is. Together with what
`LayeredConfig.Proofs.Completion.Relocation` says of completing, this makes up
`Range.complete_fold_under`.

- `Leaf.under`, `Fault.under`, `leavesUnder`: leaves, and the refusal of a fold, as they are seen
  from further out.
- `Visit.Relative`, `LevelVisit.Relative`: the visits of which this holds. What is inherited does
  not tell of places, so the leaves of an inherited section are found in the place where it stands
  in.
-/

namespace LayeredConfig

/-- The leaf, seen from further out. -/
def Leaf.under (outer : Path) (leaf : Leaf) : Leaf := { leaf with path := outer ++ leaf.path }

/-- The refusal of a fold, seen from further out. Other faults do not arise where leaves are
collected. -/
def Fault.under (outer : Path) : Fault → Fault
  | .cannotFold range path culprit value =>
    .cannotFold range (outer ++ path) (outer ++ culprit) value
  | fault => fault

/-- Leaves, or the fault that arose in place of them, seen from further out. -/
def leavesUnder (outer : Path) (x : Except Fault (List Leaf)) : Except Fault (List Leaf) :=
  (x.map (List.map (·.under outer))).mapError (·.under outer)

/-- The visit finds the leaves that it finds in any other place. -/
def Visit.Relative (visit : Visit) : Prop :=
  ∀ outer path v, visit (outer ++ path) v = leavesUnder outer (visit path v)

/-- The visit finds the leaves that it finds in any other place, whatever is inherited. -/
def LevelVisit.Relative (visit : LevelVisit) : Prop :=
  ∀ bequests outer path v,
    visit bequests (outer ++ path) v = leavesUnder outer (visit bequests path v)

/-! ## Steps -/

section Steps

variable {outer path : Path}

theorem leavesUnder_pure (leaves : List Leaf) :
    leavesUnder outer (pure leaves) = pure (leaves.map (·.under outer)) := rfl

/-- Collecting here and then later. -/
theorem leavesUnder_bind_append (x : Except Fault (List Leaf)) (here : List Leaf) :
    leavesUnder outer (x >>= fun later => pure (here ++ later)) =
      leavesUnder outer x >>= fun later => pure (here.map (·.under outer) ++ later) := by
  cases x with
  | error fault => rfl
  | ok later =>
    show leavesUnder outer (pure (here ++ later)) = _
    rw [leavesUnder_pure, List.map_append]
    rfl

/-- Going on with the leaves that were found. -/
theorem leavesUnder_bind (x : Except Fault (List Leaf))
    {k k' : List Leaf → Except Fault (List Leaf)}
    (h : ∀ leaves, leavesUnder outer (k leaves) = k' (leaves.map (·.under outer))) :
    (leavesUnder outer x >>= k') = leavesUnder outer (x >>= k) := by
  cases x with
  | error fault => rfl
  | ok leaves => exact (h leaves).symm

/-- Completing before the leaves are collected. -/
theorem leavesUnder_complete_bind {range : Range} (h : ValueCheck.Relative range.complete)
    (v : Value) {k k' : Value → Except Fault (List Leaf)}
    (hk : ∀ w, k' w = leavesUnder outer (k w)) :
    (completeForFold range (outer ++ path) v >>= k') =
      leavesUnder outer (completeForFold range path v >>= k) := by
  unfold completeForFold
  rw [h outer path v]
  cases range.complete path v with
  | error violation => rfl
  | ok w => exact hk w

end Steps

/-! ## The loops of collecting leaves -/

section Loops

variable {visits : List Visit} {key value : Visit} {settings : List (Slot Visit)}
  {sections : List (Slot LevelVisit)}

theorem elementLeaves_under (h : ∀ visit ∈ visits, Visit.Relative visit) (outer path : Path)
    (i : Nat) (vs : List Value) :
    elementLeaves (outer ++ path) visits i vs =
      leavesUnder outer (elementLeaves path visits i vs) := by
  induction visits generalizing i vs with
  | nil => rfl
  | cons visit rest ih =>
    cases vs with
    | nil => rfl
    | cons v vs =>
      have hrest := ih (fun visit' hv => h visit' (List.mem_cons_of_mem visit hv)) (i + 1) vs
      rw [elementLeaves, elementLeaves, Path.element_under, h visit List.mem_cons_self, hrest]
      exact leavesUnder_bind _ fun here => leavesUnder_bind_append _ here

theorem pairLeaves_under (hkey : key.Relative) (hvalue : value.Relative) (outer path : Path)
    (ps : List (Value × Value)) :
    pairLeaves key value (outer ++ path) ps = leavesUnder outer (pairLeaves key value path ps) := by
  induction ps with
  | nil => rfl
  | cons p rest ih =>
    rw [pairLeaves, pairLeaves, Path.pair_under, hkey, hvalue, ih]
    refine leavesUnder_bind _ fun ofKey => (leavesUnder_bind _ fun ofValue => ?_).symm
    rw [leavesUnder_bind_append, List.map_append]

theorem settingLeaves_under (h : ∀ slot ∈ settings, slot.run.Relative) (given : Entries Value)
    (inherited : Bequests) (outer path : Path) :
    settingLeaves given inherited (outer ++ path) settings =
      leavesUnder outer (settingLeaves given inherited path settings) := by
  induction settings with
  | nil => rfl
  | cons slot rest ih =>
    have hrest := ih fun slot' hslot => h slot' (List.mem_cons_of_mem slot hslot)
    rw [settingLeaves, settingLeaves, Path.entry_under, h slot List.mem_cons_self, hrest]
    exact leavesUnder_bind _ fun here => leavesUnder_bind_append _ here

theorem sectionLeaves_under (h : ∀ slot ∈ sections, slot.run.Relative)
    (present inherited : Bequests) (outer path : Path) :
    sectionLeaves present inherited (outer ++ path) sections =
      leavesUnder outer (sectionLeaves present inherited path sections) := by
  induction sections with
  | nil => rfl
  | cons slot rest ih =>
    have hrest := ih fun slot' hslot => h slot' (List.mem_cons_of_mem slot hslot)
    simp only [sectionLeaves]
    rw [Path.entry_under, h slot List.mem_cons_self, hrest]
    exact leavesUnder_bind _ fun here => leavesUnder_bind_append _ here

/-- **A level of relative visits is relative.** -/
theorem levelLeaves_relative (hsettings : ∀ slot ∈ settings, slot.run.Relative)
    (hsections : ∀ slot ∈ sections, slot.run.Relative) :
    LevelVisit.Relative (levelLeaves settings sections) := by
  intro bequests outer path v
  simp only [levelLeaves]
  rw [settingLeaves_under hsettings, sectionLeaves_under hsections]
  exact leavesUnder_bind _ fun here => leavesUnder_bind_append _ here

end Loops

/-- The leaves of a schema are relative, if those of its settings are. -/
theorem Schema.leaves_relative {schema : Schema}
    (h : ∀ inner ∈ schema.nested, ∀ s ∈ inner.settings, Visit.Relative s.range.leaves) :
    LevelVisit.Relative schema.leaves := by
  induction schema using Schema.induction with
  | step schema ih =>
    rw [Schema.leaves_eq]
    refine levelLeaves_relative ?_ ?_
    · intro slot hslot
      obtain ⟨s, hs, rfl⟩ := List.mem_map.1 hslot
      rw [Setting.run_visit]
      exact h schema schema.self_mem_nested s hs
    · intro slot hslot
      obtain ⟨node, hnode, rfl⟩ := List.mem_map.1 hslot
      rw [Section.run_visit]
      exact ih node hnode fun inner hinner => h inner (mem_nested_of_section hnode hinner)

namespace Range

variable {range : Range} {ranges : List Range}

theorem scalarLeaf_relative (h : ValueCheck.Relative range.complete) :
    Visit.Relative (scalarLeaf range) := by
  intro outer path v
  unfold scalarLeaf completeForFold
  rw [h outer path v]
  cases range.complete path v <;> rfl

theorem acceptedLeaves?_under (hcomplete : ∀ range ∈ ranges, ValueCheck.Relative range.complete)
    (hleaves : ∀ range ∈ ranges, Visit.Relative range.leaves) (outer path : Path) (v : Value) :
    acceptedLeaves? ranges (outer ++ path) v =
      (acceptedLeaves? ranges path v).map (leavesUnder outer) := by
  induction ranges with
  | nil => rfl
  | cons range rest ih =>
    have hrest := ih (fun r hr => hcomplete r (List.mem_cons_of_mem range hr))
      fun r hr => hleaves r (List.mem_cons_of_mem range hr)
    rw [acceptedLeaves?, acceptedLeaves?, hcomplete range List.mem_cons_self outer path v,
      hleaves range List.mem_cons_self outer path v, hrest]
    cases range.complete path v <;> rfl

/-- The leaves of the elements of a sequence, all by the same visit. -/
theorem replicate_relative (h : Visit.Relative range.leaves) (n : Nat) :
    ∀ visit ∈ List.replicate n range.leaves, Visit.Relative visit := by
  intro visit hvisit
  rw [List.eq_of_mem_replicate hvisit]
  exact h

/-- **Collecting leaves in another place.** The leaves that are found further in are the same, with
longer paths. -/
theorem IsRelative.leaves_under (h : range.IsRelative) : Visit.Relative range.leaves := by
  induction h with
  | any default => exact scalarLeaf_relative (IsRelative.any default).complete_under
  | nonNil => exact scalarLeaf_relative IsRelative.nonNil.complete_under
  | predicate description accepts default =>
    exact scalarLeaf_relative (IsRelative.predicate description accepts default).complete_under
  | scalar description hjudge =>
    exact scalarLeaf_relative (IsRelative.scalar description hjudge).complete_under
  | choice candidates default fits =>
    exact scalarLeaf_relative (IsRelative.choice candidates default fits).complete_under
  | mapped description h hf ih =>
    exact scalarLeaf_relative (h.mapped description hf).complete_under
  | optional h ih =>
    intro outer path v
    unfold leaves
    split
    · rfl
    · exact ih outer path v
  | optionalDefault h default ih =>
    intro outer path v
    exact ih outer path _
  | anyOf h ih =>
    intro outer path v
    unfold leaves
    rw [acceptedLeaves?_under (fun range hrange => (h range hrange).complete_under) ih]
    cases acceptedLeaves? _ path v <;> rfl
  | sequence h ih =>
    intro outer path v
    exact leavesUnder_complete_bind h.sequence.complete_under v fun _ =>
      elementLeaves_under (replicate_relative ih _) outer path 0 _
  | set h ih =>
    intro outer path v
    exact leavesUnder_complete_bind h.set.complete_under v fun w =>
      elementLeaves_under (replicate_relative ih _) outer path 0 _
  | tuple h ih =>
    intro outer path v
    refine leavesUnder_complete_bind (IsRelative.tuple h).complete_under v fun _ =>
      elementLeaves_under ?_ outer path 0 _
    rw [visits_eq_map, List.forall_mem_map]
    exact ih
  | mapOf hkey hvalue ihkey ihvalue =>
    intro outer path v
    exact leavesUnder_complete_bind (hkey.mapOf hvalue).complete_under v fun _ =>
      pairLeaves_under ihkey ihvalue outer path _
  | schema h ih =>
    intro outer path v
    exact leavesUnder_complete_bind (IsRelative.schema h).complete_under v fun _ =>
      Schema.leaves_relative ih [] outer path v

/-- **Checking in another place.** Completing further in comes to the same value, or to the same
violation with the longer path. A fold further in shows the same leaves to the function, with longer
paths, and is refused where the other is. -/
theorem complete_fold_under (h : range.IsRelative) (outer path : Path) (v : Value) :
    range.complete (outer ++ path) v = (range.complete path v).mapError (·.under outer) ∧
      ∀ {α : Type} (f : Range → Path → α → Value → α) (init : α),
        range.fold (outer ++ path) f init v =
          (range.fold path (fun part place acc w => f part (outer ++ place) acc w) init v).mapError
            (·.under outer) := by
  refine ⟨h.complete_under outer path v, fun f init => ?_⟩
  unfold fold
  rw [h.leaves_under outer path v]
  cases range.leaves path v with
  | error fault => rfl
  | ok leaves => exact congrArg Except.ok List.foldl_map

/-- A sample range of readings: a text. What is none is rejected for its unit. -/
def sampleReading : Range :=
  .scalar "reading" fun path v => match v with
    | .text s => .ok (.text s)
    | v => .error ⟨path.entry "unit", v, true⟩

/-- A sample schema of a station that hands its scale down to its probe, which keeps the readings of
each hour. -/
def sampleStation : Schema :=
  ⟨"station", [⟨"scale", "scale of the readings", string (.text "C"), true⟩],
    [⟨"probe", ⟨"probe", [⟨"scale", "scale of the readings", string (.text "C"), false⟩,
      ⟨"readings", "readings by hour", .mapOf (integer .null) (.sequence sampleReading), false⟩],
      []⟩, false⟩]⟩

/-- A station of scale K, with readings of the first hour. -/
def sampleStationMap (readings : List Value) : Value :=
  .ofEntries [("scale", .text "K"), ("probe", .ofEntries
    [("readings", .tableOf [(.number (.ofNat 1), .ofList readings)])])]

/-- Adds the path of a leaf to those seen so far. -/
def collectPath (_ : Range) (path : Path) (seen : List Path) (_ : Value) : List Path :=
  seen ++ [path]

/-- The sample station, as one of several: a number is rejected for its unit, and the leaves come
with the way to the station. -/
theorem complete_fold_sampleStation :
    (schema sampleStation).complete [.key "stations"] (sampleStationMap [.number (.ofNat 5)]) =
        .error ⟨some sampleReading,
          [.key "stations", .key "probe", .key "readings", .position (.ofNat 1),
            .position (.ofNat 0), .key "unit"], .number (.ofNat 5)⟩ ∧
      (schema sampleStation).fold [.key "stations"] collectPath []
          (sampleStationMap [.text "a", .text "b"]) =
        .ok [[.key "stations", .key "scale"], [.key "stations", .key "probe", .key "scale"],
          [.key "stations", .key "probe", .key "readings", .position (.ofNat 1)],
          [.key "stations", .key "probe", .key "readings", .position (.ofNat 1),
            .position (.ofNat 0)],
          [.key "stations", .key "probe", .key "readings", .position (.ofNat 1),
            .position (.ofNat 1)]] := by
  have hreading : sampleReading.IsRelative := by
    refine .scalar _ fun outer path v => ?_
    rw [Path.entry_under]
    cases v <;> rfl
  have hstation : (schema sampleStation).IsRelative := by
    refine .schema fun inner hinner s hs => ?_
    simp only [sampleStation, Schema.nested, Section.allNested, List.append_nil, List.mem_cons,
      List.not_mem_nil, or_false] at hinner
    rcases hinner with rfl | rfl
    · obtain rfl := List.mem_singleton.1 hs
      exact .predicate _ _ _
    · simp only [List.mem_cons, List.not_mem_nil, or_false] at hs
      rcases hs with rfl | rfl
      · exact .predicate _ _ _
      · exact .mapOf (.predicate _ _ _) (.sequence hreading)
  exact ⟨(complete_fold_under hstation [.key "stations"] [] _).1,
    (complete_fold_under hstation [.key "stations"] [] _).2 collectPath []⟩

end Range

end LayeredConfig
