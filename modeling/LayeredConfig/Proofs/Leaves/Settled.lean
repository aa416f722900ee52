import LayeredConfig.Proofs.Leaves.Refusal

/-!
# Folding settled values

Completing changes a value: a set is listed, a list made a set, nil filled in, a tuple cut short.
The ranges of this module come to rest after that. What they have completed they complete to
itself, and a fold over it shows the leaves that were shown before.

- `Range.IsSettling`: the ranges built from the plain and the named scalar ranges and the choices
  among candidates by options, defaults, lists, sets and tuples.
- `Range.Settles`: what is asked of such a range, so that the ranges built from it settle, too. A
  set may drop the sign of a zero, and a choice puts it back. So a member need not be kept as it is
  stored; it is completed to a value that is stored in the same way (`Range.KeepsStored`).
- `Range.complete_fold_settled`: completed values are fixed points of completing and folding.
-/

namespace LayeredConfig

namespace Value

/-- What a set or a table knows a value by tells whether it is nil. -/
theorem isNil_congr {v w : Value} (h : v.memberKey? = w.memberKey?) : v.isNil = w.isNil := by
  have hkey : ∀ x : Value,
      x.isNil = true ↔ x.memberKey? = some .undefined ∨ x.memberKey? = some .null := by
    intro x
    cases x with
    | list i _ | object i _ _ | map i _ | set i _ | date i _ | foreign i _ _ =>
      cases i <;> simp [isNil, memberKey?, Identity.memberKey?]
    | _ => simp [isNil, memberKey?]
  rw [Bool.eq_iff_iff, hkey, hkey, h]

/-- A candidate is compared with what a set or a table knows the value by. -/
theorem strictEqual_congr {v w : Value} (h : v.memberKey? = w.memberKey?) (candidate : Value) :
    candidate.strictEqual v = candidate.strictEqual w := by
  unfold strictEqual
  split
  · rfl
  · simp only [sameMember, h]

@[simp] theorem isNil_asMember (v : Value) : v.asMember.isNil = v.isNil :=
  isNil_congr (memberKey?_asMember v)

/-- Nil is stored as it is. -/
theorem asMember_of_isNil {v : Value} (h : v.isNil = true) : v.asMember = v := by
  rcases isNil_iff.1 h with rfl | rfl <;> rfl

end Value

/-! ## Elements -/

section Loops

variable {path : Path} {check : ValueCheck} {ranges : List Range} {i : Nat} {vs ws : List Value}

theorem length_of_completeEach_uniformly
    (h : completeEach path (uniformly check vs) i vs = .ok ws) : ws.length = vs.length := by
  rw [length_of_completeEach h, uniformly, List.length_replicate, Nat.min_self]

/-- Where one check completes every element to one that is stored in the same way, the sequence is
completed to one that makes up the same set. -/
theorem completeEach_uniformly_stored (path : Path) (i : Nat)
    (h : ∀ v ∈ vs, ∀ path, ∃ w, check path v = .ok w ∧ w.asMember = v.asMember) :
    ∃ ws, completeEach path (uniformly check vs) i vs = .ok ws ∧
      ws.map Value.asMember = vs.map Value.asMember := by
  induction vs generalizing i with
  | nil => exact ⟨[], rfl, rfl⟩
  | cons v rest ih =>
    obtain ⟨w, hw, hstored⟩ := h v List.mem_cons_self (path.element i)
    obtain ⟨ws, hws, hmap⟩ := ih (i + 1) fun x hx => h x (List.mem_cons_of_mem v hx)
    refine ⟨w :: ws, bind_eq_ok_iff.2 ⟨w, hw, bind_eq_ok_iff.2 ⟨ws, hws, rfl⟩⟩, ?_⟩
    rw [List.map_cons, List.map_cons, hstored, hmap]

/-- Where each range shows the same leaves once it has completed an element, so do all of them. -/
theorem elementLeaves_of_completeEach
    (h : completeEach path (ranges.map Range.complete) i vs = .ok ws)
    (hleaves : ∀ range ∈ ranges, ∀ path v w, range.complete path v = .ok w →
      range.leaves path w = range.leaves path v) :
    elementLeaves path (ranges.map Range.leaves) i ws =
      elementLeaves path (ranges.map Range.leaves) i vs := by
  induction ranges generalizing i vs ws with
  | nil => rfl
  | cons range rest ih =>
    cases vs with
    | nil =>
      cases h
      rfl
    | cons v vs =>
      obtain ⟨w, hw, h⟩ := bind_eq_ok_iff.1 h
      obtain ⟨later, hlater, h⟩ := bind_eq_ok_iff.1 h
      cases h
      have hrest := ih hlater fun r hr => hleaves r (List.mem_cons_of_mem range hr)
      rw [List.map_cons, elementLeaves, elementLeaves,
        hleaves range List.mem_cons_self (path.element i) v w hw, hrest]

end Loops

namespace Range

/-! ## Settling ranges -/

/-- The ranges built from the plain and the named scalar ranges and from choices among candidates.
The default of a named range or of a choice is nil, or completed to itself. -/
inductive IsSettling : Range → Prop
  | any (default : Value) : IsSettling (.any default)
  | nonNil : IsSettling .nonNil
  | named {range : Value → Range} (isNamed : IsNamed range) {default : Value}
      (kept : default.isNil = true ∨ (range default).Keeps default) : IsSettling (range default)
  | oneOf (candidates : List Value) {default : Value}
      (kept : default.isNil = true ∨ (oneOf candidates default).Keeps default) :
      IsSettling (oneOf candidates default)
  | optional {range : Range} (h : IsSettling range) : IsSettling (.optional range)
  | optionalDefault {range : Range} (h : IsSettling range) (default : Value) :
      IsSettling (.optionalDefault range default)
  | sequence {range : Range} (h : IsSettling range) : IsSettling (.sequence range)
  | set {range : Range} (h : IsSettling range) : IsSettling (.set range)
  | tuple {ranges : List Range} (h : ∀ range ∈ ranges, IsSettling range) :
      IsSettling (.tuple ranges)

/-- The value, as a set stores it, is completed to one that the set stores in the same way. -/
def KeepsStored (range : Range) (w : Value) : Prop :=
  ∀ path, ∃ x, range.complete path w.asMember = .ok x ∧ x.asMember = w.asMember

/-- The range comes to rest after one completion, and shows the same leaves from then on. -/
structure Settles (range : Range) : Prop where
  /-- Only nil is completed to nil, and then the path does not matter. -/
  nil : ∀ {path v w}, range.complete path v = .ok w → w.isNil = true →
    v.isNil = true ∧ ∀ path', range.complete path' v = .ok w
  kept : ∀ {path v w}, range.complete path v = .ok w → range.Keeps w
  stored : ∀ {path v w}, range.complete path v = .ok w → range.KeepsStored w
  leaves : ∀ {path v w}, range.complete path v = .ok w → range.leaves path w = range.leaves path v

section Combinators

variable {range : Range} {ranges : List Range} {candidates : List Value} {path : Path}
  {v w default : Value}

theorem Keeps.keepsStored (h : range.Keeps w) (hstored : w.asMember = w) :
    range.KeepsStored w := by
  intro path
  rw [hstored]
  exact ⟨w, h path, hstored⟩

/-! ## Scalar ranges -/

theorem completeForFold_of_complete (h : range.complete path v = .ok w) :
    completeForFold range path v = .ok w :=
  mapError_eq_ok_iff.2 h

/-- A value and its completion are the same leaf, if the completion is kept. -/
theorem scalarLeaf_of_kept (hv : range.complete path v = .ok w) (hw : range.Keeps w) :
    scalarLeaf range path w = scalarLeaf range path v := by
  rw [scalarLeaf, scalarLeaf, completeForFold_of_complete hv, completeForFold_of_complete (hw path)]

/-- A standard range that has its values as leaves settles. -/
theorem IsStandard.settles (h : range.IsStandard) (hscalar : range.leaves = scalarLeaf range) :
    range.Settles := by
  have hkept : ∀ {path v w}, range.complete path v = .ok w → range.Keeps w :=
    fun hv => h.keeps_rebuilt Value.rebuilds_id hv
  refine ⟨h.of_isNil, hkept, fun {path v w} hv path' => ?_, fun hv => ?_⟩
  · exact ⟨w.asMember, h.keeps_asMember (hkept hv) path', Value.asMember_asMember w⟩
  · rw [hscalar]
    exact scalarLeaf_of_kept hv (hkept hv)

theorem complete_oneOf_iff :
    (oneOf candidates default).complete path v = .ok w ↔
      v.isNil = true ∧ w = default ∨
        v.isNil = false ∧ candidates.find? (·.strictEqual v) = some w := by
  unfold oneOf complete
  cases v.isNil with
  | true => simp [@eq_comm _ w]
  | false => cases candidates.find? (·.strictEqual v) <;> simp

/-- The candidate that stands for a value is known by what the value is known by. -/
theorem memberKey?_of_find? (h : candidates.find? (·.strictEqual v) = some w) :
    w.memberKey? = v.memberKey? := by
  have hfits := List.find?_some h
  obtain ⟨key, hw, hv⟩ := Value.sameMember_iff.1 (Value.sameMember_of_strictEqual hfits)
  rw [hw, hv]

/-- A choice completes in the same way what sets and tables do not tell apart. -/
theorem complete_oneOf_congr {u : Value} (h : u.memberKey? = v.memberKey?)
    (hv : (oneOf candidates default).complete path v = .ok w) (path' : Path) :
    (oneOf candidates default).complete path' u = .ok w := by
  rw [complete_oneOf_iff] at hv ⊢
  simp only [Value.isNil_congr h, Value.strictEqual_congr h]
  exact hv

theorem settles_oneOf (hdefault : default.isNil = true ∨ (oneOf candidates default).Keeps default) :
    (oneOf candidates default).Settles := by
  have hkept : ∀ {path v w}, (oneOf candidates default).complete path v = .ok w →
      (oneOf candidates default).Keeps w := by
    intro path v w hv path'
    rcases complete_oneOf_iff.1 hv with ⟨-, rfl⟩ | ⟨-, hfound⟩
    · rcases hdefault with hnil | hdefault
      · exact complete_oneOf_iff.2 (.inl ⟨hnil, rfl⟩)
      · exact hdefault path'
    · exact complete_oneOf_congr (memberKey?_of_find? hfound) hv path'
  refine ⟨fun {path v w} hv hw => ⟨?_, complete_oneOf_congr rfl hv⟩, hkept, ?_, fun hv => ?_⟩
  · rcases complete_oneOf_iff.1 hv with ⟨hnil, -⟩ | ⟨-, hfound⟩
    · exact hnil
    · rw [← Value.isNil_congr (memberKey?_of_find? hfound)]
      exact hw
  · intro path v w hv path'
    exact ⟨w, complete_oneOf_congr (Value.memberKey?_asMember w) (hkept hv path) path', rfl⟩
  · exact scalarLeaf_of_kept hv (hkept hv)

/-! ## Options and defaults -/

/-- What is given is completed to something. -/
theorem Settles.given (h : range.Settles) (hv : range.complete path v = .ok w)
    (hgiven : v.isNil = false) : w.isNil = false := by
  rw [Bool.eq_false_iff]
  intro hw
  rw [(h.nil hv hw).1] at hgiven
  cases hgiven

theorem Settles.optional (h : range.Settles) : (optional range).Settles where
  nil := by
    intro path v w hv hw
    rcases complete_optional_iff.1 hv with ⟨hnil, rfl⟩ | ⟨hgiven, hv⟩
    · exact ⟨hnil, fun _ => complete_optional_iff.2 (.inl ⟨hnil, rfl⟩)⟩
    · rw [h.given hv hgiven] at hw
      cases hw
  kept := by
    intro path v w hv
    rcases complete_optional_iff.1 hv with ⟨-, rfl⟩ | ⟨hgiven, hv⟩
    · exact keeps_optional (fun _ => rfl) fun hnil => by cases hnil
    · refine keeps_optional (fun hw => ?_) fun _ => h.kept hv
      rw [h.given hv hgiven] at hw
      cases hw
  stored := by
    intro path v w hv path'
    rcases complete_optional_iff.1 hv with ⟨-, rfl⟩ | ⟨hgiven, hv⟩
    · exact ⟨.undefined, rfl, rfl⟩
    · obtain ⟨x, hx, hstored⟩ := h.stored hv path'
      have hw : w.asMember.isNil = false := (Value.isNil_asMember w).trans (h.given hv hgiven)
      exact ⟨x, complete_optional_iff.2 (.inr ⟨hw, hx⟩), hstored⟩
  leaves := by
    intro path v w hv
    rcases complete_optional_iff.1 hv with ⟨hnil, rfl⟩ | ⟨hgiven, hv⟩
    · simp only [Range.leaves, hnil]
      rfl
    · simp only [Range.leaves, hgiven, h.given hv hgiven]
      exact h.leaves hv

/-- Where a default is completed to nil, nothing was given and the default says nothing, either. -/
theorem Settles.nil_of_optionalDefault (h : range.Settles)
    (hv : (optionalDefault range default).complete path v = .ok w) (hw : w.isNil = true) :
    v.isNil = true ∧ default.isNil = true ∧ ∀ path', range.complete path' default = .ok w := by
  have hread : range.complete path (if v.isNil then default else v) = .ok w := hv
  obtain ⟨hnil, hpaths⟩ := h.nil hread hw
  cases hgiven : v.isNil with
  | true =>
    rw [hgiven] at hnil hpaths
    exact ⟨rfl, hnil, hpaths⟩
  | false =>
    rw [hgiven, if_neg Bool.false_ne_true, hgiven] at hnil
    cases hnil

theorem complete_optionalDefault_of_given (hgiven : v.isNil = false) :
    (optionalDefault range default).complete path v = range.complete path v := by
  rw [complete, hgiven]
  rfl

theorem Settles.keeps_optionalDefault (h : range.Settles)
    (hv : (optionalDefault range default).complete path v = .ok w) :
    (optionalDefault range default).Keeps w := by
  intro path'
  cases hw : w.isNil with
  | true =>
    -- the default was completed to nil, and is so again
    obtain ⟨-, -, hpaths⟩ := h.nil_of_optionalDefault hv hw
    rw [complete, hw]
    exact hpaths path'
  | false =>
    rw [complete_optionalDefault_of_given hw]
    exact h.kept hv path'

theorem Settles.optionalDefault (h : range.Settles) (default : Value) :
    (optionalDefault range default).Settles where
  nil := by
    intro path v w hv hw
    obtain ⟨hnil, -, hpaths⟩ := h.nil_of_optionalDefault hv hw
    refine ⟨hnil, fun path' => ?_⟩
    rw [complete, hnil]
    exact hpaths path'
  kept := h.keeps_optionalDefault
  stored := by
    intro path v w hv path'
    cases hw : w.isNil with
    | true => exact (h.keeps_optionalDefault hv).keepsStored (Value.asMember_of_isNil hw) path'
    | false =>
      rw [complete_optionalDefault_of_given ((Value.isNil_asMember w).trans hw)]
      exact h.stored hv path'
  leaves := by
    intro path v w hv
    cases hw : w.isNil with
    | true =>
      obtain ⟨hnil, -, -⟩ := h.nil_of_optionalDefault hv hw
      simp only [Range.leaves, hnil, hw, if_true]
    | false =>
      simp only [Range.leaves, hw]
      exact h.leaves hv

/-! ## Lists, sets and tuples -/

/-- The leaves of a sequence are those of the elements that are given. -/
theorem leaves_sequence_eq (h : (sequence range).complete path v = .ok w) :
    (sequence range).leaves path v =
      elementLeaves path ((List.replicate (v.elements?.getD []).length range).map Range.leaves) 0
        (v.elements?.getD []) := by
  rw [Range.leaves, completeForFold_of_complete h, List.map_replicate]
  rfl

theorem leaves_tuple_eq (h : (tuple ranges).complete path v = .ok w) :
    (tuple ranges).leaves path v =
      elementLeaves path (ranges.map Range.leaves) 0 (v.elements?.getD []) := by
  rw [Range.leaves, completeForFold_of_complete h, visits_eq_map]
  rfl

/-- A range that completes to lists and sets settles, if it keeps them and shows the same leaves. -/
theorem settles_of_containers
    (hcontainer : ∀ {path v w}, range.complete path v = .ok w →
      ∃ ws, w = .ofList ws ∨ w = .setOf ws)
    (hkept : ∀ {path v w}, range.complete path v = .ok w → range.Keeps w)
    (hleaves : ∀ {path v w}, range.complete path v = .ok w →
      range.leaves path w = range.leaves path v) : range.Settles where
  nil := by
    intro path v w hv hw
    obtain ⟨ws, rfl | rfl⟩ := hcontainer hv <;> cases hw
  kept := hkept
  stored := by
    intro path v w hv
    obtain ⟨ws, rfl | rfl⟩ := hcontainer hv <;> exact (hkept hv).keepsStored rfl
  leaves := hleaves

theorem Settles.sequence (h : range.Settles) : (sequence range).Settles := by
  have hkept : ∀ {path v w}, (Range.sequence range).complete path v = .ok w →
      (Range.sequence range).Keeps w := by
    intro path v w hv
    obtain ⟨ws, rfl, hws⟩ := of_complete_sequence hv
    refine keeps_sequence fun x hx => ?_
    obtain ⟨path, y, hy⟩ := hws x hx
    exact h.kept hy
  refine settles_of_containers (fun hv => ?_) hkept fun {path v w} hv => ?_
  · obtain ⟨ws, rfl, -⟩ := of_complete_sequence hv
    exact ⟨ws, .inl rfl⟩
  · rw [leaves_sequence_eq hv, leaves_sequence_eq (hkept hv path)]
    obtain ⟨ws, hws, rfl⟩ := map_eq_ok_iff.1 hv
    have heach := completeEach_of_completeSequence hws
    have hlength := length_of_completeEach_uniformly heach
    rw [uniformly, ← List.map_replicate] at heach
    rw [Value.elements?_ofList, Option.getD_some, hlength]
    refine elementLeaves_of_completeEach heach fun range' hrange path v w hw => ?_
    rw [List.eq_of_mem_replicate hrange] at hw ⊢
    exact h.leaves hw

theorem Settles.set (h : range.Settles) : (set range).Settles := by
  have hkept : ∀ {path v w}, (Range.set range).complete path v = .ok w →
      (Range.set range).Keeps w := by
    intro path v w hv path'
    obtain ⟨ws, rfl, hws⟩ := of_complete_set hv
    obtain ⟨xs, hxs, hmap⟩ : ∃ xs,
        completeEach path' (uniformly range.complete (Value.distinctMembers ws)) 0
            (Value.distinctMembers ws) = .ok xs ∧
          xs.map Value.asMember = (Value.distinctMembers ws).map Value.asMember := by
      refine completeEach_uniformly_stored path' 0 fun m hm path => ?_
      obtain ⟨x, hx, rfl⟩ := Value.mem_distinctMembers hm
      obtain ⟨place, y, hy⟩ := hws x hx
      rw [Value.asMember_asMember]
      exact h.stored hy path
    refine map_eq_ok_iff.2 ⟨xs, hxs, ?_⟩
    rw [Value.setOf, ← Value.distinctMembers_map_asMember, hmap,
      Value.distinctMembers_map_asMember, Value.distinctMembers_distinctMembers, Value.setOf]
  refine settles_of_containers (fun hv => ?_) hkept fun {path v w} hv => ?_
  · obtain ⟨ws, rfl, -⟩ := of_complete_set hv
    exact ⟨ws, .inr rfl⟩
  · -- a set is folded over its completed members, which are the same both times
    rw [Range.leaves, Range.leaves, completeForFold_of_complete hv,
      completeForFold_of_complete (hkept hv path)]

theorem settles_tuple (h : ∀ range ∈ ranges, range.Settles) : (tuple ranges).Settles := by
  have hkept : ∀ {path v w}, (tuple ranges).complete path v = .ok w →
      (tuple ranges).Keeps w := by
    intro path v w hv
    obtain ⟨ws, rfl, vs, hws⟩ := of_complete_tuple hv
    refine keeps_tuple fun path' => ?_
    rw [← List.map_id ws]
    refine completeEach_map hws (fun check hcheck path v w hw path' => ?_) path' 0
    obtain ⟨range, hrange, rfl⟩ := List.mem_map.1 hcheck
    exact (h range hrange).kept hw path'
  refine settles_of_containers (fun hv => ?_) hkept fun {path v w} hv => ?_
  · obtain ⟨ws, rfl, -⟩ := of_complete_tuple hv
    exact ⟨ws, .inl rfl⟩
  · rw [leaves_tuple_eq hv, leaves_tuple_eq (hkept hv path)]
    obtain ⟨ws, hws, rfl⟩ := map_eq_ok_iff.1 hv
    have heach := completeEach_of_completeSequence hws
    rw [checks_eq_map] at heach
    exact elementLeaves_of_completeEach heach fun range hrange path v w hw =>
      (h range hrange).leaves hw

end Combinators

/-! ## Fixed points -/

section FixedPoints

variable {range : Range} {path : Path} {v w : Value}

/-- **Settling ranges settle.** -/
theorem IsSettling.settles (h : range.IsSettling) : range.Settles := by
  induction h with
  | any default => exact (IsStandard.any default).settles rfl
  | nonNil => exact IsStandard.nonNil.settles rfl
  | named isNamed kept =>
    have hstandard := IsStandard.named isNamed (kept.imp_right fun hkept => ⟨_, hkept []⟩)
    exact hstandard.settles (by cases isNamed <;> rfl)
  | oneOf candidates kept => exact settles_oneOf kept
  | optional h ih => exact ih.optional
  | optionalDefault h default ih => exact ih.optionalDefault default
  | sequence h ih => exact ih.sequence
  | set h ih => exact ih.set
  | tuple h ih => exact settles_tuple ih

/-- Settling ranges can be folded over whatever they accept, since they take back what they have
completed. -/
theorem IsSettling.isFoldable (h : range.IsSettling) : range.IsFoldable := by
  induction h with
  | any default => exact .any default
  | nonNil => exact .nonNil
  | named isNamed kept => cases isNamed <;> exact .predicate _ _ _
  | oneOf candidates kept => exact .choice candidates _ _
  | optional h ih => exact .optional ih
  | optionalDefault h default ih => exact .optionalDefault ih default
  | sequence h ih => exact .sequence ih
  | set h ih =>
    refine .set ih fun path v w hv path' => ?_
    obtain ⟨x, hx, -⟩ := h.settles.stored hv path'
    exact ⟨x, hx⟩
  | tuple h ih => exact .tuple ih

/-- **Completed values are fixed points,** of completing and of folding. The fold over a completed
value succeeds, as the fold over the raw one does, and shows the same leaves. -/
theorem complete_fold_settled (h : range.IsSettling) (hv : range.complete path v = .ok w) :
    range.complete path w = .ok w ∧
      ∀ {α : Type} (f : Range → Path → α → Value → α) (init : α),
        range.fold path f init w = range.fold path f init v ∧
          ∃ folded, range.fold path f init v = .ok folded := by
  refine ⟨h.settles.kept hv path, fun f init => ⟨?_, ?_⟩⟩
  · rw [fold, fold, h.settles.leaves hv]
  · obtain ⟨leaves, hleaves⟩ := h.isFoldable.hasLeaves hv
    exact ⟨_, map_eq_ok_iff.2 ⟨leaves, hleaves, rfl⟩⟩

/-- A sample range of trays: a set of signs, then numbers that may be left out, then a label. -/
def sampleTray : Range :=
  .tuple [.set (oneOf [.number .negativeZero, .number (.ofNat 1)] .null),
    .sequence (.optional (integer (.number (.ofNat 0)))),
    .optionalDefault (string (.text "")) (.text "plain")]

/-- The sample tray, given as a set of four: its signs are listed twice, its numbers come as a set,
no label is given, and the last part is cut off. -/
theorem complete_fold_sampleTray :
    sampleTray.complete [] (.set .anonymous
        [.ofList [.number (.ofNat 0), .number .negativeZero, .number (.ofNat 1),
          .number (.ofNat 1)],
        .setOf [.null, .number (.ofNat 7)], .null, .text "cut off"]) =
      .ok (.ofList [.setOf [.number (.ofNat 0), .number (.ofNat 1)],
        .ofList [.undefined, .number (.ofNat 7)], .text "plain"]) ∧
    sampleTray.complete [] (.ofList [.setOf [.number (.ofNat 0), .number (.ofNat 1)],
        .ofList [.undefined, .number (.ofNat 7)], .text "plain"]) =
      .ok (.ofList [.setOf [.number (.ofNat 0), .number (.ofNat 1)],
        .ofList [.undefined, .number (.ofNat 7)], .text "plain"]) ∧
    sampleTray.fold [] countLeaf 0 (.ofList [.setOf [.number (.ofNat 0), .number (.ofNat 1)],
        .ofList [.undefined, .number (.ofNat 7)], .text "plain"]) = .ok 5 := by
  have htray : sampleTray.IsSettling := by
    refine .tuple fun range hrange => ?_
    simp only [List.mem_cons, List.not_mem_nil, or_false] at hrange
    rcases hrange with rfl | rfl | rfl
    · exact .set (.oneOf _ (.inl rfl))
    · exact .sequence (.optional (.named .integer (.inr fun _ => rfl)))
    · exact .optionalDefault (.named .string (.inr fun _ => rfl)) _
  have hcomplete : sampleTray.complete [] (.set .anonymous
        [.ofList [.number (.ofNat 0), .number .negativeZero, .number (.ofNat 1),
          .number (.ofNat 1)],
        .setOf [.null, .number (.ofNat 7)], .null, .text "cut off"]) =
      .ok (.ofList [.setOf [.number (.ofNat 0), .number (.ofNat 1)],
        .ofList [.undefined, .number (.ofNat 7)], .text "plain"]) := rfl
  obtain ⟨hkept, hfold⟩ := complete_fold_settled htray hcomplete
  exact ⟨hcomplete, hkept, (hfold countLeaf 0).1⟩

end FixedPoints

end Range

end LayeredConfig
