import LayeredConfig.Proofs.Completion.Elements
import LayeredConfig.Proofs.Data.Canonical

/-!
# Settled values

What a standard range has answered once, it answers again: completed values, and copies of them,
are completed to themselves wherever they stand.

- `Range.IsStandard`: the ranges built from the plain and the named scalar ranges by options,
  defaults, lists, sets, tuples and tables.
- `Range.Keeps`: a value is completed to itself, at every path.
- `Range.IsStandard.keeps_asMember`: a kept value is kept in the form in which a set or a table
  stores it, so that sets and tables may drop the sign of zero.
- `Range.IsStandard.keeps_rebuilt`: a completed value is kept, and so is what comes of rebuilding
  the lists in it (`Value.Rebuilds`), as copying does.
-/

namespace LayeredConfig

/-! ## Rebuilding values -/

namespace Value

theorem isNested_of_isNil {v : Value} (h : v.isNil = true) : v.isNested = false := by
  rcases isNil_iff.1 h with rfl | rfl <;> rfl

/-- A way to rebuild values that goes through lists and leaves alone what is not nested. -/
structure Rebuilds (f : Value → Value) : Prop where
  flat : ∀ v, v.isNested = false → f v = v
  isNil : ∀ v, (f v).isNil = v.isNil
  list : ∀ vs, f (ofList vs) = ofList (vs.map f)

theorem Rebuilds.eq_self_of_isNil {f : Value → Value} (hf : Rebuilds f) {v : Value}
    (h : (f v).isNil = true) : f v = v := by
  rw [hf.isNil] at h
  exact hf.flat v (isNested_of_isNil h)

theorem rebuilds_id : Rebuilds id where
  flat _ _ := rfl
  isNil _ := rfl
  list vs := by rw [List.map_id]; rfl

theorem rebuilds_copy : Rebuilds copy where
  flat _ := copy_of_not_nested
  isNil := isNil_copy
  list := copy_ofList

end Value

/-! ## Elements and pairs -/

section Loops

variable {path : Path} {check key value : ValueCheck} {checks : List ValueCheck} {i : Nat}
  {v : Value} {vs ws : List Value} {ps qs : List (Value × Value)}

/-- Every completed element is the answer of one of the checks. -/
theorem exists_check_of_completeEach (h : completeEach path checks i vs = .ok ws) {w : Value}
    (hw : w ∈ ws) : ∃ check ∈ checks, ∃ path v, check path v = .ok w := by
  induction checks generalizing i vs ws with
  | nil =>
    cases h
    cases hw
  | cons check rest ih =>
    cases vs with
    | nil =>
      cases h
      cases hw
    | cons v vs =>
      obtain ⟨x, hx, h⟩ := bind_eq_ok_iff.1 h
      obtain ⟨xs, hxs, h⟩ := bind_eq_ok_iff.1 h
      cases h
      rcases List.mem_cons.1 hw with rfl | hw
      · exact ⟨check, List.mem_cons_self, _, v, hx⟩
      · obtain ⟨check', hmem, hanswer⟩ := ih hxs hw
        exact ⟨check', List.mem_cons_of_mem check hmem, hanswer⟩

/-- Where one check keeps every element, the sequence is kept. -/
theorem completeEach_uniformly (path : Path) (i : Nat)
    (h : ∀ w ∈ ws, ∀ path, check path w = .ok w) :
    completeEach path (uniformly check ws) i ws = .ok ws := by
  induction ws generalizing i with
  | nil => rfl
  | cons w rest ih =>
    have hrest := ih (i + 1) fun x hx => h x (List.mem_cons_of_mem w hx)
    exact bind_eq_ok_iff.2 ⟨w, h w List.mem_cons_self _, bind_eq_ok_iff.2 ⟨rest, hrest, rfl⟩⟩

/-- Where every check keeps what comes of its answers, so does the sequence of them. -/
theorem completeEach_map {f : Value → Value} (h : completeEach path checks i vs = .ok ws)
    (hchecks : ∀ check ∈ checks, ∀ path v w, check path v = .ok w →
      ∀ path', check path' (f w) = .ok (f w)) (path' : Path) (i' : Nat) :
    completeEach path' checks i' (ws.map f) = .ok (ws.map f) := by
  induction checks generalizing i i' vs ws with
  | nil =>
    cases h
    rfl
  | cons check rest ih =>
    cases vs with
    | nil =>
      cases h
      rfl
    | cons v vs =>
      obtain ⟨x, hx, h⟩ := bind_eq_ok_iff.1 h
      obtain ⟨xs, hxs, h⟩ := bind_eq_ok_iff.1 h
      cases h
      have hfirst := hchecks check List.mem_cons_self _ v x hx (path'.element i')
      have hrest := ih hxs (fun c hc => hchecks c (List.mem_cons_of_mem check hc)) (i' + 1)
      exact bind_eq_ok_iff.2 ⟨f x, hfirst, bind_eq_ok_iff.2 ⟨xs.map f, hrest, rfl⟩⟩

/-- Every key and every value of the completed pairs is an answer. -/
theorem of_completePairs (h : completePairs key value path ps = .ok qs) {q : Value × Value}
    (hq : q ∈ qs) : (∃ path k, key path k = .ok q.1) ∧ ∃ path v, value path v = .ok q.2 := by
  induction ps generalizing qs with
  | nil =>
    cases h
    cases hq
  | cons p rest ih =>
    obtain ⟨k', hk, h⟩ := bind_eq_ok_iff.1 h
    obtain ⟨v', hv, h⟩ := bind_eq_ok_iff.1 h
    obtain ⟨later, hlater, h⟩ := bind_eq_ok_iff.1 h
    cases h
    rcases List.mem_cons.1 hq with rfl | hq
    · exact ⟨⟨_, _, hk⟩, _, _, hv⟩
    · exact ih hlater hq

theorem completePairs_eq_self (path : Path)
    (h : ∀ p ∈ ps, (∀ path, key path p.1 = .ok p.1) ∧ ∀ path, value path p.2 = .ok p.2) :
    completePairs key value path ps = .ok ps := by
  induction ps with
  | nil => rfl
  | cons p rest ih =>
    obtain ⟨hkey, hvalue⟩ := h p List.mem_cons_self
    have hrest := ih fun q hq => h q (List.mem_cons_of_mem p hq)
    exact bind_eq_ok_iff.2 ⟨p.1, hkey _, bind_eq_ok_iff.2 ⟨p.2, hvalue _,
      bind_eq_ok_iff.2 ⟨rest, hrest, rfl⟩⟩⟩

/-- Every element that one check has completed is an answer of it. -/
theorem exists_answer_of_uniformly {range : Range}
    (h : completeSequence range (uniformly check) path v = .ok ws) :
    ∀ w ∈ ws, ∃ path v, check path v = .ok w := by
  intro w hw
  obtain ⟨check', hcheck, hanswer⟩ :=
    exists_check_of_completeEach (completeEach_of_completeSequence h) hw
  obtain rfl := List.eq_of_mem_replicate hcheck
  exact hanswer

end Loops

namespace Range

/-! ## Standard ranges -/

/-- The named scalar ranges, their defaults left open. -/
inductive IsNamed : (Value → Range) → Prop
  | boolean : IsNamed boolean
  | string : IsNamed string
  | nonemptyString : IsNamed nonemptyString
  | integer : IsNamed integer
  | integerBetween (min max : Number) : IsNamed (integerBetween min max)

/-- The ranges built from the plain and the named scalar ranges. The default of a named range is
nil, or accepted by the range. -/
inductive IsStandard : Range → Prop
  | any (default : Value) : IsStandard (.any default)
  | nonNil : IsStandard .nonNil
  | named {range : Value → Range} (isNamed : IsNamed range) {default : Value}
      (accepted : default.isNil = true ∨ ∃ w, (range default).complete [] default = .ok w) :
      IsStandard (range default)
  | optional {range : Range} (h : IsStandard range) : IsStandard (.optional range)
  | optionalDefault {range : Range} (h : IsStandard range) (default : Value) :
      IsStandard (.optionalDefault range default)
  | sequence {range : Range} (h : IsStandard range) : IsStandard (.sequence range)
  | set {range : Range} (h : IsStandard range) : IsStandard (.set range)
  | tuple {ranges : List Range} (h : ∀ range ∈ ranges, IsStandard range) :
      IsStandard (.tuple ranges)
  | mapOf {key value : Range} (hkey : IsStandard key) (hvalue : IsStandard value) :
      IsStandard (.mapOf key value)

/-- A named range is a test that no list or map passes, and for which the sign of zero makes no
difference. -/
theorem IsNamed.eq_predicate {range : Value → Range} (h : IsNamed range) :
    ∃ text accepts, (∀ default, range default = .predicate text accepts default) ∧
      (∀ v, accepts v = true → v.isNested = false) ∧ ∀ v, accepts v.asMember = accepts v := by
  cases h with
  | boolean | string | nonemptyString =>
    refine ⟨_, _, fun _ => rfl, fun v hv => ?_, fun v => ?_⟩
    · cases v <;> first | rfl | cases hv
    · cases v <;> rfl
  | integer =>
    refine ⟨_, _, fun _ => rfl, fun v hv => ?_, fun v => ?_⟩
    · cases v <;> first | rfl | cases hv
    · cases v <;> simp [Value.asMember]
  | integerBetween min max =>
    refine ⟨_, _, fun _ => rfl, fun v hv => ?_, fun v => ?_⟩
    · cases v <;> first | rfl | cases hv
    · cases v <;> simp [Value.asMember]

section Answers

variable {range key value : Range} {ranges : List Range} {path : Path} {v w default : Value}

/-! ## What is answered -/

theorem complete_any_iff :
    (any default).complete path v = .ok w ↔
      v.isNil = true ∧ w = default ∨ v.isNil = false ∧ w = v := by
  unfold complete
  cases v.isNil <;> simp [eq_comm]

theorem complete_nonNil_iff :
    nonNil.complete path v = .ok w ↔ v.isNil = false ∧ w = v := by
  unfold complete
  cases v.isNil <;> simp [eq_comm]

theorem complete_predicate_iff {text : String} {accepts : Value → Bool} :
    (predicate text accepts default).complete path v = .ok w ↔
      v.isNil = true ∧ w = default ∨ v.isNil = false ∧ accepts v = true ∧ w = v := by
  unfold complete
  cases v.isNil with
  | true => simp [@eq_comm _ w]
  | false => cases accepts v <;> simp [@eq_comm _ w]

theorem complete_optional_iff :
    (optional range).complete path v = .ok w ↔
      v.isNil = true ∧ w = .undefined ∨ v.isNil = false ∧ range.complete path v = .ok w := by
  conv_lhs => unfold complete
  cases v.isNil <;> simp [@eq_comm _ w]

theorem of_complete_sequence (h : (sequence range).complete path v = .ok w) :
    ∃ ws, w = .ofList ws ∧ ∀ x ∈ ws, ∃ path v, range.complete path v = .ok x := by
  obtain ⟨ws, hws, rfl⟩ := map_eq_ok_iff.1 h
  exact ⟨ws, rfl, exists_answer_of_uniformly hws⟩

theorem of_complete_set (h : (set range).complete path v = .ok w) :
    ∃ ws, w = .setOf ws ∧ ∀ x ∈ ws, ∃ path v, range.complete path v = .ok x := by
  obtain ⟨ws, hws, rfl⟩ := map_eq_ok_iff.1 h
  exact ⟨ws, rfl, exists_answer_of_uniformly hws⟩

theorem of_complete_tuple (h : (tuple ranges).complete path v = .ok w) :
    ∃ ws, w = .ofList ws ∧ ∃ vs, completeEach path (ranges.map complete) 0 vs = .ok ws := by
  obtain ⟨ws, hws, rfl⟩ := map_eq_ok_iff.1 h
  have hvs := completeEach_of_completeSequence hws
  rw [Range.checks_eq_map] at hvs
  exact ⟨ws, rfl, _, hvs⟩

theorem of_complete_mapOf (h : (mapOf key value).complete path v = .ok w) :
    ∃ qs, w = .tableOf qs ∧ ∀ q ∈ qs, (∃ path k, key.complete path k = .ok q.1) ∧
      ∃ path v, value.complete path v = .ok q.2 := by
  unfold complete at h
  split at h
  · cases h
    exact ⟨[], rfl, fun _ hq => absurd hq List.not_mem_nil⟩
  · split at h
    · rename_i ps _
      obtain ⟨qs, hqs, rfl⟩ := map_eq_ok_iff.1 h
      exact ⟨qs, rfl, fun _ hq => of_completePairs hqs hq⟩
    · cases h

/-! ## Nil -/

/-- Only nil is completed to nil, and then the path does not matter. -/
theorem IsStandard.of_isNil (h : range.IsStandard) (hv : range.complete path v = .ok w)
    (hw : w.isNil = true) : v.isNil = true ∧ ∀ path', range.complete path' v = .ok w := by
  induction h generalizing path v w with
  | any default =>
    refine ⟨?_, fun _ => hv⟩
    rcases complete_any_iff.1 hv with ⟨hnil, -⟩ | ⟨-, rfl⟩
    · exact hnil
    · exact hw
  | nonNil =>
    obtain ⟨hnil, rfl⟩ := complete_nonNil_iff.1 hv
    rw [hw] at hnil
    cases hnil
  | named isNamed accepted =>
    obtain ⟨text, accepts, heq, -⟩ := isNamed.eq_predicate
    rw [heq] at hv ⊢
    refine ⟨?_, fun _ => complete_predicate_iff.2 (complete_predicate_iff.1 hv)⟩
    rcases complete_predicate_iff.1 hv with ⟨hnil, -⟩ | ⟨-, -, rfl⟩
    · exact hnil
    · exact hw
  | optional h ih =>
    rcases complete_optional_iff.1 hv with ⟨hnil, rfl⟩ | ⟨hnil, hv⟩
    · exact ⟨hnil, fun _ => complete_optional_iff.2 (.inl ⟨hnil, rfl⟩)⟩
    · rw [(ih hv hw).1] at hnil
      cases hnil
  | @optionalDefault range h default ih =>
    obtain ⟨hread, hpaths⟩ := ih hv hw
    refine ⟨?_, hpaths⟩
    cases hnil : v.isNil with
    | true => rfl
    | false =>
      rw [hnil, if_neg Bool.false_ne_true, hnil] at hread
      exact hread
  | sequence h ih =>
    obtain ⟨ws, rfl, -⟩ := of_complete_sequence hv
    cases hw
  | set h ih =>
    obtain ⟨ws, rfl, -⟩ := of_complete_set hv
    cases hw
  | tuple h ih =>
    obtain ⟨ws, rfl, -⟩ := of_complete_tuple hv
    cases hw
  | mapOf hkey hvalue ihkey ihvalue =>
    obtain ⟨qs, rfl, -⟩ := of_complete_mapOf hv
    cases hw

/-! ## Kept values -/

/-- The value is completed to itself, wherever it stands. -/
def Keeps (range : Range) (v : Value) : Prop := ∀ path, range.complete path v = .ok v

theorem keeps_any (h : v.isNil = true → v = default) : (any default).Keeps v := by
  intro path
  rw [complete_any_iff]
  cases hnil : v.isNil with
  | true => exact .inl ⟨rfl, h hnil⟩
  | false => exact .inr ⟨rfl, rfl⟩

theorem keeps_predicate {text : String} {accepts : Value → Bool}
    (h : v.isNil = true → v = default) (haccepts : v.isNil = false → accepts v = true) :
    (predicate text accepts default).Keeps v := by
  intro path
  rw [complete_predicate_iff]
  cases hnil : v.isNil with
  | true => exact .inl ⟨rfl, h hnil⟩
  | false => exact .inr ⟨rfl, haccepts hnil, rfl⟩

theorem keeps_optional (h : v.isNil = true → v = .undefined)
    (hrange : v.isNil = false → range.Keeps v) : (optional range).Keeps v := by
  intro path
  rw [complete_optional_iff]
  cases hnil : v.isNil with
  | true => exact .inl ⟨rfl, h hnil⟩
  | false => exact .inr ⟨rfl, hrange hnil path⟩

theorem keeps_sequence {ws : List Value} (h : ∀ w ∈ ws, range.Keeps w) :
    (sequence range).Keeps (.ofList ws) := by
  intro path
  exact map_eq_ok_iff.2 ⟨ws, completeEach_uniformly path 0 h, rfl⟩

theorem keeps_set {ws : List Value} (h : ∀ w ∈ Value.distinctMembers ws, range.Keeps w) :
    (set range).Keeps (.setOf ws) := by
  intro path
  refine map_eq_ok_iff.2 ⟨Value.distinctMembers ws, completeEach_uniformly path 0 h, ?_⟩
  rw [Value.setOf, Value.distinctMembers_distinctMembers, Value.setOf]

theorem keeps_tuple {ws : List Value}
    (h : ∀ path, completeEach path (ranges.map complete) 0 ws = .ok ws) :
    (tuple ranges).Keeps (.ofList ws) := by
  intro path
  refine map_eq_ok_iff.2 ⟨ws, ?_, rfl⟩
  rw [Range.checks_eq_map]
  exact h path

theorem keeps_mapOf {qs : List (Value × Value)}
    (h : ∀ q ∈ Value.distinctPairs qs, key.Keeps q.1 ∧ value.Keeps q.2) :
    (mapOf key value).Keeps (.tableOf qs) := by
  intro path
  refine map_eq_ok_iff.2 ⟨Value.distinctPairs qs, completePairs_eq_self path h, ?_⟩
  rw [Value.tableOf, Value.distinctPairs_distinctPairs, Value.tableOf]

/-- **A kept value is kept as a set or a table stores it.** -/
theorem IsStandard.keeps_asMember (h : range.IsStandard) (hw : range.Keeps w) :
    range.Keeps w.asMember := by
  cases w with
  | number n =>
    intro path
    show range.complete path (.number n.unsigned) = .ok (.number n.unsigned)
    have hn : range.complete path (.number n) = .ok (.number n) := hw path
    induction h with
    | any default => rfl
    | nonNil => rfl
    | named isNamed accepted =>
      obtain ⟨text, accepts, heq, -, hunsigned⟩ := isNamed.eq_predicate
      rw [heq] at hn ⊢
      rcases complete_predicate_iff.1 hn with ⟨hnil, -⟩ | ⟨hnil, haccepts, -⟩
      · cases hnil
      · rw [← hunsigned] at haccepts
        exact complete_predicate_iff.2 (.inr ⟨rfl, haccepts, rfl⟩)
    | optional h ih => exact ih hw hn
    | optionalDefault h default ih => exact ih hw hn
    | sequence h ih =>
      obtain ⟨ws, heq, -⟩ := of_complete_sequence hn
      cases heq
    | set h ih =>
      obtain ⟨ws, heq, -⟩ := of_complete_set hn
      cases heq
    | tuple h ih =>
      obtain ⟨ws, heq, -⟩ := of_complete_tuple hn
      cases heq
    | mapOf hkey hvalue ihkey ihvalue =>
      obtain ⟨qs, heq, -⟩ := of_complete_mapOf hn
      cases heq
  | _ => exact hw

/-- **What is completed once is kept,** and so is what comes of rebuilding it. -/
theorem IsStandard.keeps_rebuilt (h : range.IsStandard) {f : Value → Value} (hf : Value.Rebuilds f)
    (hv : range.complete path v = .ok w) : range.Keeps (f w) := by
  induction h generalizing f path v w with
  | any default =>
    refine keeps_any fun hnil => ?_
    rw [hf.eq_self_of_isNil hnil]
    rw [hf.isNil] at hnil
    rcases complete_any_iff.1 hv with ⟨-, rfl⟩ | ⟨hv, rfl⟩
    · rfl
    · exact absurd (hnil.symm.trans hv) (by decide)
  | nonNil =>
    intro path'
    obtain ⟨hnil, rfl⟩ := complete_nonNil_iff.1 hv
    rw [complete_nonNil_iff, hf.isNil]
    exact ⟨hnil, rfl⟩
  | named isNamed accepted =>
    obtain ⟨text, accepts, heq, hflat, -⟩ := isNamed.eq_predicate
    rw [heq] at hv accepted ⊢
    refine keeps_predicate (fun hnil => ?_) fun hnil => ?_
    · rw [hf.eq_self_of_isNil hnil]
      rw [hf.isNil] at hnil
      rcases complete_predicate_iff.1 hv with ⟨-, rfl⟩ | ⟨hv, -, rfl⟩
      · rfl
      · exact absurd (hnil.symm.trans hv) (by decide)
    · rw [hf.isNil] at hnil
      have haccepts : accepts w = true := by
        rcases complete_predicate_iff.1 hv with ⟨-, rfl⟩ | ⟨-, haccepts, rfl⟩
        · -- a default that is no nil is accepted
          obtain ⟨x, hx⟩ := accepted.resolve_left (by simp [hnil])
          rcases complete_predicate_iff.1 hx with ⟨hx, -⟩ | ⟨-, haccepts, -⟩
          · exact absurd (hx.symm.trans hnil) (by decide)
          · exact haccepts
        · exact haccepts
      rw [hf.flat w (hflat w haccepts)]
      exact haccepts
  | optional h ih =>
    rcases complete_optional_iff.1 hv with ⟨-, rfl⟩ | ⟨hgiven, hv⟩
    · rw [hf.flat _ rfl]
      exact keeps_optional (fun _ => rfl) (fun hnil => by cases hnil)
    · refine keeps_optional (fun hnil => ?_) fun _ => ih hf hv
      rw [hf.isNil] at hnil
      rw [(h.of_isNil hv hnil).1] at hgiven
      cases hgiven
  | @optionalDefault range h default ih =>
    intro path'
    show range.complete path' (if (f w).isNil then default else f w) = .ok (f w)
    rw [hf.isNil]
    cases hnil : w.isNil with
    | true =>
      -- the default was completed to nil, and is so again
      obtain ⟨hgiven, hagain⟩ := (h.optionalDefault default).of_isNil hv hnil
      have hdefault := hagain path'
      rw [complete, hgiven] at hdefault
      rw [hf.flat w (Value.isNested_of_isNil hnil)]
      exact hdefault
    | false => exact ih hf hv path'
  | sequence h ih =>
    obtain ⟨ws, rfl, hws⟩ := of_complete_sequence hv
    rw [hf.list]
    refine keeps_sequence fun x hx => ?_
    obtain ⟨w, hw, rfl⟩ := List.mem_map.1 hx
    obtain ⟨path, v, hanswer⟩ := hws w hw
    exact ih hf hanswer
  | set h ih =>
    obtain ⟨ws, rfl, hws⟩ := of_complete_set hv
    rw [hf.flat _ rfl]
    refine keeps_set fun x hx => ?_
    obtain ⟨w, hw, rfl⟩ := Value.mem_distinctMembers hx
    obtain ⟨path, v, hanswer⟩ := hws w hw
    exact h.keeps_asMember (ih Value.rebuilds_id hanswer)
  | tuple h ih =>
    obtain ⟨ws, rfl, vs, hws⟩ := of_complete_tuple hv
    rw [hf.list]
    refine keeps_tuple fun path' => completeEach_map hws ?_ path' 0
    intro check hcheck path v w hanswer
    obtain ⟨range, hrange, rfl⟩ := List.mem_map.1 hcheck
    exact ih range hrange hf hanswer
  | mapOf hkey hvalue ihkey ihvalue =>
    obtain ⟨qs, rfl, hqs⟩ := of_complete_mapOf hv
    rw [hf.flat _ rfl]
    refine keeps_mapOf fun q hq => ⟨?_, ?_⟩
    · obtain ⟨q', hq', heq⟩ := Value.mem_keys_distinctPairs hq
      obtain ⟨⟨path, k, hanswer⟩, -⟩ := hqs q' hq'
      rw [heq]
      exact hkey.keeps_asMember (ihkey Value.rebuilds_id hanswer)
    · obtain ⟨q', hq', heq⟩ := Value.mem_values_distinctPairs hq
      obtain ⟨-, path, v, hanswer⟩ := hqs q' hq'
      rw [heq]
      exact ihvalue Value.rebuilds_id hanswer

end Answers

end Range

end LayeredConfig
