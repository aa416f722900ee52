import LayeredConfig.Proofs.Completion.Location
import LayeredConfig.Proofs.Leaves.Agreement
import LayeredConfig.Proofs.Leaves.Settled

/-!
# The components that a fold visits

Completing and folding are written one apart from the other. Where a list is completed element by
element, a fold completes the list, and then each raw element once more; where alternatives are
tried in order, a fold tries them again. Here is what they agree on, for the ranges that are built
from scalar ones by options, defaults, alternatives, lists and tuples (`Range.IsPositional`).

- `Assembly`: a completed value seen as put together from scalar components. Its shape is that of
  the lists that completing has built; a list that a scalar range has accepted is one component.
- `Range.Assembles`: completing a value puts together the assembly. Of alternatives, it is that of
  the first which accepts the value; of a tuple, it has the elements for which there are ranges.
- `Range.Assembles.complete_eq`, `Range.Assembles.leaves_eq`: completing comes to the value of the
  assembly, and the leaves are its components. Both are by induction on how it is put together, so
  that the one needs nothing of the other.
- `Range.IsPositional.assembles`, `Range.Assembles.unique`: for a value that is accepted there is
  one assembly, and one only.
- `Assembly.found?_value`, `Assembly.pairwise_chains`: the components stand in the value, each under
  its own chain of positions, in the order of these.
-/

namespace LayeredConfig

/-- The path through nested sequences. -/
def Path.ofPositions (chain : List Nat) : Path := chain.map fun i => .position (.ofNat i)

theorem Path.element_append (path : Path) (i : Nat) (chain : List Nat) :
    path.element i ++ Path.ofPositions chain = path ++ Path.ofPositions (i :: chain) := by
  simp [Path.element, Path.ofPositions]

/-! ## Assemblies -/

/-- A completed value, put together from scalar components. -/
inductive Assembly where
  | component (range : Range) (value : Value)
  | list (parts : List Assembly)

/-- A scalar component of a completed value: the range that it was completed by, the chain of
positions that leads to it, and itself. -/
structure Component where
  range : Range
  chain : List Nat
  value : Value

/-- The component as one of the list of whose element it is a component. -/
def Component.under (i : Nat) (c : Component) : Component := ⟨c.range, i :: c.chain, c.value⟩

/-- The leaf that a component of a value at a path is. -/
def Component.leaf (path : Path) (c : Component) : Leaf :=
  ⟨c.range, path ++ Path.ofPositions c.chain, c.value⟩

/-- The leaves of an element are leaves of the list. -/
theorem Component.leaf_comp_under (path : Path) (i : Nat) :
    Component.leaf path ∘ Component.under i = Component.leaf (path.element i) := by
  funext c
  rw [Function.comp, leaf, leaf, Path.element_append]
  rfl

namespace Assembly

mutual

/-- The value that is put together. -/
def value : Assembly → Value
  | .component _ v => v
  | .list parts => .ofList (values parts)

/-- The values of several assemblies. -/
def values : List Assembly → List Value
  | [] => []
  | part :: rest => part.value :: values rest

end

mutual

/-- The components of an assembly, from left to right. -/
def components : Assembly → List Component
  | .component range v => [⟨range, [], v⟩]
  | .list parts => componentsFrom 0 parts

/-- The components of the parts of a list, starting with position `i`. -/
def componentsFrom : Nat → List Assembly → List Component
  | _, [] => []
  | i, part :: rest => part.components.map (Component.under i) ++ componentsFrom (i + 1) rest

end

theorem values_eq_map (parts : List Assembly) : values parts = parts.map value := by
  induction parts with
  | nil => rfl
  | cons part rest ih => rw [values, ih, List.map_cons]

/-- What passes from the parts of a list to the list holds of every assembly. -/
theorem induction {P : Assembly → Prop} (component : ∀ range v, P (.component range v))
    (list : ∀ parts, (∀ part ∈ parts, P part) → P (.list parts)) : ∀ a, P a
  | .component range v => component range v
  | .list parts => list parts fun part _ => induction component list part

/-- A component of a list is a component of one of its parts, seen from the list. -/
theorem mem_componentsFrom_iff {i : Nat} {parts : List Assembly} {c : Component} :
    c ∈ componentsFrom i parts ↔ ∃ (j : Nat) (part : Assembly), parts[j]? = some part ∧
      ∃ inner ∈ part.components, inner.under (i + j) = c := by
  induction parts generalizing i with
  | nil => simp [componentsFrom]
  | cons part rest ih =>
    rw [componentsFrom, List.mem_append, List.mem_map, ih]
    constructor
    · rintro (h | ⟨j, later, hlater, inner, hinner, rfl⟩)
      · exact ⟨0, part, rfl, h⟩
      · exact ⟨j + 1, later, hlater, inner, hinner, by rw [Nat.succ_add_eq_add_succ]⟩
    · rintro ⟨j, part', hpart', inner, hinner, rfl⟩
      cases j with
      | zero =>
        cases hpart'
        exact .inl ⟨inner, hinner, rfl⟩
      | succ j =>
        exact .inr ⟨j, part', hpart', inner, hinner, by rw [Nat.succ_add_eq_add_succ]⟩

/-- **A component stands in the value,** where its chain leads. -/
theorem found?_value (a : Assembly) :
    ∀ c ∈ a.components, a.value.found? (Path.ofPositions c.chain) = some c.value := by
  induction a using Assembly.induction with
  | component range v =>
    intro c hc
    obtain rfl := List.mem_singleton.1 hc
    rfl
  | list parts ih =>
    intro c hc
    obtain ⟨j, part, hpart, inner, hinner, rfl⟩ := mem_componentsFrom_iff.1 hc
    have hstep : (Assembly.list parts).value.step? (.position (.ofNat (0 + j))) =
        some part.value := by
      rw [Nat.zero_add]
      refine Value.step?_position (Value.elements?_ofList _) ?_
      rw [values_eq_map, List.getElem?_map, hpart]
      rfl
    exact (Value.found?_cons_of_step? hstep _).trans
      (ih part (List.mem_of_getElem? hpart) inner hinner)

theorem pairwise_componentsFrom (i : Nat) {parts : List Assembly}
    (h : ∀ part ∈ parts, (part.components.map Component.chain).Pairwise (· < ·)) :
    ((componentsFrom i parts).map Component.chain).Pairwise (· < ·) := by
  induction parts generalizing i with
  | nil => exact List.Pairwise.nil
  | cons part rest ih =>
    rw [componentsFrom, List.map_append, List.pairwise_append]
    refine ⟨?_, ih (i + 1) fun part hpart => h part (List.mem_cons_of_mem _ hpart), ?_⟩
    · have hpart : ((part.components.map Component.chain).map (i :: ·)).Pairwise (· < ·) :=
        (h part List.mem_cons_self).map (i :: ·) fun _ _ hlt =>
          List.cons_lt_cons_iff.2 (.inr ⟨rfl, hlt⟩)
      rw [List.map_map] at hpart ⊢
      exact hpart
    · -- the parts that follow stand at later positions
      rintro chain hchain later hlater
      obtain ⟨c, hc, rfl⟩ := List.mem_map.1 hchain
      obtain ⟨inner, -, rfl⟩ := List.mem_map.1 hc
      obtain ⟨d, hd, rfl⟩ := List.mem_map.1 hlater
      obtain ⟨j, _, -, inner', -, rfl⟩ := mem_componentsFrom_iff.1 hd
      have hlt : i < i + 1 + j := by omega
      exact List.cons_lt_cons_iff.2 (.inl hlt)

/-- **The components stand in the order of their chains,** no two under the same. -/
theorem pairwise_chains (a : Assembly) : (a.components.map Component.chain).Pairwise (· < ·) := by
  induction a using Assembly.induction with
  | component range v => exact List.pairwise_singleton _ _
  | list parts ih => exact pairwise_componentsFrom 0 ih

end Assembly

namespace Range

/-- Whether a range has its values as leaves, as a whole. -/
def isScalar : Range → Bool
  | .any _ => true
  | .nonNil => true
  | .predicate .. => true
  | .scalar .. => true
  | .choice .. => true
  | .mapped .. => true
  | _ => false

/-- Whether a range accepts a value at a path. -/
def accepts (range : Range) (path : Path) (v : Value) : Bool := (range.complete path v).isOk

/-- Completing a value at a path puts together an assembly. -/
inductive Assembles : Range → Path → Value → Assembly → Prop
  /-- What a scalar range answers is one component, whatever it is. -/
  | scalar {range : Range} {path : Path} {v w : Value} (hscalar : range.isScalar = true)
      (h : range.complete path v = .ok w) : Assembles range path v (.component range w)
  /-- Nothing given is a component, too, of the range that lets it be. -/
  | absent {range : Range} {path : Path} {v : Value} (hnil : v.isNil = true) :
      Assembles (.optional range) path v (.component (.optional range) .undefined)
  | given {range : Range} {path : Path} {v : Value} {a : Assembly} (hgiven : v.isNil = false)
      (h : Assembles range path v a) : Assembles (.optional range) path v a
  | default {range : Range} {default : Value} {path : Path} {v : Value} {a : Assembly}
      (h : Assembles range path (if v.isNil then default else v) a) :
      Assembles (.optionalDefault range default) path v a
  /-- Of several ranges, the first that accepts the value decides. -/
  | anyOf {ranges : List Range} {range : Range} {path : Path} {v : Value} {a : Assembly}
      (hfirst : (ranges.find? fun range => range.accepts path v) = some range)
      (h : Assembles range path v a) : Assembles (.anyOf ranges) path v a
  /-- There is a part for every element. -/
  | sequence {range : Range} {path : Path} {v : Value} {parts : List Assembly}
      (hv : v.isNil = true ∨ v.elements?.isSome = true)
      (hlength : parts.length = (v.elements?.getD []).length)
      (h : ∀ (i : Nat) (x : Value) (part : Assembly), (v.elements?.getD [])[i]? = some x →
        parts[i]? = some part → Assembles range (path.element i) x part) :
      Assembles (.sequence range) path v (.list parts)
  /-- There is a part for every element for which there is a range. -/
  | tuple {ranges : List Range} {path : Path} {v : Value} {parts : List Assembly}
      (hv : v.isNil = true ∨ v.elements?.isSome = true)
      (hlength : parts.length = min ranges.length (v.elements?.getD []).length)
      (h : ∀ (i : Nat) (range : Range) (x : Value) (part : Assembly), ranges[i]? = some range →
        (v.elements?.getD [])[i]? = some x → parts[i]? = some part →
          Assembles range (path.element i) x part) :
      Assembles (.tuple ranges) path v (.list parts)

section Assembling

variable {range : Range} {ranges : List Range} {path : Path} {v w : Value} {a b : Assembly}

/-! ## Alternatives -/

/-- The first range that accepts a value decides what it is completed to. -/
theorem firstAccepted?_eq_some_iff :
    firstAccepted? path v (checks ranges) = some w ↔
      ∃ range, (ranges.find? fun range => range.accepts path v) = some range ∧
        range.complete path v = .ok w := by
  induction ranges with
  | nil => simp [checks, firstAccepted?]
  | cons range rest ih =>
    rw [checks, firstAccepted?, List.find?_cons]
    unfold accepts
    cases hv : range.complete path v with
    | error violation => exact ih
    | ok x =>
      constructor
      · rintro ⟨⟩
        exact ⟨range, rfl, hv⟩
      · rintro ⟨_, ⟨⟩, h⟩
        exact congrArg some (Except.ok.inj (hv.symm.trans h))

/-- The first range that accepts a value decides on its leaves, too. -/
theorem acceptedLeaves?_of_find?
    (hfirst : (ranges.find? fun range => range.accepts path v) = some range) :
    acceptedLeaves? ranges path v = some (range.leaves path v) := by
  induction ranges with
  | nil => cases hfirst
  | cons first rest ih =>
    rw [List.find?_cons] at hfirst
    unfold accepts at hfirst
    rw [acceptedLeaves?]
    cases hv : first.complete path v with
    | error violation =>
      rw [hv] at hfirst
      exact ih hfirst
    | ok x =>
      rw [hv] at hfirst
      cases hfirst
      rfl

/-! ## Completing -/

/-- The parts of a list are the completed elements, if each of them is the one at its position. -/
theorem completeEach_of_parts {vs : List Value} {parts : List Assembly}
    (hlength : parts.length = min ranges.length vs.length)
    (h : ∀ (i : Nat) (range : Range) (x : Value) (part : Assembly), ranges[i]? = some range →
      vs[i]? = some x → parts[i]? = some part →
        range.complete (path.element i) x = .ok part.value) :
    completeEach path (checks ranges) 0 vs = .ok (Assembly.values parts) := by
  rw [checks_eq_map, Assembly.values_eq_map]
  refine completeEach_eq_ok_iff.2 ⟨?_, fun j check x w hcheck hx hw => ?_⟩
  · rw [List.length_map, List.length_map, hlength]
  · rw [List.getElem?_map] at hcheck hw
    obtain ⟨range, hrange, rfl⟩ := Option.map_eq_some_iff.1 hcheck
    obtain ⟨part, hpart, rfl⟩ := Option.map_eq_some_iff.1 hw
    rw [Nat.zero_add]
    exact h j range x part hrange hx hpart

/-- **Completing comes to the value of the assembly.** -/
theorem Assembles.complete_eq (h : range.Assembles path v a) :
    range.complete path v = .ok a.value := by
  induction h with
  | scalar hscalar h => exact h
  | absent hnil => exact complete_optional_iff.2 (.inl ⟨hnil, rfl⟩)
  | given hgiven h ih => exact complete_optional_iff.2 (.inr ⟨hgiven, ih⟩)
  | default h ih => exact ih
  | anyOf hfirst h ih =>
    rw [complete, firstAccepted?_eq_some_iff.2 ⟨_, hfirst, ih⟩]
  | @sequence range path v parts hv hlength h ih =>
    refine map_eq_ok_iff.2 ⟨_, completeSequence_eq_ok_iff.2 ⟨hv, ?_⟩, rfl⟩
    rw [← checks_replicate]
    refine completeEach_of_parts ?_ fun i range' x part hrange hx hpart => ?_
    · rw [List.length_replicate, Nat.min_self, hlength]
    · rw [List.eq_of_mem_replicate (List.mem_of_getElem? hrange)]
      exact ih i x part hx hpart
  | tuple hv hlength h ih =>
    exact map_eq_ok_iff.2
      ⟨_, completeSequence_eq_ok_iff.2 ⟨hv, completeEach_of_parts hlength ih⟩, rfl⟩

/-! ## Folding -/

/-- The leaves of the elements are the components of the parts, if those of each element are. -/
theorem elementLeaves_of_parts {visits : List Visit} {i : Nat} {vs : List Value}
    {parts : List Assembly} (hlength : parts.length = min visits.length vs.length)
    (h : ∀ (j : Nat) (visit : Visit) (x : Value) (part : Assembly), visits[j]? = some visit →
      vs[j]? = some x → parts[j]? = some part → visit (path.element (i + j)) x =
        .ok (part.components.map (Component.leaf (path.element (i + j))))) :
    elementLeaves path visits i vs =
      .ok ((Assembly.componentsFrom i parts).map (Component.leaf path)) := by
  induction visits generalizing i vs parts with
  | nil =>
    rw [List.length_nil, Nat.zero_min, List.length_eq_zero_iff] at hlength
    rw [hlength]
    rfl
  | cons visit rest ih =>
    cases vs with
    | nil =>
      rw [List.length_nil, Nat.min_zero, List.length_eq_zero_iff] at hlength
      rw [hlength]
      rfl
    | cons x xs =>
      rw [List.length_cons, List.length_cons, Nat.succ_min_succ] at hlength
      cases parts with
      | nil => cases hlength
      | cons part later =>
        have hlater : elementLeaves path rest (i + 1) xs =
            .ok ((Assembly.componentsFrom (i + 1) later).map (Component.leaf path)) := by
          refine ih (Nat.succ.inj hlength) fun j visit x part hvisit hx hpart => ?_
          rw [Nat.succ_add_eq_add_succ]
          exact h (j + 1) visit x part hvisit hx hpart
        have hhere : visit (path.element i) x =
            .ok ((part.components.map (Component.under i)).map (Component.leaf path)) := by
          rw [List.map_map, Component.leaf_comp_under]
          exact h 0 visit x part rfl rfl rfl
        rw [Assembly.componentsFrom, List.map_append]
        exact bind_eq_ok_iff.2 ⟨_, hhere, bind_eq_ok_iff.2 ⟨_, hlater, rfl⟩⟩

/-- A scalar range has its completed value as its only leaf. -/
theorem leaves_of_isScalar (hscalar : range.isScalar = true)
    (h : range.complete path v = .ok w) : range.leaves path v = .ok [⟨range, path, w⟩] := by
  have hleaf : scalarLeaf range path v = .ok [⟨range, path, w⟩] :=
    map_eq_ok_iff.2 ⟨w, completeForFold_of_complete h, rfl⟩
  rw [← hleaf]
  cases range <;> first | rfl | cases hscalar

/-- **The leaves are the components of the assembly,** from left to right. -/
theorem Assembles.leaves_eq (h : range.Assembles path v a) :
    range.leaves path v = .ok (a.components.map (Component.leaf path)) := by
  have hleaf : ∀ (range : Range) (path : Path) (w : Value),
      (Assembly.component range w).components.map (Component.leaf path) = [⟨range, path, w⟩] := by
    intro range path w
    exact congrArg (fun path => [Leaf.mk range path w]) (List.append_nil path)
  induction h with
  | scalar hscalar h =>
    rw [hleaf]
    exact leaves_of_isScalar hscalar h
  | absent hnil => rw [leaves, if_pos hnil, hleaf]
  | given hgiven h ih =>
    rw [leaves, hgiven, if_neg Bool.false_ne_true]
    exact ih
  | default h ih => exact ih
  | anyOf hfirst h ih =>
    rw [leaves, acceptedLeaves?_of_find? hfirst]
    exact ih
  | @sequence range path v parts hv hlength h ih =>
    -- the list is completed first, and then each raw element is folded
    rw [leaves_sequence_eq (Assembles.sequence hv hlength h).complete_eq]
    refine elementLeaves_of_parts ?_ fun j visit x part hvisit hx hpart => ?_
    · rw [List.length_map, List.length_replicate, Nat.min_self, hlength]
    · rw [List.map_replicate] at hvisit
      rw [List.eq_of_mem_replicate (List.mem_of_getElem? hvisit), Nat.zero_add]
      exact ih j x part hx hpart
  | @tuple ranges path v parts hv hlength h ih =>
    rw [leaves_tuple_eq (Assembles.tuple hv hlength h).complete_eq]
    refine elementLeaves_of_parts ?_ fun j visit x part hvisit hx hpart => ?_
    · rw [List.length_map, hlength]
    · rw [List.getElem?_map] at hvisit
      obtain ⟨range, hrange, rfl⟩ := Option.map_eq_some_iff.1 hvisit
      rw [Nat.zero_add]
      exact ih j range x part hrange hx hpart

/-! ## Which values are put together, and how -/

/-- **At most one assembly is put together.** -/
theorem Assembles.unique (ha : range.Assembles path v a) (hb : range.Assembles path v b) :
    a = b := by
  induction ha generalizing b with
  | scalar hscalar h =>
    cases hb with
    | scalar _ h' => rw [Except.ok.inj (h.symm.trans h')]
    | _ => cases hscalar
  | absent hnil =>
    cases hb with
    | scalar hscalar _ => cases hscalar
    | absent _ => rfl
    | given hgiven _ =>
      rw [hnil] at hgiven
      cases hgiven
  | given hgiven h ih =>
    cases hb with
    | scalar hscalar _ => cases hscalar
    | absent hnil =>
      rw [hnil] at hgiven
      cases hgiven
    | given _ h' => exact ih h'
  | default h ih =>
    cases hb with
    | scalar hscalar _ => cases hscalar
    | default h' => exact ih h'
  | anyOf hfirst h ih =>
    cases hb with
    | scalar hscalar _ => cases hscalar
    | anyOf hfirst' h' =>
      cases hfirst.symm.trans hfirst'
      exact ih h'
  | sequence hv hlength h ih =>
    cases hb with
    | scalar hscalar _ => cases hscalar
    | sequence _ hlength' h' =>
      refine congrArg Assembly.list (List.ext_getElem (hlength.trans hlength'.symm) ?_)
      intro i hi hi'
      have hx := List.getElem?_eq_getElem (hlength ▸ hi)
      exact ih i _ _ hx (List.getElem?_eq_getElem hi)
        (h' i _ _ hx (List.getElem?_eq_getElem hi'))
  | tuple hv hlength h ih =>
    cases hb with
    | scalar hscalar _ => cases hscalar
    | tuple _ hlength' h' =>
      refine congrArg Assembly.list (List.ext_getElem (hlength.trans hlength'.symm) ?_)
      intro i hi hi'
      -- only elements for which there are ranges have parts
      have hboth := Nat.lt_min.1 (hlength ▸ hi)
      have hrange := List.getElem?_eq_getElem hboth.1
      have hx := List.getElem?_eq_getElem hboth.2
      exact ih i _ _ _ hrange hx (List.getElem?_eq_getElem hi)
        (h' i _ _ _ hrange hx (List.getElem?_eq_getElem hi'))

/-- The ranges built from scalar ones by options, defaults, alternatives, lists and tuples. -/
inductive IsPositional : Range → Prop
  | scalar {range : Range} (h : range.isScalar = true) : IsPositional range
  | optional {range : Range} (h : IsPositional range) : IsPositional (.optional range)
  | optionalDefault {range : Range} (h : IsPositional range) (default : Value) :
    IsPositional (.optionalDefault range default)
  | anyOf {ranges : List Range} (h : ∀ range ∈ ranges, IsPositional range) :
    IsPositional (.anyOf ranges)
  | sequence {range : Range} (h : IsPositional range) : IsPositional (.sequence range)
  | tuple {ranges : List Range} (h : ∀ range ∈ ranges, IsPositional range) :
    IsPositional (.tuple ranges)

/-- Parts for the elements of a sequence, one for each that is completed. -/
theorem parts_exist {vs ws : List Value}
    (h : completeEach path (ranges.map complete) 0 vs = .ok ws)
    (hranges : ∀ range ∈ ranges, ∀ {path v w}, range.complete path v = .ok w →
      ∃ a, range.Assembles path v a) :
    ∃ parts : List Assembly, parts.length = min ranges.length vs.length ∧
      ∀ (i : Nat) (range : Range) (x : Value) (part : Assembly), ranges[i]? = some range →
        vs[i]? = some x → parts[i]? = some part → range.Assembles (path.element i) x part := by
  have hpart : ∀ i : Fin (min ranges.length vs.length), ∃ part : Assembly,
      ∀ (range : Range) (x : Value), ranges[i.val]? = some range → vs[i.val]? = some x →
        range.Assembles (path.element i) x part := by
    intro ⟨i, hi⟩
    have hrange := List.getElem?_eq_getElem (Nat.lt_min.1 hi).1
    have hx := List.getElem?_eq_getElem (Nat.lt_min.1 hi).2
    have hcheck : (ranges.map complete)[i]? = some ranges[i].complete := by
      rw [List.getElem?_map, hrange]
      rfl
    obtain ⟨w, hw, -⟩ := of_completeEach h hcheck hx
    rw [Nat.zero_add] at hw
    obtain ⟨a, ha⟩ := hranges _ (List.getElem_mem _) hw
    refine ⟨a, fun range x hrange' hx' => ?_⟩
    cases hrange.symm.trans hrange'
    cases hx.symm.trans hx'
    exact ha
  choose part hpart using hpart
  refine ⟨List.ofFn part, List.length_ofFn, fun i range x part' hrange hx hpart' => ?_⟩
  obtain ⟨hi, rfl⟩ := List.getElem?_eq_some_iff.1 hpart'
  rw [List.getElem_ofFn]
  exact hpart ⟨i, _⟩ range x hrange hx

/-- **Whatever is accepted is put together.** -/
theorem IsPositional.assembles (h : range.IsPositional) (hv : range.complete path v = .ok w) :
    ∃ a, range.Assembles path v a := by
  induction h generalizing path v w with
  | scalar h => exact ⟨_, .scalar h hv⟩
  | optional h ih =>
    rcases complete_optional_iff.1 hv with ⟨hnil, -⟩ | ⟨hgiven, hv⟩
    · exact ⟨_, .absent hnil⟩
    · obtain ⟨a, ha⟩ := ih hv
      exact ⟨a, .given hgiven ha⟩
  | optionalDefault h default ih =>
    obtain ⟨a, ha⟩ := ih hv
    exact ⟨a, .default ha⟩
  | @anyOf ranges h ih =>
    unfold complete at hv
    split at hv
    · rename_i x hx
      obtain ⟨range, hfirst, haccepted⟩ := firstAccepted?_eq_some_iff.1 hx
      obtain ⟨a, ha⟩ := ih range (List.mem_of_find?_eq_some hfirst) haccepted
      exact ⟨a, .anyOf hfirst ha⟩
    · cases hv
  | @sequence range h ih =>
    obtain ⟨ws, hws, -⟩ := map_eq_ok_iff.1 hv
    obtain ⟨hshape, heach⟩ := completeSequence_eq_ok_iff.1 hws
    rw [uniformly, ← List.map_replicate] at heach
    obtain ⟨parts, hlength, hparts⟩ := parts_exist heach fun range' hrange' _ _ _ hx => by
      rw [List.eq_of_mem_replicate hrange'] at hx ⊢
      exact ih hx
    rw [List.length_replicate, Nat.min_self] at hlength
    refine ⟨_, .sequence hshape hlength fun i x part hx hpart => ?_⟩
    refine hparts i range x part ?_ hx hpart
    rw [List.getElem?_replicate, if_pos (List.getElem?_eq_some_iff.1 hx).1]
  | @tuple ranges h ih =>
    obtain ⟨ws, hws, -⟩ := map_eq_ok_iff.1 hv
    obtain ⟨hshape, heach⟩ := completeSequence_eq_ok_iff.1 hws
    rw [checks_eq_map] at heach
    obtain ⟨parts, hlength, hparts⟩ := parts_exist heach fun range hrange _ _ _ hx =>
      ih range hrange hx
    exact ⟨_, .tuple hshape hlength hparts⟩

/-- **A fold visits exactly what completing has put together.** Where a value is accepted, its
completed value is put together in one way from scalar components. Each of them stands in the
completed value under its chain of positions, no two under the same. A fold visits them in the order
of their chains, each once, at the path that goes on with its chain, and with the component. -/
theorem fold_visits_components (h : range.IsPositional) (hv : range.complete path v = .ok w) :
    ∃ a : Assembly, range.Assembles path v a ∧ (∀ b, range.Assembles path v b → b = a) ∧
      a.value = w ∧
      (∀ c ∈ a.components, w.found? (Path.ofPositions c.chain) = some c.value) ∧
      (a.components.map Component.chain).Pairwise (· < ·) ∧
      ∀ {α : Type} (f : Range → Path → α → Value → α) (init : α),
        range.fold path f init v = .ok (a.components.foldl
          (fun acc c => f c.range (path ++ Path.ofPositions c.chain) acc c.value) init) := by
  obtain ⟨a, ha⟩ := h.assembles hv
  obtain rfl : a.value = w := Except.ok.inj (ha.complete_eq.symm.trans hv)
  refine ⟨a, ha, fun b hb => hb.unique ha, rfl, a.found?_value, a.pairwise_chains, ?_⟩
  intro α f init
  rw [fold, ha.leaves_eq]
  exact congrArg Except.ok (List.foldl_map)

end Assembling

/-- A sample range of a route: its stops, all of them numbered or named, and how fast it is gone. -/
def sampleRoute : Range :=
  .tuple [.anyOf [.sequence (integer .null), .sequence (.optional (string .null))],
    .optionalDefault (string .null) (.text "slow")]

/-- A route with a stop that has no name, and with something that routes do not have. -/
def sampleRouteGiven : Value :=
  .set .anonymous [.ofList [.text "north", .null], .null, .bool true]

/-- The route is put together from two stops and a speed. A fold visits these three. -/
theorem fold_visits_components_sampleRoute :
    ∃ a : Assembly, sampleRoute.Assembles [] sampleRouteGiven a ∧
      a.value = .ofList [.ofList [.text "north", .undefined], .text "slow"] ∧
      sampleRoute.fold [] collectLeaf [] sampleRouteGiven = .ok (a.components.foldl
        (fun seen c => collectLeaf c.range (Path.ofPositions c.chain) seen c.value) []) ∧
      sampleRoute.fold [] collectLeaf [] sampleRouteGiven =
        .ok [(Path.ofPositions [0, 0], .text "north"), (Path.ofPositions [0, 1], .undefined),
          (Path.ofPositions [1], .text "slow")] := by
  have hroute : sampleRoute.IsPositional := by
    refine .tuple fun range hrange => ?_
    simp only [List.mem_cons, List.not_mem_nil, or_false] at hrange
    rcases hrange with rfl | rfl
    · refine .anyOf fun range hrange => ?_
      simp only [List.mem_cons, List.not_mem_nil, or_false] at hrange
      rcases hrange with rfl | rfl
      · exact .sequence (.scalar rfl)
      · exact .sequence (.optional (.scalar rfl))
    · exact .optionalDefault (.scalar rfl) _
  have hv : sampleRoute.complete [] sampleRouteGiven =
      .ok (.ofList [.ofList [.text "north", .undefined], .text "slow"]) := rfl
  obtain ⟨a, ha, -, hvalue, -, -, hfold⟩ := fold_visits_components hroute hv
  exact ⟨a, ha, hvalue, hfold collectLeaf [], rfl⟩

end Range

end LayeredConfig
