import LayeredConfig.Proofs.Data.Canonical
import Mathlib.Data.List.Pairwise

/-!
# First and last occurrences

Which of the values that are put into a set or a table are found in it, and where.

- `Value.firstsBy`: the elements of a list whose key is none that was there before, in the order of
  the list. This is what is left of all that was put in (`Value.distinctMembers_eq`).
- `Value.lastValue`: the value of the last pair with the key of a given one. In a table, every key
  stands where it occurred first, with the value of its last occurrence
  (`Value.distinctPairs_eq`).

Both follow the set or table along the list that is put in: what there is after some elements is
described exactly, and so is what one more of them adds (`firstsBy_concat`, `lastValue_concat`).
-/

namespace LayeredConfig

namespace Value

variable {α : Type} {key : α → Value}

/-! ## First occurrences -/

/-- The elements whose key is one member with the key of no element before them, `earlier` being
what comes before the list. -/
def firstsAfter (key : α → Value) : (earlier xs : List α) → List α
  | _, [] => []
  | earlier, x :: rest =>
    if earlier.any fun y => (key y).sameMember (key x) then firstsAfter key (earlier ++ [x]) rest
    else x :: firstsAfter key (earlier ++ [x]) rest

/-- The elements of a list whose key is one member with the key of no earlier element. -/
def firstsBy (key : α → Value) (xs : List α) : List α := firstsAfter key [] xs

theorem firstsAfter_concat (key : α → Value) (earlier xs : List α) (x : α) :
    firstsAfter key earlier (xs ++ [x]) = firstsAfter key earlier xs ++
      if (earlier ++ xs).any fun y => (key y).sameMember (key x) then [] else [x] := by
  induction xs generalizing earlier with
  | nil =>
    rw [List.append_nil]
    simp only [List.nil_append, firstsAfter]
  | cons y rest ih =>
    simp only [List.cons_append, firstsAfter, ih, List.append_assoc]
    split <;> rfl

/-- **One more element** is a first occurrence if its key is not there yet. -/
theorem firstsBy_concat (key : α → Value) (xs : List α) (x : α) :
    firstsBy key (xs ++ [x]) = firstsBy key xs ++
      if xs.any fun y => (key y).sameMember (key x) then [] else [x] :=
  firstsAfter_concat key [] xs x

theorem mem_of_mem_firstsBy {xs : List α} {x : α} (h : x ∈ firstsBy key xs) : x ∈ xs := by
  induction xs using List.reverseRecOn with
  | nil => cases h
  | append_singleton xs y ih =>
    rw [firstsBy_concat, List.mem_append] at h
    rcases h with h | h
    · exact List.mem_append_left _ (ih h)
    · split at h
      · cases h
      · exact List.mem_append_right _ h

theorem length_firstsBy_le (key : α → Value) (xs : List α) :
    (firstsBy key xs).length ≤ xs.length := by
  induction xs using List.reverseRecOn with
  | nil => exact Nat.le_refl 0
  | append_singleton xs y ih =>
    rw [firstsBy_concat]
    split <;> simp <;> omega

/-- **There are as many first occurrences as elements** iff no two of them have one key. -/
theorem length_firstsBy_eq_iff {xs : List α} :
    (firstsBy key xs).length = xs.length ↔
      xs.Pairwise fun x y => (key x).sameMember (key y) = false := by
  induction xs using List.reverseRecOn with
  | nil => exact ⟨fun _ => .nil, fun _ => rfl⟩
  | append_singleton xs y ih =>
    have hnew : (xs.any fun x => (key x).sameMember (key y)) = false ↔
        ∀ x ∈ xs, ∀ z ∈ [y], (key x).sameMember (key z) = false := by
      simp [List.any_eq_false]
    have hle := length_firstsBy_le key xs
    rw [firstsBy_concat, List.pairwise_append, ← ih, ← hnew, List.length_append, List.length_append]
    cases hany : xs.any fun x => (key x).sameMember (key y) with
    | true => simp; omega
    | false => simp

/-- Elements of which no two have one key are all first occurrences. -/
theorem firstsBy_eq_self {xs : List α}
    (h : xs.Pairwise fun x y => (key x).sameMember (key y) = false) : firstsBy key xs = xs := by
  induction xs using List.reverseRecOn with
  | nil => rfl
  | append_singleton xs y ih =>
    obtain ⟨hxs, -, hnew⟩ := List.pairwise_append.1 h
    have hany : (xs.any fun x => (key x).sameMember (key y)) = false := by
      refine List.any_eq_false.2 fun x hx => ?_
      rw [hnew x hx y List.mem_cons_self]
      exact Bool.false_ne_true
    rw [firstsBy_concat, ih hxs, hany]
    rfl

/-! ## Sets -/

theorem any_addMember (members : List Value) (v u : Value) :
    (addMember members v).any (·.sameMember u) =
      (members.any (·.sameMember u) || v.sameMember u) := by
  unfold addMember
  split
  · rename_i hold
    obtain ⟨m, hm, hsame⟩ := List.any_eq_true.1 hold
    cases hv : v.sameMember u with
    | false => rw [Bool.or_false]
    | true =>
      -- the member that was there already is also one with the value that is looked for
      rw [Bool.or_true]
      exact List.any_eq_true.2 ⟨m, hm, sameMember_trans hsame hv⟩
  · rw [List.any_append]
    simp

/-- A new set has a value as a member iff one of the values put in is one with it. -/
theorem any_distinctMembers (vs : List Value) (u : Value) :
    (distinctMembers vs).any (·.sameMember u) = vs.any (·.sameMember u) := by
  induction vs using List.reverseRecOn with
  | nil => rfl
  | append_singleton vs v ih =>
    rw [distinctMembers, List.foldl_concat, any_addMember, ← distinctMembers, ih]
    simp

/-- **The members of a new set:** the values that are put in, each where it occurs first, in the
form in which they are stored. -/
theorem distinctMembers_eq (vs : List Value) :
    distinctMembers vs = (firstsBy id vs).map asMember := by
  induction vs using List.reverseRecOn with
  | nil => rfl
  | append_singleton vs v ih =>
    have hstep : distinctMembers (vs ++ [v]) = addMember (distinctMembers vs) v :=
      List.foldl_concat _ _ _ _
    rw [hstep, addMember, any_distinctMembers, ih, firstsBy_concat]
    simp only [id]
    split <;> simp

/-! ## Tables -/

/-- The value of the last pair whose key is one member with that of a given pair. A key that is no
member with itself occurs in that pair only. -/
def lastValue (ps : List (Value × Value)) (p : Value × Value) : Value :=
  ((ps.filter fun q => p.1.sameMember q.1).getLast?.getD p).2

theorem lastValue_concat (ps : List (Value × Value)) (q p : Value × Value) :
    lastValue (ps ++ [q]) p = if p.1.sameMember q.1 then q.2 else lastValue ps p := by
  unfold lastValue
  cases h : p.1.sameMember q.1 <;> simp [h]

/-- The value of the last pair of all is its own. -/
theorem lastValue_concat_self (ps : List (Value × Value)) (q : Value × Value) :
    lastValue (ps ++ [q]) q = q.2 := by
  rw [lastValue_concat]
  split
  · rfl
  · rename_i hself
    have hnone : q.1.memberKey? = none := Option.eq_none_iff_forall_ne_some.2 fun k hk =>
      hself (sameMember_iff.2 ⟨k, hk, hk⟩)
    have hfilter : (ps.filter fun p => q.1.sameMember p.1) = [] := by
      refine List.filter_eq_nil_iff.2 fun p _ => ?_
      rw [sameMember_of_memberKey?_eq_none hnone]
      exact Bool.false_ne_true
    rw [lastValue, hfilter]
    rfl

/-- The value of a pair whose key is none of the others is its own. -/
theorem lastValue_of_pairwise {ps : List (Value × Value)}
    (h : ps.Pairwise fun p q => p.1.sameMember q.1 = false) {p : Value × Value} (hp : p ∈ ps) :
    lastValue ps p = p.2 := by
  unfold lastValue
  cases hlast : (ps.filter fun q => p.1.sameMember q.1).getLast? with
  | none => rfl
  | some q =>
    obtain ⟨hq, hsame⟩ := List.mem_filter.1 (List.mem_of_getLast? hlast)
    have : Std.Symm fun p q : Value × Value => p.1.sameMember q.1 = false :=
      ⟨fun p q hpq => (sameMember_symm q.1 p.1).trans hpq⟩
    by_cases heq : p = q
    · rw [heq]
      rfl
    · rw [h.forall hp hq heq] at hsame
      cases hsame

/-- A key that is there already is given another value. -/
theorem putPair_of_mem {k v : Value} {ps : List (Value × Value)}
    (hdistinct : (ps.map Prod.fst).Pairwise fun a b => a.sameMember b = false)
    (h : ∃ p ∈ ps, p.1.sameMember k = true) :
    putPair k v ps = ps.map fun p => if p.1.sameMember k then (p.1, v) else p := by
  induction ps with
  | nil => simp at h
  | cons p rest ih =>
    obtain ⟨hp, hrest⟩ := List.pairwise_cons.1 hdistinct
    by_cases hsame : p.1.sameMember k = true
    · -- no other pair has the key
      have hothers : ∀ q ∈ rest, (if q.1.sameMember k then (q.1, v) else q) = q := by
        intro q hq
        refine if_neg fun hqk => ?_
        rw [sameMember_symm] at hqk
        have hpq := sameMember_trans hsame hqk
        rw [hp q.1 (List.mem_map_of_mem hq)] at hpq
        cases hpq
      rw [putPair, if_pos hsame, List.map_cons, if_pos hsame, List.map_congr_left hothers,
        List.map_id']
    · have hlater : ∃ q ∈ rest, q.1.sameMember k = true := by
        obtain ⟨q, hq, hqk⟩ := h
        rcases List.mem_cons.1 hq with rfl | hq
        · exact absurd hqk hsame
        · exact ⟨q, hq, hqk⟩
      rw [putPair, if_neg hsame, List.map_cons, if_neg hsame, ih hrest hlater]

/-- **The pairs of a new table:** every key that is put in, where it occurs first and in the form in
which it is stored, with the value that was put in last for it. -/
theorem distinctPairs_eq (ps : List (Value × Value)) :
    distinctPairs ps = (firstsBy Prod.fst ps).map fun p => (p.1.asMember, lastValue ps p) := by
  induction ps using List.reverseRecOn with
  | nil => rfl
  | append_singleton ps q ih =>
    have hstep : distinctPairs (ps ++ [q]) = putPair q.1 q.2 (distinctPairs ps) :=
      List.foldl_concat _ _ _ _
    have hany : (distinctPairs ps).any (·.1.sameMember q.1) = ps.any (·.1.sameMember q.1) := by
      have hkeys := any_distinctMembers (ps.map Prod.fst) q.1
      rwa [← keys_distinctPairs, List.any_map, List.any_map] at hkeys
    rw [hstep, firstsBy_concat]
    cases hold : ps.any (·.1.sameMember q.1) with
    | true =>
      rw [hold, List.any_eq_true] at hany
      have hdistinct : ((distinctPairs ps).map Prod.fst).Pairwise
          fun a b => a.sameMember b = false := by
        rw [keys_distinctPairs]
        exact pairwise_distinctMembers _
      rw [putPair_of_mem hdistinct hany, ih, List.map_map, if_pos rfl, List.append_nil]
      refine List.map_congr_left fun p _ => ?_
      simp only [Function.comp_apply, lastValue_concat, sameMember_asMember_left]
      split <;> rfl
    | false =>
      rw [hold, List.any_eq_false] at hany
      rw [putPair_of_new (by simpa using hany), ih, if_neg Bool.false_ne_true, List.map_append]
      congr 1
      · refine List.map_congr_left fun p hp => ?_
        have hne : p.1.sameMember q.1 = false := by
          simpa using List.any_eq_false.1 hold p (mem_of_mem_firstsBy hp)
        rw [lastValue_concat, hne, if_neg Bool.false_ne_true]
      · rw [List.map_singleton, lastValue_concat_self]

end Value

end LayeredConfig
