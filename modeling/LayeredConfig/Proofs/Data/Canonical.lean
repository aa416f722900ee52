import LayeredConfig.Proofs.Data.KeyOrder
import LayeredConfig.Proofs.Data.WellFormed
import LayeredConfig.Value.Copy

/-!
# Canonical sets and tables

Sets and tables are made in a form that making them again leaves alone. Copies are so only under a
condition (`LayeredConfig.Proofs.Data.Copies`).

- Sets: the members of a new set are distinct, and each is the stored form of one of the values put
  in (`pairwise_distinctMembers`, `mem_distinctMembers`). Distinct members in their stored form are
  kept as they are (`distinctMembers_eq_self`), and a set does not tell a value from its stored form
  (`distinctMembers_map_asMember`).
- Tables: the keys of a new table are the members of the set of all keys put in
  (`keys_distinctPairs`), so what is known of sets holds of them (`distinctPairs_eq_self`).
- Copies: the copy of a map without the reserved key has the same keys, in property order
  (`Entries.keys_copy_eq`).
-/

namespace LayeredConfig

namespace Value

/-! ## Sets -/

theorem pairwise_addMember {members : List Value} (v : Value)
    (h : members.Pairwise fun a b => a.sameMember b = false) :
    (addMember members v).Pairwise fun a b => a.sameMember b = false := by
  unfold addMember
  split
  · exact h
  · rename_i hnew
    refine List.pairwise_append.2 ⟨h, List.pairwise_singleton _ _, fun a ha b hb => ?_⟩
    obtain rfl := List.mem_singleton.1 hb
    rw [sameMember_symm, sameMember_asMember_left, sameMember_symm]
    simp only [List.any_eq_true, not_exists, not_and, Bool.not_eq_true] at hnew
    exact hnew a ha

theorem mem_addMember {members : List Value} {v m : Value} (h : m ∈ addMember members v) :
    m ∈ members ∨ m = v.asMember := by
  unfold addMember at h
  split at h
  · exact .inl h
  · exact (List.mem_append.1 h).imp_right List.mem_singleton.1

/-- A member that is new is added at the end. -/
theorem addMember_of_new {members : List Value} {v : Value}
    (h : ∀ m ∈ members, m.sameMember v = false) :
    addMember members v = members ++ [v.asMember] := by
  have hnew : members.any (·.sameMember v) = false := List.any_eq_false.2 fun m hm => by
    rw [h m hm]
    exact Bool.false_ne_true
  rw [addMember, hnew]
  rfl

theorem addMember_cons_of_new {m v : Value} (h : m.sameMember v = false) (rest : List Value) :
    addMember (m :: rest) v = m :: addMember rest v := by
  unfold addMember
  rw [List.any_cons, h, Bool.false_or]
  split <;> rfl

theorem pairwise_foldl_addMember {members : List Value} (vs : List Value)
    (h : members.Pairwise fun a b => a.sameMember b = false) :
    (vs.foldl addMember members).Pairwise fun a b => a.sameMember b = false := by
  induction vs generalizing members with
  | nil => exact h
  | cons v rest ih => exact ih (pairwise_addMember v h)

theorem mem_foldl_addMember {members vs : List Value} {m : Value}
    (h : m ∈ vs.foldl addMember members) : m ∈ members ∨ ∃ v ∈ vs, m = v.asMember := by
  induction vs generalizing members with
  | nil => exact .inl h
  | cons v rest ih =>
    rcases ih h with h | ⟨u, hu, rfl⟩
    · rcases mem_addMember h with h | rfl
      · exact .inl h
      · exact .inr ⟨v, List.mem_cons_self, rfl⟩
    · exact .inr ⟨u, List.mem_cons_of_mem v hu, rfl⟩

theorem foldl_addMember_eq_append {members vs : List Value}
    (h : (members ++ vs).Pairwise fun a b => a.sameMember b = false)
    (hstored : ∀ v ∈ vs, v.asMember = v) : vs.foldl addMember members = members ++ vs := by
  induction vs generalizing members with
  | nil => exact (List.append_nil members).symm
  | cons v rest ih =>
    have hnew : ∀ m ∈ members, m.sameMember v = false := fun m hm =>
      (List.pairwise_append.1 h).2.2 m hm v List.mem_cons_self
    rw [List.foldl_cons, addMember_of_new hnew, hstored v List.mem_cons_self]
    rw [ih (by simpa using h) fun u hu => hstored u (List.mem_cons_of_mem v hu)]
    exact List.append_cons members v rest |>.symm

/-- The members of a new set are distinct. -/
theorem pairwise_distinctMembers (vs : List Value) :
    (distinctMembers vs).Pairwise fun a b => a.sameMember b = false :=
  pairwise_foldl_addMember vs List.Pairwise.nil

/-- Every member of a new set is the stored form of a value that was put in. -/
theorem mem_distinctMembers {vs : List Value} {m : Value} (h : m ∈ distinctMembers vs) :
    ∃ v ∈ vs, m = v.asMember :=
  (mem_foldl_addMember h).resolve_left List.not_mem_nil

/-- **Distinct members in their stored form make up the set as they are.** -/
theorem distinctMembers_eq_self {vs : List Value}
    (h : vs.Pairwise fun a b => a.sameMember b = false)
    (hstored : ∀ v ∈ vs, v.asMember = v) : distinctMembers vs = vs :=
  foldl_addMember_eq_append h hstored

@[simp] theorem distinctMembers_distinctMembers (vs : List Value) :
    distinctMembers (distinctMembers vs) = distinctMembers vs := by
  refine distinctMembers_eq_self (pairwise_distinctMembers vs) fun m hm => ?_
  obtain ⟨v, -, rfl⟩ := mem_distinctMembers hm
  exact asMember_asMember v

/-- A member is added as it would be in the form in which it is stored. -/
theorem addMember_asMember (members : List Value) (v : Value) :
    addMember members v.asMember = addMember members v := by
  have hsame : ∀ m : Value, m.sameMember v.asMember = m.sameMember v := by
    intro m
    rw [sameMember_symm, sameMember_asMember_left, sameMember_symm]
  simp only [addMember, hsame, asMember_asMember]

/-- The members of a new set only depend on the forms in which they are stored. -/
theorem distinctMembers_map_asMember (vs : List Value) :
    distinctMembers (vs.map asMember) = distinctMembers vs := by
  unfold distinctMembers
  rw [List.foldl_map]
  simp only [addMember_asMember]

/-! ## Tables -/

/-- The keys of a table grow like the members of a set. -/
theorem keys_putPair (k v : Value) (ps : List (Value × Value)) :
    (putPair k v ps).map Prod.fst = addMember (ps.map Prod.fst) k := by
  induction ps with
  | nil => rfl
  | cons p rest ih =>
    obtain ⟨k', v'⟩ := p
    by_cases hsame : k'.sameMember k = true
    · simp [putPair, addMember, hsame]
    · rw [putPair, if_neg hsame, List.map_cons, ih, List.map_cons]
      rw [addMember_cons_of_new (by simpa using hsame)]

theorem mem_values_putPair {k v : Value} {ps : List (Value × Value)} {p : Value × Value}
    (h : p ∈ putPair k v ps) : p.2 = v ∨ ∃ q ∈ ps, p.2 = q.2 := by
  induction ps with
  | nil =>
    obtain rfl := List.mem_singleton.1 h
    exact .inl rfl
  | cons q rest ih =>
    obtain ⟨k', v'⟩ := q
    rw [putPair] at h
    split at h
    · rcases List.mem_cons.1 h with rfl | h
      · exact .inl rfl
      · exact .inr ⟨p, List.mem_cons_of_mem _ h, rfl⟩
    · rcases List.mem_cons.1 h with rfl | h
      · exact .inr ⟨(k', v'), List.mem_cons_self, rfl⟩
      · rcases ih h with h | ⟨q, hq, h⟩
        · exact .inl h
        · exact .inr ⟨q, List.mem_cons_of_mem _ hq, h⟩

/-- A pair with a new key is put at the end. -/
theorem putPair_of_new {k : Value} {ps : List (Value × Value)}
    (h : ∀ p ∈ ps, p.1.sameMember k = false) (v : Value) :
    putPair k v ps = ps ++ [(k.asMember, v)] := by
  induction ps with
  | nil => rfl
  | cons p rest ih =>
    have hk : p.1.sameMember k = false := h p List.mem_cons_self
    rw [putPair, hk, if_neg Bool.false_ne_true,
      ih fun q hq => h q (List.mem_cons_of_mem p hq)]
    rfl

theorem keys_foldl_putPair (table pairs : List (Value × Value)) :
    (pairs.foldl (fun table pair => putPair pair.1 pair.2 table) table).map Prod.fst =
      (pairs.map Prod.fst).foldl addMember (table.map Prod.fst) := by
  induction pairs generalizing table with
  | nil => rfl
  | cons p rest ih =>
    rw [List.foldl_cons, ih, keys_putPair]
    rfl

theorem mem_values_foldl_putPair {table pairs : List (Value × Value)} {p : Value × Value}
    (h : p ∈ pairs.foldl (fun table pair => putPair pair.1 pair.2 table) table) :
    (∃ q ∈ table, p.2 = q.2) ∨ ∃ q ∈ pairs, p.2 = q.2 := by
  induction pairs generalizing table with
  | nil => exact .inl ⟨p, h, rfl⟩
  | cons pair rest ih =>
    rcases ih h with ⟨q, hq, hp⟩ | ⟨q, hq, hp⟩
    · rcases mem_values_putPair hq with hv | ⟨q', hq', hv⟩
      · exact .inr ⟨pair, List.mem_cons_self, hp.trans hv⟩
      · exact .inl ⟨q', hq', hp.trans hv⟩
    · exact .inr ⟨q, List.mem_cons_of_mem pair hq, hp⟩

theorem foldl_putPair_eq_append {table pairs : List (Value × Value)}
    (h : ((table ++ pairs).map Prod.fst).Pairwise fun a b => a.sameMember b = false)
    (hstored : ∀ p ∈ pairs, p.1.asMember = p.1) :
    pairs.foldl (fun table pair => putPair pair.1 pair.2 table) table = table ++ pairs := by
  induction pairs generalizing table with
  | nil => exact (List.append_nil table).symm
  | cons p rest ih =>
    have hnew : ∀ q ∈ table, q.1.sameMember p.1 = false := by
      rw [List.map_append, List.pairwise_append] at h
      intro q hq
      exact h.2.2 q.1 (List.mem_map_of_mem hq) p.1 (List.mem_map_of_mem List.mem_cons_self)
    rw [List.foldl_cons, putPair_of_new hnew, hstored p List.mem_cons_self]
    rw [ih (by simpa using h) fun q hq => hstored q (List.mem_cons_of_mem p hq)]
    exact List.append_cons table p rest |>.symm

/-- **The keys of a new table are the members of the set of all keys put in.** -/
theorem keys_distinctPairs (pairs : List (Value × Value)) :
    (distinctPairs pairs).map Prod.fst = distinctMembers (pairs.map Prod.fst) :=
  keys_foldl_putPair [] pairs

/-- Every key of a new table is the stored form of a key that was put in. -/
theorem mem_keys_distinctPairs {pairs : List (Value × Value)} {p : Value × Value}
    (h : p ∈ distinctPairs pairs) : ∃ q ∈ pairs, p.1 = q.1.asMember := by
  have hkey : p.1 ∈ distinctMembers (pairs.map Prod.fst) := by
    rw [← keys_distinctPairs]
    exact List.mem_map_of_mem h
  obtain ⟨k, hk, hp⟩ := mem_distinctMembers hkey
  obtain ⟨q, hq, rfl⟩ := List.mem_map.1 hk
  exact ⟨q, hq, hp⟩

/-- Every value of a new table is one that was put in. -/
theorem mem_values_distinctPairs {pairs : List (Value × Value)} {p : Value × Value}
    (h : p ∈ distinctPairs pairs) : ∃ q ∈ pairs, p.2 = q.2 := by
  rcases mem_values_foldl_putPair h with ⟨q, hq, -⟩ | hvalue
  · cases hq
  · exact hvalue

@[simp] theorem distinctPairs_distinctPairs (pairs : List (Value × Value)) :
    distinctPairs (distinctPairs pairs) = distinctPairs pairs := by
  have hkeys : ((distinctPairs pairs).map Prod.fst).Pairwise fun a b => a.sameMember b = false := by
    rw [keys_distinctPairs]
    exact pairwise_distinctMembers _
  refine foldl_putPair_eq_append hkeys fun p hp => ?_
  obtain ⟨q, -, hkey⟩ := mem_keys_distinctPairs hp
  rw [hkey, asMember_asMember]

/-! ## Copies -/

theorem copy_ofList (vs : List Value) : (ofList vs).copy = ofList (vs.map copy) := by
  rw [ofList, copy, copyList_eq_map]

@[simp] theorem isNil_copy (v : Value) : v.copy.isNil = v.isNil := by
  cases v with
  | object _ _ es => exact isNil_ofAssigned _
  | _ => rfl

end Value

/-- A copied map lists its keys in property order. -/
theorem Entries.keys_copy_eq {es : Entries Value} (hn : (keys es).Nodup)
    (hr : reservedKey ∉ keys es) : keys es.copy = propertyOrder (keys es) := by
  have hkeys := Value.keys_copyEntries es
  rw [Entries.copy, keys_rebuild (hkeys ▸ hn) (hkeys ▸ hr), hkeys]

/-- Keys in property order are listed as they were. -/
theorem Entries.keys_copy {es : Entries Value} (h : Ordered es) (hr : reservedKey ∉ keys es) :
    keys es.copy = keys es := by
  rw [Entries.keys_copy_eq h.nodup hr, h.propertyOrder_keys]

end LayeredConfig
