import LayeredConfig.Entries.Ordered
import LayeredConfig.Slot

/-!
# Looking up in built maps

What `Entries.get?` finds in a map that was built from others.

- In entries with distinct keys, `get?` finds exactly what is there (`get?_eq_some_iff_mem`).
- Assigning entries one after the other is seen key by key (`get?_assignAll`, `get?_rebuild`): the
  entries count before what was there. Only the reserved key is left out of account, since it
  may not be created.
- The same for two maps joined (`get?_union`), a key taken out (`get?_without`) and values passed
  through a function (`get?_mapValues`).
- `Entries.before`: the entries that stand before a key, for walks that stop there.
-/

namespace LayeredConfig

namespace Entries

variable {α β : Type}

@[simp] theorem keys_nil : keys ([] : Entries α) = [] := rfl

@[simp] theorem keys_cons (k : String) (v : α) (rest : Entries α) :
    keys ((k, v) :: rest) = k :: keys rest := rfl

@[simp] theorem keys_append (es other : Entries α) :
    keys (es ++ other) = keys es ++ keys other := List.map_append

instance (es : Entries α) : Decidable (Ordered es) := inferInstanceAs (Decidable (_ ∧ _))

theorem Ordered.nodup {es : Entries α} (h : Ordered es) : (keys es).Nodup := h.1

theorem has_eq_false_iff {es : Entries α} {key : String} :
    has es key = false ↔ get? es key = none := by
  simp [has]

/-! ## Entries as members -/

theorem mem_of_get? {es : Entries α} {key : String} {v : α} (h : get? es key = some v) :
    (key, v) ∈ es := by
  induction es with
  | nil => cases h
  | cons e rest ih =>
    obtain ⟨k, w⟩ := e
    rw [get?_cons] at h
    split at h
    · rename_i hk
      cases h
      exact hk ▸ List.mem_cons_self
    · exact List.mem_cons_of_mem _ (ih h)

theorem mem_keys_of_get? {es : Entries α} {key : String} {v : α} (h : get? es key = some v) :
    key ∈ keys es := List.mem_map_of_mem (mem_of_get? h)

theorem ne_of_get? {es : Entries α} {k key : String} {v : α} (hk : k ∉ keys es)
    (h : get? es key = some v) : k ≠ key := by
  rintro rfl
  exact hk (mem_keys_of_get? h)

theorem get?_cons_eq_none_iff {es : Entries α} {k key : String} {v : α} :
    get? ((k, v) :: es) key = none ↔ k ≠ key ∧ get? es key = none := by
  by_cases h : k = key <;> simp [get?_cons, h]

/-- **Distinct keys make an entry the one that is found.** -/
theorem get?_eq_some_iff_mem {es : Entries α} (hn : (keys es).Nodup) {key : String} {v : α} :
    get? es key = some v ↔ (key, v) ∈ es := by
  refine ⟨mem_of_get?, fun h => ?_⟩
  induction es with
  | nil => cases h
  | cons e rest ih =>
    obtain ⟨k, w⟩ := e
    obtain ⟨hk, hn⟩ := List.nodup_cons.1 hn
    rw [get?_cons]
    rcases List.mem_cons.1 h with heq | hmem
    · cases heq
      exact if_pos rfl
    · have hne : k ≠ key := by
        rintro rfl
        exact hk (List.mem_map.2 ⟨_, hmem, rfl⟩)
      rw [if_neg hne, ih hn hmem]

/-- The order of entries with distinct keys does not matter to what is found. -/
theorem get?_eq_of_perm {es other : Entries α} (hn : (keys es).Nodup) (h : es.Perm other)
    (key : String) : get? es key = get? other key := by
  have hn' : (keys other).Nodup := (h.map Prod.fst).nodup_iff.1 hn
  refine Option.ext fun v => ?_
  rw [get?_eq_some_iff_mem hn, get?_eq_some_iff_mem hn', h.mem_iff]

theorem get?_append (es other : Entries α) (key : String) :
    get? (es ++ other) key = (get? es key).or (get? other key) := by
  induction es with
  | nil => rfl
  | cons e rest ih =>
    obtain ⟨k, v⟩ := e
    simp only [List.cons_append, get?_cons, ih]
    split <;> rfl

/-- **Entries are known by their keys and what is found under them.** -/
theorem ext_of_get? {es other : Entries α} (hkeys : keys es = keys other)
    (hn : (keys es).Nodup) (h : ∀ key ∈ keys es, get? es key = get? other key) : es = other := by
  induction es generalizing other with
  | nil => exact (List.map_eq_nil_iff.1 hkeys.symm).symm
  | cons e rest ih =>
    obtain ⟨k, v⟩ := e
    cases other with
    | nil => cases hkeys
    | cons e' rest' =>
      obtain ⟨k', v'⟩ := e'
      obtain ⟨rfl, hrest⟩ := List.cons.inj hkeys
      obtain ⟨hk, hn⟩ := List.nodup_cons.1 hn
      have hv : v = v' := by
        simpa [get?_cons] using h k List.mem_cons_self
      have hsame : ∀ key ∈ keys rest, get? rest key = get? rest' key := by
        intro key hkey
        have hne : k ≠ key := fun heq => hk (heq ▸ hkey)
        simpa [get?_cons, hne] using h key (List.mem_cons_of_mem _ hkey)
      rw [hv, ih hrest hn hsame]

/-! ## Assigning -/

/-- Assigning is seen under every key but the reserved one. -/
theorem get?_assign {key : String} (hkey : key ≠ reservedKey) (es : Entries α) (k : String)
    (v : α) : get? (assign es k v) key = if k = key then some v else get? es key := by
  by_cases hk : k = reservedKey
  · have hne : k ≠ key := by
      rintro rfl
      exact hkey hk
    rw [if_neg hne]
    unfold assign
    split
    · rfl
    · rw [get?_insert, if_neg hne]
  · exact get?_assign_of_ne hk es v key

theorem get?_assignAll {key : String} (hkey : key ≠ reservedKey) {es new : Entries α}
    (hn : (keys new).Nodup) :
    get? (assignAll es new) key = (get? new key).or (get? es key) := by
  induction new generalizing es with
  | nil => rfl
  | cons e rest ih =>
    obtain ⟨k, v⟩ := e
    obtain ⟨hk, hn⟩ := List.nodup_cons.1 hn
    show get? (assignAll (assign es k v) rest) key = _
    rw [ih hn, get?_assign hkey, get?_cons]
    by_cases heq : k = key
    · rw [heq] at hk
      have hrest : get? rest key = none := get?_eq_none_iff.2 hk
      simp [heq, hrest]
    · simp [heq]

/-- **A rebuilt map holds the entries it was rebuilt from,** the reserved key left aside. -/
theorem get?_rebuild {key : String} (hkey : key ≠ reservedKey) {es : Entries α}
    (hn : (keys es).Nodup) : get? (rebuild es) key = get? es key := by
  unfold rebuild
  rw [get?_assignAll hkey hn, get?_nil, Option.or_none]

/-- Assigning does not create the reserved key. -/
theorem get?_assign_reservedKey {es : Entries α} (h : get? es reservedKey = none) (k : String)
    (v : α) : get? (assign es k v) reservedKey = none := by
  unfold assign
  split
  · exact h
  · rename_i hcreate
    rw [get?_insert, h, if_neg]
    rintro rfl
    exact hcreate ⟨rfl, by rw [has, h]; rfl⟩

/-- **The reserved key is not in a rebuilt map.** -/
theorem reservedKey_not_mem_keys_rebuild (es : List (String × α)) :
    reservedKey ∉ keys (rebuild es) := by
  suffices hall : ∀ start : Entries α, get? start reservedKey = none →
      get? (assignAll start es) reservedKey = none from get?_eq_none_iff.1 (hall [] rfl)
  induction es with
  | nil => exact fun _ hstart => hstart
  | cons e rest ih => exact fun start hstart => ih _ (get?_assign_reservedKey hstart e.1 e.2)

/-! ## Joining, leaving out, mapping -/

theorem get?_union {es other : Entries α} (hn : (keys other).Nodup) (key : String) :
    get? (union es other) key = (get? other key).or (get? es key) := by
  induction other generalizing es with
  | nil => rfl
  | cons e rest ih =>
    obtain ⟨k, v⟩ := e
    obtain ⟨hk, hn⟩ := List.nodup_cons.1 hn
    show get? (union (insert es k v) rest) key = _
    rw [ih hn, get?_insert, get?_cons]
    by_cases heq : k = key
    · -- keys are distinct, so no later entry replaces this one
      rw [heq] at hk
      have hrest : get? rest key = none := get?_eq_none_iff.2 hk
      simp [heq, hrest]
    · simp [heq]

/-- The entries of all keys but one. -/
def without (es : Entries α) (key : String) : Entries α := es.filter fun e => e.1 ≠ key

theorem without_cons_self (key : String) (v : α) (rest : Entries α) :
    without ((key, v) :: rest) key = without rest key := List.filter_cons_of_neg (by simp)

theorem without_cons_of_ne {k key : String} (h : k ≠ key) (v : α) (rest : Entries α) :
    without ((k, v) :: rest) key = (k, v) :: without rest key :=
  List.filter_cons_of_pos (by simpa using h)

theorem get?_without (es : Entries α) (key other : String) :
    get? (without es key) other = if other = key then none else get? es other := by
  unfold without
  induction es with
  | nil => simp
  | cons e rest ih =>
    obtain ⟨k, v⟩ := e
    by_cases hk : k = key
    · subst hk
      rw [List.filter_cons_of_neg (by simp), ih, get?_cons]
      by_cases ho : other = k
      · simp [ho]
      · simp [ho, Ne.symm ho]
    · rw [List.filter_cons_of_pos (by simpa using hk), get?_cons, ih, get?_cons]
      by_cases ho : k = other
      · simp [ho, ho ▸ hk]
      · simp [ho]

theorem Ordered.without {es : Entries α} (h : Ordered es) (key : String) :
    Ordered (es.without key) := by
  have hsub : List.Sublist (keys (es.without key)) (keys es) :=
    List.filter_sublist.map Prod.fst
  exact ⟨h.1.sublist hsub, h.2.sublist hsub⟩

theorem mem_keys_of_mem_keys_without {es : Entries α} {key other : String}
    (h : other ∈ keys (es.without key)) : other ∈ keys es :=
  (List.filter_sublist.map Prod.fst).subset h

theorem without_of_not_mem {es : Entries α} {key : String} (hkey : key ∉ keys es) :
    es.without key = es := by
  refine List.filter_eq_self.2 fun e he => decide_eq_true ?_
  rintro rfl
  exact hkey (List.mem_map_of_mem he)

/-- A new entry that is taken out again leaves no trace. -/
theorem without_insert {es : Entries α} {key : String} (hkey : key ∉ keys es) (value : α) :
    (insert es key value).without key = es := by
  have hnew : has es key = false := has_eq_false_iff.2 (get?_eq_none_iff.2 hkey)
  have hself : es.without key = es := without_of_not_mem hkey
  rw [insert, if_neg (by simp [hnew])]
  clear hnew
  induction es with
  | nil => simp [place, Entries.without]
  | cons e rest ih =>
    obtain ⟨k, v⟩ := e
    rw [keys_cons, List.mem_cons, not_or] at hkey
    unfold Entries.without at ih hself ⊢
    rw [place]
    split
    · rw [List.filter_cons_of_neg (by simp), hself]
    · rw [List.filter_cons_of_pos (by simpa using Ne.symm hkey.1),
        ih hkey.2 (without_of_not_mem hkey.2)]

theorem get?_mapEntries (f : String → α → β) (es : Entries α) (key : String) :
    get? (es.map fun e => (e.1, f e.1 e.2)) key = (get? es key).map (f key) := by
  induction es with
  | nil => rfl
  | cons e rest ih =>
    obtain ⟨k, v⟩ := e
    simp only [List.map_cons, get?_cons, ih]
    split
    · rename_i hk
      rw [hk]
      rfl
    · rfl

theorem keys_mapEntries (f : String → α → β) (es : Entries α) :
    keys (es.map fun e => (e.1, f e.1 e.2)) = keys es := by
  simp [keys, List.map_map, Function.comp_def]

theorem get?_mapValues (f : α → β) (es : Entries α) (key : String) :
    get? (es.map fun e => (e.1, f e.2)) key = (get? es key).map f :=
  get?_mapEntries (fun _ => f) es key

theorem keys_mapValues (f : α → β) (es : Entries α) :
    keys (es.map fun e => (e.1, f e.2)) = keys es := keys_mapEntries (fun _ => f) es

/-! ## Before a key -/

/-- The entries that stand before a key; all of them, if it is not there. -/
def before (es : Entries α) (key : String) : Entries α := es.takeWhile fun e => e.1 ≠ key

theorem before_cons_self (k : String) (v : α) (rest : Entries α) :
    before ((k, v) :: rest) k = [] :=
  List.takeWhile_cons_of_neg (by simp)

theorem before_cons_of_ne {k key : String} (h : k ≠ key) (v : α) (rest : Entries α) :
    before ((k, v) :: rest) key = (k, v) :: rest.before key :=
  List.takeWhile_cons_of_pos (by simpa using h)

theorem before_of_get?_eq_none {es : Entries α} {key : String} (h : get? es key = none) :
    es.before key = es := by
  induction es with
  | nil => rfl
  | cons e rest ih =>
    obtain ⟨k, v⟩ := e
    rw [get?_cons] at h
    split at h
    · cases h
    · rename_i hne
      rw [before_cons_of_ne hne, ih h]

theorem eq_before_append {es : Entries α} {key : String} {v : α} (h : get? es key = some v) :
    ∃ rest, es = es.before key ++ (key, v) :: rest := by
  induction es with
  | nil => cases h
  | cons e rest ih =>
    obtain ⟨k, w⟩ := e
    rw [get?_cons] at h
    by_cases hk : k = key
    · subst hk
      rw [if_pos rfl] at h
      cases h
      exact ⟨rest, by rw [before_cons_self, List.nil_append]⟩
    · rw [if_neg hk] at h
      obtain ⟨later, hlater⟩ := ih h
      refine ⟨later, ?_⟩
      rw [before_cons_of_ne hk, List.cons_append, ← hlater]

theorem exists_eq_before_append (es : Entries α) (key : String) :
    ∃ rest, es = es.before key ++ rest :=
  ⟨es.dropWhile fun e => e.1 ≠ key, List.takeWhile_append_dropWhile.symm⟩

theorem get?_before (es : Entries α) (key : String) : get? (es.before key) key = none := by
  refine get?_eq_none_iff.2 fun hmem => ?_
  obtain ⟨e, he, hkey⟩ := List.mem_map.1 hmem
  have hne := List.all_eq_true.1 List.all_takeWhile e he
  exact of_decide_eq_true hne hkey

theorem mem_of_mem_before {es : Entries α} {key : String} {e : String × α}
    (h : e ∈ es.before key) : e ∈ es := List.takeWhile_subset _ h

/-- The entries before a key are those that the key comes after, or all if it is not there. -/
theorem mem_keys_before_iff {es : Entries α} (hn : (keys es).Nodup) {key next : String} :
    key ∈ keys (es.before next) ↔
      key ∈ keys es ∧ (next ∉ keys es ∨ [key, next].Sublist (keys es)) := by
  cases hnext : get? es next with
  | none =>
    have hnone : next ∉ keys es := get?_eq_none_iff.1 hnext
    rw [before_of_get?_eq_none hnext]
    exact ⟨fun h => ⟨h, .inl hnone⟩, fun h => h.1⟩
  | some v =>
    obtain ⟨rest, hes⟩ := eq_before_append hnext
    have hkeys : keys es = keys (es.before next) ++ next :: keys rest := by
      have heq := congrArg keys hes
      rwa [keys_append, keys_cons] at heq
    rw [hkeys] at hn ⊢
    constructor
    · intro h
      have hsub : [key, next].Sublist (keys (es.before next) ++ next :: keys rest) :=
        (List.singleton_sublist.2 h).append (List.singleton_sublist.2 List.mem_cons_self)
      exact ⟨List.mem_append_left _ h, .inr hsub⟩
    · rintro ⟨-, hnot | hsub⟩
      · exact absurd (List.mem_append_right _ List.mem_cons_self) hnot
      · -- behind `next` there is no room for both keys, since `next` stands there only once
        obtain ⟨first, second, hsplit, hfirst, hsecond⟩ := List.sublist_append_iff.1 hsub
        have hbehind : next ∉ keys rest :=
          (List.nodup_cons.1 (List.nodup_append.1 hn).2.1).1
        cases first with
        | cons k first =>
          obtain rfl : key = k := (List.cons.inj hsplit).1
          exact hfirst.subset List.mem_cons_self
        | nil =>
          obtain rfl : second = [key, next] := hsplit.symm
          cases hsecond with
          | cons _ h => exact absurd (h.subset (by simp)) hbehind
          | cons_cons _ h => exact absurd (h.subset (by simp)) hbehind

theorem nodup_before {es : Entries α} (hn : (keys es).Nodup) (key : String) :
    (keys (es.before key)).Nodup := by
  have hsub : (keys (es.before key)).Sublist (keys es) :=
    (List.takeWhile_sublist _).map Prod.fst
  exact hn.sublist hsub

end Entries

end LayeredConfig
