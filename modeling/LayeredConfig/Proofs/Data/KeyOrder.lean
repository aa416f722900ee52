import LayeredConfig.Number.Decimal
import LayeredConfig.Proofs.Data.Lookup
import Mathlib.Data.List.Induction
import Mathlib.Data.List.Sort

/-!
# The order of keys

In which order a map that is built entry by entry lists its keys.

- `propertyOrder`: the index keys of a list ascending by their numbers, then its other keys as they
  come. An index key is known by its number (`indexKey?_injective`), so this order depends on the
  keys that there are and on the order of the other ones, and on nothing else
  (`propertyOrder_congr`).
- `Entries.keys_rebuild`: a rebuilt map lists its keys in that order; `Entries.namedKeys_union`: a
  joined map lists the keys of the first one, then the new ones of the second.
-/

namespace LayeredConfig

/-! ## Index keys -/

namespace Number

theorem ofDigits_concat (ds : List Char) (c : Char) :
    ofDigits 0 (ds ++ [c]) = 10 * ofDigits 0 ds + (c.toNat - '0'.toNat) := by
  simp [ofDigits, List.foldl_append]

theorem isDigit_iff {c : Char} : c.isDigit = true ↔ 48 ≤ c.toNat ∧ c.toNat ≤ 57 := by
  unfold Char.isDigit
  simp [UInt32.le_iff_toNat_le]

/-- Without a zero in front, digits denote a positive number. -/
theorem ofDigits_pos {ds : List Char} (hds : ∀ c ∈ ds, c.isDigit = true) (hne : ds ≠ [])
    (hzero : ds.head? ≠ some '0') : 0 < ofDigits 0 ds := by
  induction ds using List.reverseRecOn with
  | nil => exact absurd rfl hne
  | append_singleton ds c ih =>
    rw [ofDigits_concat]
    by_cases hnil : ds = []
    · subst hnil
      have hc := isDigit_iff.1 (hds c (by simp))
      have hne : c.toNat ≠ '0'.toNat := fun h => hzero (congrArg some (Char.toNat_inj.1 h))
      have hcode : '0'.toNat = 48 := rfl
      omega
    · have hfront : 0 < ofDigits 0 ds := by
        refine ih (fun d hd => hds d (List.mem_append_left _ hd)) hnil ?_
        rwa [List.head?_append_of_ne_nil _ hnil] at hzero
      omega

/-- Without a zero in front, digits are known by the number that they denote. -/
theorem ofDigits_injective {ds es : List Char} (hds : ∀ c ∈ ds, c.isDigit = true)
    (hes : ∀ c ∈ es, c.isDigit = true) (hd : ds.head? ≠ some '0') (he : es.head? ≠ some '0')
    (h : ofDigits 0 ds = ofDigits 0 es) : ds = es := by
  induction ds using List.reverseRecOn generalizing es with
  | nil =>
    refine Decidable.byContradiction fun hne => ?_
    have hpos : 0 < ofDigits 0 es := ofDigits_pos hes (Ne.symm hne) he
    rw [← h] at hpos
    exact absurd hpos (by decide)
  | append_singleton ds c ih =>
    rcases List.eq_nil_or_concat es with rfl | ⟨es, d, rfl⟩
    · have hpos : 0 < ofDigits 0 (ds ++ [c]) := ofDigits_pos hds (by simp) hd
      rw [h] at hpos
      exact absurd hpos (by decide)
    · rw [List.concat_eq_append] at *
      rw [ofDigits_concat, ofDigits_concat] at h
      have hc := isDigit_iff.1 (hds c (by simp))
      have hc' := isDigit_iff.1 (hes d (by simp))
      have hcode : '0'.toNat = 48 := rfl
      -- the last digit is the remainder by ten, the others are the quotient
      have hlast : c = d := Char.toNat_inj.1 (by omega)
      have hfront : ofDigits 0 ds = ofDigits 0 es := by omega
      have hhead : ∀ {xs : List Char} {x : Char}, (xs ++ [x]).head? ≠ some '0' →
          xs.head? ≠ some '0' := by
        intro xs x hx
        cases xs with
        | nil => simp
        | cons y ys => exact hx
      rw [hlast, ih (fun x hx => hds x (List.mem_append_left _ hx))
        (fun x hx => hes x (List.mem_append_left _ hx)) (hhead hd) (hhead he) hfront]

end Number

/-- The digits of an index key: a zero alone, or digits without a zero in front. -/
theorem digits_of_indexKey? {key : String} {n : Nat} (h : indexKey? key = some n) :
    (∀ c ∈ key.toList, c.isDigit = true) ∧ Number.ofDigits 0 key.toList = n ∧
      (key.toList = ['0'] ∨ key.toList ≠ [] ∧ key.toList.head? ≠ some '0') := by
  simp only [indexKey?] at h
  split at h
  · cases h
  · rename_i hdigits
    simp only [Bool.or_eq_true, List.isEmpty_iff, Bool.not_eq_true', not_or,
      Bool.not_eq_false, List.all_eq_true] at hdigits
    split at h
    · cases h
    · rename_i hzero
      split at h
      · refine ⟨hdigits.2, Option.some.inj h, ?_⟩
        by_cases hhead : key.toList.head? = some '0'
        · have hlength : key.toList.length = 1 := by simpa [hhead] using hzero
          obtain ⟨c, hc⟩ := List.length_eq_one_iff.1 hlength
          rw [hc] at hhead ⊢
          exact .inl (congrArg (fun x => [x]) (Option.some.inj hhead))
        · exact .inr ⟨hdigits.1, hhead⟩
      · cases h

/-- **An index key is known by its number.** -/
theorem indexKey?_injective {a b : String} {n : Nat} (ha : indexKey? a = some n)
    (hb : indexKey? b = some n) : a = b := by
  obtain ⟨hda, hna, hza⟩ := digits_of_indexKey? ha
  obtain ⟨hdb, hnb, hzb⟩ := digits_of_indexKey? hb
  have hzero : Number.ofDigits 0 ['0'] = 0 := rfl
  refine String.toList_inj.1 ?_
  rcases hza with hza | ⟨hnea, hza⟩
  · rcases hzb with hzb | ⟨hneb, hzb⟩
    · rw [hza, hzb]
    · have hpos := Number.ofDigits_pos hdb hneb hzb
      rw [hza] at hna
      omega
  · rcases hzb with hzb | ⟨-, hzb⟩
    · have hpos := Number.ofDigits_pos hda hnea hza
      rw [hzb] at hnb
      omega
    · exact Number.ofDigits_injective hda hdb hza hzb (hna.trans hnb.symm)

/-! ## Property order -/

/-- Whether a key is an index key. -/
def isIndexKey (key : String) : Bool := (indexKey? key).isSome

/-- The number of an index key. -/
def indexNumber (key : String) : Nat := (indexKey? key).getD 0

/-- The first key has no greater number than the second one. -/
def NumberedUpTo (a b : String) : Prop := indexNumber a ≤ indexNumber b

instance : DecidableRel NumberedUpTo := fun a b => Nat.decLe (indexNumber a) (indexNumber b)

instance : Std.Total NumberedUpTo := ⟨fun a b => Nat.le_total (indexNumber a) (indexNumber b)⟩

instance : IsTrans String NumberedUpTo := ⟨fun _ _ _ h h' => Nat.le_trans h h'⟩

/-- The keys that are no index keys, as they come. -/
def namedKeys (ks : List String) : List String := ks.filter fun key => !isIndexKey key

/-- The keys in property order: index keys ascending by number, then the other keys as they
come. -/
def propertyOrder (ks : List String) : List String :=
  (ks.filter isIndexKey).insertionSort NumberedUpTo ++ namedKeys ks

theorem goesBefore_of_isIndexKey {a b : String} (ha : isIndexKey a = true)
    (hb : isIndexKey b = true) : goesBefore a b = decide (indexNumber a < indexNumber b) := by
  unfold isIndexKey at ha hb
  obtain ⟨m, hm⟩ := Option.isSome_iff_exists.1 ha
  obtain ⟨n, hn⟩ := Option.isSome_iff_exists.1 hb
  simp [goesBefore, indexNumber, hm, hn]

theorem goesBefore_of_named {a b : String} (ha : isIndexKey a = false) :
    goesBefore a b = false := by
  have hnone : indexKey? a = none := by simpa [isIndexKey] using ha
  simp [goesBefore, hnone]

theorem perm_propertyOrder (ks : List String) : (propertyOrder ks).Perm ks :=
  (List.Perm.append_right _ (List.perm_insertionSort _ _)).trans
    (List.filter_append_perm isIndexKey ks)

@[simp] theorem mem_propertyOrder {ks : List String} {key : String} :
    key ∈ propertyOrder ks ↔ key ∈ ks := (perm_propertyOrder ks).mem_iff

theorem nodup_propertyOrder {ks : List String} (h : ks.Nodup) : (propertyOrder ks).Nodup :=
  (perm_propertyOrder ks).nodup_iff.2 h

@[simp] theorem namedKeys_propertyOrder (ks : List String) :
    namedKeys (propertyOrder ks) = namedKeys ks := by
  have hindex : namedKeys ((ks.filter isIndexKey).insertionSort NumberedUpTo) = [] := by
    refine List.filter_eq_nil_iff.2 fun key hkey => ?_
    have hmem := (List.mem_insertionSort NumberedUpTo).1 hkey
    simp [(List.mem_filter.1 hmem).2]
  unfold propertyOrder
  rw [namedKeys, List.filter_append, ← namedKeys, ← namedKeys, hindex, List.nil_append]
  simp [namedKeys]

/-- **Property order depends on which keys there are, and on the order of those that are no index
keys.** -/
theorem propertyOrder_congr {ks ks' : List String} (hn : ks.Nodup) (hn' : ks'.Nodup)
    (hmem : ∀ key, key ∈ ks ↔ key ∈ ks') (hnamed : namedKeys ks = namedKeys ks') :
    propertyOrder ks = propertyOrder ks' := by
  have hperm : ((ks.filter isIndexKey).insertionSort NumberedUpTo).Perm
      ((ks'.filter isIndexKey).insertionSort NumberedUpTo) :=
    (List.perm_insertionSort _ _).trans
      ((((List.perm_ext_iff_of_nodup hn hn').2 hmem).filter isIndexKey).trans
        (List.perm_insertionSort _ _).symm)
  unfold propertyOrder
  rw [hnamed]
  congr 1
  refine hperm.eq_of_pairwise ?_ (List.pairwise_insertionSort _ _)
    (List.pairwise_insertionSort _ _)
  -- two index keys of one number are one key
  intro a b ha hb hab hba
  have hindex : ∀ {xs : List String} {x : String},
      x ∈ (xs.filter isIndexKey).insertionSort NumberedUpTo →
        indexKey? x = some (indexNumber x) := by
    intro xs x hx
    have hmem := (List.mem_filter.1 ((List.mem_insertionSort NumberedUpTo).1 hx)).2
    obtain ⟨n, hn⟩ := Option.isSome_iff_exists.1 hmem
    simp [indexNumber, hn]
  have hnumber : indexNumber a = indexNumber b := Nat.le_antisymm hab hba
  exact indexKey?_injective (hindex ha) (hnumber ▸ hindex hb)

theorem propertyOrder_propertyOrder {ks : List String} (hn : ks.Nodup) :
    propertyOrder (propertyOrder ks) = propertyOrder ks :=
  propertyOrder_congr (nodup_propertyOrder hn) hn (fun _ => mem_propertyOrder)
    (namedKeys_propertyOrder ks)

theorem goesBefore_named {a b : String} (ha : isIndexKey a = true) (hb : isIndexKey b = false) :
    goesBefore a b = true := by
  unfold isIndexKey at ha hb
  obtain ⟨m, hm⟩ := Option.isSome_iff_exists.1 ha
  have hnone : indexKey? b = none := by simpa using hb
  simp [goesBefore, hm, hnone]

/-- Where no key goes before an earlier one, the index keys stand in front. -/
theorem filter_append_namedKeys {ks : List String}
    (h : ks.Pairwise fun a b => goesBefore b a = false) :
    ks.filter isIndexKey ++ namedKeys ks = ks := by
  induction ks with
  | nil => rfl
  | cons key rest ih =>
    obtain ⟨hfirst, hrest⟩ := List.pairwise_cons.1 h
    cases hkey : isIndexKey key with
    | true =>
      have hnamed : namedKeys (key :: rest) = namedKeys rest := by
        simp [namedKeys, hkey]
      rw [List.filter_cons_of_pos hkey, hnamed, List.cons_append, ih hrest]
    | false =>
      -- an index key behind this one would go before it
      have hall : ∀ k ∈ rest, isIndexKey k = false := by
        intro k hk
        refine Bool.eq_false_iff.2 fun hindex => ?_
        have hbefore := hfirst k hk
        rw [goesBefore_named hindex hkey] at hbefore
        cases hbefore
      have hnone : (key :: rest).filter isIndexKey = [] := by
        simpa [hkey] using hall
      have hnamed : namedKeys (key :: rest) = key :: rest := by
        simpa [namedKeys, hkey] using hall
      rw [hnone, hnamed, List.nil_append]

/-- Keys that stand in property order stay where they are. -/
theorem propertyOrder_eq_self {ks : List String}
    (h : ks.Pairwise fun a b => goesBefore b a = false) : propertyOrder ks = ks := by
  have hsorted : (ks.filter isIndexKey).Pairwise NumberedUpTo := by
    refine (h.filter isIndexKey).imp_of_mem fun ha hb hab => ?_
    rw [goesBefore_of_isIndexKey (List.mem_filter.1 hb).2 (List.mem_filter.1 ha).2] at hab
    exact Nat.le_of_not_lt (of_decide_eq_false hab)
  unfold propertyOrder
  rw [hsorted.insertionSort_eq, filter_append_namedKeys h]

/-! ## Built maps -/

namespace Entries

variable {α : Type}

/-- **Ordered entries list their keys in property order.** -/
theorem Ordered.propertyOrder_keys {es : Entries α} (h : Ordered es) :
    propertyOrder (keys es) = keys es := propertyOrder_eq_self h.2

theorem mem_keys_insert {es : Entries α} {key : String} {value : α} {k : String} :
    k ∈ keys (insert es key value) ↔ k = key ∨ k ∈ keys es := by
  unfold insert
  split
  · rename_i hhas
    rw [keys_replace]
    exact ⟨.inr, fun h => h.elim (fun heq => heq ▸ has_iff.1 hhas) id⟩
  · exact mem_keys_place

/-- A new key that is no index key comes last of those. -/
theorem namedKeys_place (key : String) (value : α) (es : Entries α) :
    namedKeys (keys (place key value es)) =
      namedKeys (keys es) ++ if isIndexKey key then [] else [key] := by
  cases hkey : isIndexKey key with
  | false =>
    have hlast : ∀ k ∈ keys es, goesBefore key k = false := fun k _ => goesBefore_of_named hkey
    rw [place_eq_append hlast]
    simp [namedKeys, hkey]
  | true =>
    rw [if_pos rfl, List.append_nil]
    induction es with
    | nil => simp [place, namedKeys, hkey]
    | cons e rest ih =>
      obtain ⟨k, v⟩ := e
      simp only [place]
      split
      · simp [namedKeys, hkey]
      · rw [keys_cons, keys_cons]
        unfold namedKeys at ih ⊢
        rw [List.filter_cons, List.filter_cons, ih]

/-- Joining adds the keys that are new, in the order of the second map. -/
theorem namedKeys_union {es other : Entries α} (hn : (keys other).Nodup) :
    namedKeys (keys (union es other)) =
      namedKeys (keys es ++ (keys other).filter fun k => !has es k) := by
  induction other generalizing es with
  | nil => simp [union]
  | cons e rest ih =>
    obtain ⟨k, v⟩ := e
    obtain ⟨hk, hn⟩ := List.nodup_cons.1 hn
    show namedKeys (keys (union (insert es k v) rest)) = _
    rw [ih hn]
    -- the remaining keys are new to the one map iff they are new to the other
    have hrest : (keys rest).filter (fun k' => !has (insert es k v) k') =
        (keys rest).filter fun k' => !has es k' := by
      refine List.filter_congr fun k' hk' => ?_
      have hne : k' ≠ k := by
        rintro rfl
        exact hk hk'
      rw [Bool.eq_iff_iff]
      simp only [Bool.not_eq_true', has_eq_false_iff, get?_eq_none_iff, mem_keys_insert, hne,
        false_or]
    rw [hrest]
    unfold insert
    cases hhas : has es k with
    | true => simp [hhas]
    | false =>
      rw [if_neg (by simp), keys_cons, List.filter_cons_of_pos (by simp [hhas])]
      unfold namedKeys
      rw [List.filter_append, List.filter_append, ← namedKeys, namedKeys_place, List.filter_cons]
      cases isIndexKey k <;> simp [namedKeys]

theorem mem_keys_union {es other : Entries α} {key : String} :
    key ∈ keys (union es other) ↔ key ∈ keys es ∨ key ∈ keys other := by
  induction other generalizing es with
  | nil => simp [union]
  | cons e rest ih =>
    obtain ⟨k, v⟩ := e
    show key ∈ keys (union (insert es k v) rest) ↔ _
    rw [ih, mem_keys_insert, keys_cons, List.mem_cons, or_assoc, or_left_comm]

/-- Where the reserved key is not among the new ones, assigning is joining. -/
theorem assignAll_eq_union {es new : Entries α} (hr : reservedKey ∉ keys new) :
    assignAll es new = union es new := by
  induction new generalizing es with
  | nil => rfl
  | cons e rest ih =>
    obtain ⟨k, v⟩ := e
    rw [keys_cons, List.mem_cons, not_or] at hr
    show assignAll (assign es k v) rest = union (insert es k v) rest
    rw [assign_of_ne (Ne.symm hr.1), ih hr.2]

/-- **A rebuilt map lists its keys in property order.** -/
theorem keys_rebuild {es : Entries α} (hn : (keys es).Nodup) (hr : reservedKey ∉ keys es) :
    keys (rebuild es) = propertyOrder (keys es) := by
  have hunion : rebuild es = union [] es := assignAll_eq_union hr
  rw [← (ordered_rebuild es).propertyOrder_keys, hunion]
  refine propertyOrder_congr (ordered_union ordered_nil es).nodup hn (fun key => ?_) ?_
  · simp [mem_keys_union]
  · rw [namedKeys_union hn]
    simp

end Entries

end LayeredConfig
