import LayeredConfig.Entries

/-!
# Property order

`Entries.Ordered` says that entries are those of a map: their keys are distinct and stand in
property order. Inserting and assigning keep it (`ordered_insert`, `ordered_assign`), so every map
that is built entry by entry has it (`ordered_ofList`, `ordered_rebuild`). Conversely, ordered
entries are rebuilt as they are, unless the reserved key is among them (`rebuild_eq_self`).
-/

namespace LayeredConfig

/-! ## The order of new keys -/

/-- What goes before a key goes before all that does not go before that key. -/
theorem goesBefore_of_goesBefore {a b c : String} (h : goesBefore a b = true)
    (h' : goesBefore c b = false) : goesBefore a c = true := by
  unfold goesBefore at *
  cases ha : indexKey? a <;> cases hb : indexKey? b <;> cases hc : indexKey? c <;>
    simp_all
  omega

theorem goesBefore_asymm {a b : String} (h : goesBefore a b = true) :
    goesBefore b a = false := by
  unfold goesBefore at *
  cases ha : indexKey? a <;> cases hb : indexKey? b <;> simp_all
  omega

namespace Entries

variable {α : Type}

/-- Distinct keys in property order. -/
def Ordered (es : Entries α) : Prop :=
  (keys es).Nodup ∧ (keys es).Pairwise fun a b => goesBefore b a = false

@[simp] theorem ordered_nil : Ordered ([] : Entries α) := by simp [Ordered, keys]

theorem ordered_cons_iff {k : String} {v : α} {rest : Entries α} :
    Ordered ((k, v) :: rest) ↔
      k ∉ keys rest ∧ (∀ k' ∈ keys rest, goesBefore k' k = false) ∧ Ordered rest := by
  simp only [Ordered, keys, List.map_cons, List.nodup_cons, List.pairwise_cons]
  constructor
  · rintro ⟨⟨hk, hn⟩, ho, hp⟩
    exact ⟨hk, ho, hn, hp⟩
  · rintro ⟨hk, ho, hn, hp⟩
    exact ⟨⟨hk, hn⟩, ho, hp⟩

theorem mem_keys_place {key : String} {value : α} {es : Entries α} {k : String} :
    k ∈ keys (place key value es) ↔ k = key ∨ k ∈ keys es := by
  induction es with
  | nil => simp [place, keys]
  | cons e rest ih =>
    obtain ⟨k', v⟩ := e
    simp only [place]
    split
    · simp [keys]
    · simp only [keys, List.map_cons, List.mem_cons] at ih ⊢
      rw [ih]
      exact or_left_comm

@[simp] theorem keys_replace (key : String) (value : α) (es : Entries α) :
    keys (replace key value es) = keys es := by
  induction es with
  | nil => rfl
  | cons e rest ih =>
    obtain ⟨k, v⟩ := e
    by_cases h : k = key
    · simp [replace, keys, h]
    · simpa [replace, keys, h] using ih

theorem ordered_place {key : String} {value : α} {es : Entries α} (h : Ordered es)
    (hk : key ∉ keys es) : Ordered (place key value es) := by
  induction es with
  | nil => simp [place, Ordered, keys]
  | cons e rest ih =>
    obtain ⟨k, v⟩ := e
    obtain ⟨hmem, hbefore, hrest⟩ := ordered_cons_iff.1 h
    have hne : key ≠ k := fun e => hk (by simp [keys, e])
    have hk' : key ∉ keys rest := fun hm =>
      hk (List.mem_cons_of_mem k hm)
    simp only [place]
    split
    · rename_i hfirst
      refine ordered_cons_iff.2 ⟨hk, fun k' hm => ?_, h⟩
      rcases List.mem_cons.1 hm with rfl | hm
      · exact goesBefore_asymm hfirst
      · exact goesBefore_asymm (goesBefore_of_goesBefore hfirst (hbefore k' hm))
    · rename_i hfirst
      refine ordered_cons_iff.2 ⟨fun hm => ?_, fun k' hm => ?_, ih hrest hk'⟩
      · rcases mem_keys_place.1 hm with rfl | hm
        · exact hne rfl
        · exact hmem hm
      · rcases mem_keys_place.1 hm with rfl | hm
        · simpa using hfirst
        · exact hbefore k' hm

theorem ordered_replace {key : String} {value : α} {es : Entries α} (h : Ordered es) :
    Ordered (replace key value es) := by
  simpa [Ordered] using h

/-- **Inserting keeps the order.** -/
theorem ordered_insert {key : String} {value : α} {es : Entries α} (h : Ordered es) :
    Ordered (insert es key value) := by
  unfold insert
  split
  · exact ordered_replace h
  · exact ordered_place h fun hm => ‹¬ has es key = true› (has_iff.2 hm)

theorem ordered_assign {key : String} {value : α} {es : Entries α} (h : Ordered es) :
    Ordered (assign es key value) := by
  unfold assign
  split
  · exact h
  · exact ordered_insert h

theorem ordered_foldl_insert {es : Entries α} (h : Ordered es) (new : List (String × α)) :
    Ordered (new.foldl (fun m e => insert m e.1 e.2) es) := by
  induction new generalizing es with
  | nil => exact h
  | cons e rest ih => exact ih (ordered_insert h)

theorem ordered_assignAll {es : Entries α} (h : Ordered es) (new : List (String × α)) :
    Ordered (assignAll es new) := by
  induction new generalizing es with
  | nil => exact h
  | cons e rest ih => exact ih (ordered_assign h)

theorem ordered_ofList (es : List (String × α)) : Ordered (ofList es) :=
  ordered_foldl_insert ordered_nil es

theorem ordered_rebuild (es : List (String × α)) : Ordered (rebuild es) :=
  ordered_assignAll ordered_nil es

theorem ordered_union {es : Entries α} (h : Ordered es) (other : Entries α) :
    Ordered (union es other) := ordered_foldl_insert h other

/-! ## Rebuilding ordered entries -/

/-- A key that goes before none of the keys is placed at the end. -/
theorem place_eq_append {key : String} {value : α} {es : Entries α}
    (h : ∀ k ∈ keys es, goesBefore key k = false) : place key value es = es ++ [(key, value)] := by
  induction es with
  | nil => rfl
  | cons e rest ih =>
    obtain ⟨k, v⟩ := e
    have hk : goesBefore key k = false := h k (by simp [keys])
    have hrest : ∀ k' ∈ keys rest, goesBefore key k' = false := fun k' hm =>
      h k' (List.mem_cons_of_mem k hm)
    simp [place, hk, ih hrest]

theorem assignAll_eq_append {es new : Entries α} (h : Ordered (es ++ new))
    (hr : reservedKey ∉ keys new) : assignAll es new = es ++ new := by
  induction new generalizing es with
  | nil => simp [assignAll]
  | cons e rest ih =>
    obtain ⟨k, v⟩ := e
    have hkeys : keys (es ++ (k, v) :: rest) = keys es ++ k :: keys rest := by simp [keys]
    have hne : k ≠ reservedKey := fun e => hr (by simp [keys, e])
    have hmem : k ∉ keys es := by
      have := h.1
      rw [hkeys, List.nodup_append] at this
      exact fun hm => this.2.2 k hm k (by simp) rfl
    have hlast : ∀ k' ∈ keys es, goesBefore k k' = false := by
      have := h.2
      rw [hkeys, List.pairwise_append] at this
      exact fun k' hm => this.2.2 k' hm k (by simp)
    have hstep : assign es k v = es ++ [(k, v)] := by
      rw [assign_of_ne hne, insert, if_neg fun hh => hmem (has_iff.1 hh), place_eq_append hlast]
    have hr' : reservedKey ∉ keys rest := fun hm => hr (List.mem_cons_of_mem k hm)
    show assignAll (assign es k v) rest = es ++ (k, v) :: rest
    rw [hstep, ih (by simpa using h) hr']
    simp

/-- **Ordered entries are rebuilt as they are,** unless the reserved key is among them. -/
theorem rebuild_eq_self {es : Entries α} (h : Ordered es) (hr : reservedKey ∉ keys es) :
    rebuild es = es := assignAll_eq_append (by simpa using h) hr

end Entries

end LayeredConfig
