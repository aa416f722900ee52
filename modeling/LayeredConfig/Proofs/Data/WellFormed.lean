import LayeredConfig.Proofs.Data.Lookup
import LayeredConfig.Value.Identity

/-!
# Well-formed values

`Value` is plain data: a tree in which the entries of a map could in principle repeat a key, or
stand in any order. `Value.WellFormed` singles out the values that exist: at every depth the
entries of a map have distinct keys in property order, the members of a set are distinct, and so
are the keys of a table.

Reading keeps well-formedness (`WellFormed.read`, `WellFormed.entries`). A map that is rebuilt
entry by entry has it as soon as its values do (`wellFormed_rebuild`), whatever order the entries
came in.
-/

namespace LayeredConfig

namespace Value

/-- The values that exist: in every container that is reached, keys and members are distinct. -/
inductive WellFormed : Value → Prop
  | undefined : WellFormed .undefined
  | null : WellFormed .null
  | bool (b : Bool) : WellFormed (.bool b)
  | text (s : String) : WellFormed (.text s)
  | number (n : Number) : WellFormed (.number n)
  | bigint (n : Int) : WellFormed (.bigint n)
  | date (i : Identity) (time : String) : WellFormed (.date i time)
  | list {i : Identity} {vs : List Value} (elements : ∀ v ∈ vs, WellFormed v) :
      WellFormed (.list i vs)
  | object {i : Identity} {bare : Bool} {es : Entries Value} (ordered : Entries.Ordered es)
      (values : ∀ e ∈ es, WellFormed e.2) : WellFormed (.object i bare es)
  | foreign {i : Identity} {typeName : String} {fields : Entries Value}
      (ordered : Entries.Ordered fields) (values : ∀ e ∈ fields, WellFormed e.2) :
      WellFormed (.foreign i typeName fields)
  | set {i : Identity} {vs : List Value}
      (distinct : vs.Pairwise fun a b => a.sameMember b = false)
      (members : ∀ v ∈ vs, WellFormed v) : WellFormed (.set i vs)
  | map {i : Identity} {ps : List (Value × Value)}
      (distinct : ps.Pairwise fun p q => p.1.sameMember q.1 = false)
      (keys : ∀ p ∈ ps, WellFormed p.1) (values : ∀ p ∈ ps, WellFormed p.2) :
      WellFormed (.map i ps)

theorem wellFormed_ofEntries_iff {es : Entries Value} :
    (ofEntries es).WellFormed ↔ Entries.Ordered es ∧ ∀ e ∈ es, e.2.WellFormed := by
  constructor
  · intro h
    cases h with
    | object ordered values => exact ⟨ordered, values⟩
  · rintro ⟨ordered, values⟩
    exact .object ordered values

theorem wellFormed_emptyMap : emptyMap.WellFormed :=
  wellFormed_ofEntries_iff.2 ⟨Entries.ordered_nil, by simp⟩

theorem wellFormed_of_isNil {v : Value} (h : v.isNil = true) : v.WellFormed := by
  rcases isNil_iff.1 h with rfl | rfl
  · exact .undefined
  · exact .null

/-! ## Reading -/

theorem WellFormed.entries {v : Value} (h : v.WellFormed) {es : Entries Value}
    (he : v.entries? = some es) : Entries.Ordered es ∧ ∀ e ∈ es, e.2.WellFormed := by
  cases h with
  | object ordered values =>
    cases he
    exact ⟨ordered, values⟩
  | _ => cases he

/-- The entries of a value that is no map are none, and as such well-formed. -/
theorem WellFormed.entriesOrEmpty {v : Value} (h : v.WellFormed) :
    Entries.Ordered v.entriesOrEmpty ∧ ∀ e ∈ v.entriesOrEmpty, e.2.WellFormed := by
  unfold Value.entriesOrEmpty
  cases he : v.entries? with
  | none => simp
  | some es => exact h.entries he

/-- The entries of a well-formed value have distinct keys. -/
theorem WellFormed.nodup {v : Value} (h : v.WellFormed) :
    (Entries.keys v.entriesOrEmpty).Nodup := h.entriesOrEmpty.1.nodup

theorem WellFormed.get? {v : Value} (h : v.WellFormed) {key : String} {w : Value}
    (hw : Entries.get? v.entriesOrEmpty key = some w) : w.WellFormed :=
  h.entriesOrEmpty.2 _ (Entries.mem_of_get? hw)

theorem WellFormed.read {v : Value} (h : v.WellFormed) (key : String) :
    (Entries.read v.entriesOrEmpty key).WellFormed := by
  unfold Entries.read
  cases hw : Entries.get? v.entriesOrEmpty key with
  | none => exact .undefined
  | some w => exact h.get? hw

theorem WellFormed.orEmptyMap {v : Value} (h : v.WellFormed) : v.orEmptyMap.WellFormed := by
  unfold Value.orEmptyMap
  split
  · exact wellFormed_emptyMap
  · exact h

end Value

/-! ## Building -/

namespace Entries

theorem mem_values_place {key : String} {value : Value} {es : Entries Value}
    {e : String × Value} (h : e ∈ place key value es) : e = (key, value) ∨ e ∈ es := by
  induction es with
  | nil => exact .inl (List.mem_singleton.1 h)
  | cons e' rest ih =>
    obtain ⟨k, v⟩ := e'
    simp only [place] at h
    split at h
    · exact List.mem_cons.1 h
    · rcases List.mem_cons.1 h with rfl | h
      · exact .inr List.mem_cons_self
      · exact (ih h).imp_right (List.mem_cons_of_mem _)

theorem mem_values_replace {key : String} {value : Value} {es : Entries Value}
    {e : String × Value} (h : e ∈ replace key value es) : e.2 = value ∨ e ∈ es := by
  induction es with
  | nil => cases h
  | cons e' rest ih =>
    obtain ⟨k, v⟩ := e'
    simp only [replace] at h
    split at h
    · rcases List.mem_cons.1 h with rfl | h
      · exact .inl rfl
      · exact .inr (List.mem_cons_of_mem _ h)
    · rcases List.mem_cons.1 h with rfl | h
      · exact .inr List.mem_cons_self
      · exact (ih h).imp_right (List.mem_cons_of_mem _)

/-- Every value after an insertion is the inserted one or was there before. -/
theorem mem_values_insert {key : String} {value : Value} {es : Entries Value}
    {e : String × Value} (h : e ∈ insert es key value) : e.2 = value ∨ e ∈ es := by
  unfold insert at h
  split at h
  · exact mem_values_replace h
  · rcases mem_values_place h with rfl | h
    · exact .inl rfl
    · exact .inr h

theorem wellFormed_insert {es : Entries Value} (h : (Value.ofEntries es).WellFormed)
    {value : Value} (hv : value.WellFormed) (key : String) :
    (Value.ofEntries (insert es key value)).WellFormed := by
  obtain ⟨ordered, values⟩ := Value.wellFormed_ofEntries_iff.1 h
  refine Value.wellFormed_ofEntries_iff.2 ⟨ordered_insert ordered, fun e he => ?_⟩
  rcases mem_values_insert he with heq | hmem
  · exact heq ▸ hv
  · exact values e hmem

/-- What holds of the values that are there and of those assigned holds of all values then. -/
theorem forall_values_assignAll {P : Value → Prop} {es new : Entries Value}
    (h : ∀ e ∈ es, P e.2) (hnew : ∀ e ∈ new, P e.2) : ∀ e ∈ assignAll es new, P e.2 := by
  induction new generalizing es with
  | nil => exact h
  | cons e rest ih =>
    have hassign : ∀ e' ∈ assign es e.1 e.2, P e'.2 := by
      intro e' he'
      unfold assign at he'
      split at he'
      · exact h e' he'
      · rcases mem_values_insert he' with heq | hmem
        · exact heq ▸ hnew e List.mem_cons_self
        · exact h e' hmem
    exact ih hassign fun e' he' => hnew e' (List.mem_cons_of_mem _ he')

/-- What holds of all values holds of those in the rebuilt map. -/
theorem forall_values_rebuild {P : Value → Prop} {es : List (String × Value)}
    (h : ∀ e ∈ es, P e.2) : ∀ e ∈ rebuild es, P e.2 :=
  forall_values_assignAll (fun _ he => absurd he List.not_mem_nil) h

/-- **A rebuilt map of well-formed values is well-formed.** -/
theorem wellFormed_rebuild {es : List (String × Value)} (h : ∀ e ∈ es, e.2.WellFormed) :
    (Value.ofEntries (rebuild es)).WellFormed :=
  Value.wellFormed_ofEntries_iff.2 ⟨ordered_rebuild es, forall_values_rebuild h⟩

/-- Whatever comes of assigning well-formed values to a new map is well-formed. -/
theorem wellFormed_ofAssigned {es : List (String × Value)} (h : ∀ e ∈ es, e.2.WellFormed) :
    (Value.ofAssigned es).WellFormed := by
  have hvalues := forall_values_rebuild h
  rcases Value.ofAssigned_cases es with ⟨-, heq⟩ | ⟨-, heq | ⟨_, _, -, -, heq⟩⟩
  · exact heq ▸ .object (ordered_rebuild es) hvalues
  · exact heq ▸ .object (ordered_rebuild es) hvalues
  · exact heq ▸ .foreign (ordered_rebuild es) hvalues

theorem wellFormed_without {es : Entries Value} (h : (Value.ofEntries es).WellFormed)
    (key : String) : (Value.ofEntries (without es key)).WellFormed := by
  obtain ⟨ordered, values⟩ := Value.wellFormed_ofEntries_iff.1 h
  exact Value.wellFormed_ofEntries_iff.2
    ⟨ordered.without key, fun e he => values e (List.mem_filter.1 he).1⟩

theorem wellFormed_union {es other : Entries Value} (h : (Value.ofEntries es).WellFormed)
    (hother : ∀ e ∈ other, e.2.WellFormed) : (Value.ofEntries (union es other)).WellFormed := by
  induction other generalizing es with
  | nil => exact h
  | cons e rest ih =>
    have hinsert : (Value.ofEntries (insert es e.1 e.2)).WellFormed :=
      wellFormed_insert h (hother e List.mem_cons_self) e.1
    exact ih hinsert fun e' he' => hother e' (List.mem_cons_of_mem _ he')

end Entries

end LayeredConfig
