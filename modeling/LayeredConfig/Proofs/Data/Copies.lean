import LayeredConfig.Proofs.Data.Canonical
import LayeredConfig.Proofs.Data.Walk
import Mathlib.Data.List.Forall2

/-!
# What a copy keeps

A copy is built by assignment, map by map, which may put keys in another order and lose entries. For
the values that exist it does neither, the reserved key left aside: their keys stand in the order in
which assignment puts them. And it leaves the copy without the reserved key, so a second copy is
made of ordinary maps. The first one is not, where null was assigned to that key. So it is the bare
maps in a copy that the next copy changes, and nothing else.

- `Value.reached`: the values that are reached through lists and string-keyed maps. These are the
  values that a copy looks at.
- `Value.IsCopy`: what copies look like, all the way down (`isCopy_copy`). Such a value is copied as
  it is exactly if no bare map is reached in it (`IsCopy.copy_eq_self_iff`), and no bare map is
  reached in its copy (`IsCopy.not_reachesBare_copy`).
- `Value.reachesBare_copy_iff`: where the reserved key holds scalars, bare maps come of null.
- `Value.RebuiltAs`: what a value is rebuilt as. Every list and map that is reached is a new one, of
  the same elements, or with the same keys in the same order and the same values; a bare map becomes
  an ordinary one. All else stays the object that it is.
- `Value.rebuiltAs_copy`: a copy is what the value is rebuilt as, if no map with the reserved key is
  reached.
- `Value.copy_mem_reached`: if there are such maps, and that key holds scalars in them, only scalars
  are lost.
- `Value.copy_faithful`: when a copy is copied as it is, and what it keeps.
-/

namespace LayeredConfig

theorem map_eq_self_iff {α : Type} {f : α → α} {xs : List α} :
    xs.map f = xs ↔ ∀ a ∈ xs, f a = a := by
  conv_lhs => rhs; rw [← List.map_id xs]
  exact List.map_inj_left

namespace Value

variable {v u : Value}

/-! ## What is reached -/

mutual

/-- The value, and what is reached from it through lists and string-keyed maps. -/
def reached : Value → List Value
  | .list i vs => .list i vs :: reachedElements vs
  | .object i bare es => .object i bare es :: reachedEntries es
  | .undefined => [.undefined]
  | .null => [.null]
  | .bool b => [.bool b]
  | .text s => [.text s]
  | .number n => [.number n]
  | .bigint n => [.bigint n]
  | .map i ps => [.map i ps]
  | .set i vs => [.set i vs]
  | .date i t => [.date i t]
  | .foreign i c fs => [.foreign i c fs]

/-- What is reached from the elements of a list. -/
def reachedElements : List Value → List Value
  | [] => []
  | v :: rest => v.reached ++ reachedElements rest

/-- What is reached from the values of a map. -/
def reachedEntries : List (String × Value) → List Value
  | [] => []
  | (_, v) :: rest => v.reached ++ reachedEntries rest

end

/-- Whether the value is a scalar, nil included. -/
def isScalar : Value → Bool
  | .undefined | .null | .bool _ | .text _ | .number _ | .bigint _ => true
  | _ => false

/-- Whether the value is a bare map. -/
def isBare : Value → Bool
  | .object _ bare _ => bare
  | _ => false

/-- A bare map is reached. -/
def ReachesBare (v : Value) : Prop := ∃ u ∈ v.reached, u.isBare = true

instance (v : Value) : Decidable v.ReachesBare :=
  inferInstanceAs (Decidable (∃ u ∈ v.reached, u.isBare = true))

theorem mem_reachedElements {vs : List Value} :
    u ∈ reachedElements vs ↔ ∃ v ∈ vs, u ∈ v.reached := by
  induction vs with
  | nil => simp [reachedElements]
  | cons v rest ih => simp [reachedElements, ih]

theorem mem_reachedEntries {es : List (String × Value)} :
    u ∈ reachedEntries es ↔ ∃ e ∈ es, u ∈ e.2.reached := by
  induction es with
  | nil => simp [reachedEntries]
  | cons e rest ih =>
    obtain ⟨key, v⟩ := e
    rw [reachedEntries, List.mem_append, ih, List.exists_mem_cons_iff]

theorem mem_reached_list {i : Identity} {vs : List Value} :
    u ∈ (list i vs).reached ↔ u = list i vs ∨ ∃ v ∈ vs, u ∈ v.reached := by
  rw [reached, List.mem_cons, mem_reachedElements]

theorem mem_reached_object {i : Identity} {bare : Bool} {es : Entries Value} :
    u ∈ (object i bare es).reached ↔ u = object i bare es ∨ ∃ e ∈ es, u ∈ e.2.reached := by
  rw [reached, List.mem_cons, mem_reachedEntries]

/-- What is reached from a value in a map is reached from the map. -/
theorem mem_reached_of_get? {key : String} {w : Value}
    (hw : Entries.get? v.entriesOrEmpty key = some w) (hu : u ∈ w.reached) : u ∈ v.reached := by
  cases v with
  | object i bare es => exact mem_reached_object.2 (.inr ⟨_, Entries.mem_of_get? hw, hu⟩)
  | _ => cases hw

theorem reached_of_not_nested (h : v.isNested = false) : v.reached = [v] := by
  cases v with
  | list _ _ | object _ _ _ => cases h
  | _ => rfl

theorem mem_reached_self (v : Value) : v ∈ v.reached := by
  cases v <;> simp [reached]

theorem reached_of_isScalar (h : v.isScalar = true) : v.reached = [v] :=
  reached_of_not_nested (by cases v <;> first | rfl | cases h)

theorem not_reachesBare_of_not_nested (h : v.isNested = false) : ¬v.ReachesBare := by
  rintro ⟨u, hu, hbare⟩
  rw [reached_of_not_nested h, List.mem_singleton] at hu
  subst hu
  cases u with
  | object _ _ _ => cases h
  | _ => cases hbare

theorem reachesBare_list_iff {i : Identity} {vs : List Value} :
    (list i vs).ReachesBare ↔ ∃ v ∈ vs, v.ReachesBare := by
  constructor
  · rintro ⟨u, hu, hbare⟩
    rcases mem_reached_list.1 hu with rfl | ⟨v, hv, hu⟩
    · cases hbare
    · exact ⟨v, hv, u, hu, hbare⟩
  · rintro ⟨v, hv, u, hu, hbare⟩
    exact ⟨u, mem_reached_list.2 (.inr ⟨v, hv, hu⟩), hbare⟩

theorem reachesBare_object_iff {i : Identity} {bare : Bool} {es : Entries Value} :
    (object i bare es).ReachesBare ↔ bare = true ∨ ∃ e ∈ es, e.2.ReachesBare := by
  constructor
  · rintro ⟨u, hu, hbare⟩
    rcases mem_reached_object.1 hu with rfl | ⟨e, he, hu⟩
    · exact .inl hbare
    · exact .inr ⟨e, he, u, hu, hbare⟩
  · rintro (hbare | ⟨e, he, u, hu, hbare⟩)
    · exact ⟨_, mem_reached_self _, hbare⟩
    · exact ⟨u, mem_reached_object.2 (.inr ⟨e, he, hu⟩), hbare⟩

/-- What is reached in a map is reached further out. -/
theorem ReachesBare.of_get? {key : String} {w : Value} (h : w.ReachesBare)
    (hw : Entries.get? v.entriesOrEmpty key = some w) : v.ReachesBare := by
  obtain ⟨u, hu, hbare⟩ := h
  exact ⟨u, mem_reached_of_get? hw hu, hbare⟩

/-! ## What copies look like -/

/-- The value looks like a copy: every list and map that is reached is new, and the keys of the maps
stand in order, without the reserved one. -/
inductive IsCopy : Value → Prop
  | list {vs : List Value} (elements : ∀ v ∈ vs, IsCopy v) : IsCopy (.ofList vs)
  | object {bare : Bool} {es : Entries Value} (ordered : Entries.Ordered es)
      (unreserved : reservedKey ∉ Entries.keys es) (values : ∀ e ∈ es, IsCopy e.2) :
      IsCopy (.object .anonymous bare es)
  | kept {v : Value} (h : v.isNested = false) : IsCopy v

/-- A map that is built by assignment looks like a copy if its values do. -/
theorem isCopy_rebuild {es : List (String × Value)} (h : ∀ e ∈ es, e.2.IsCopy) (bare : Bool) :
    (Value.object .anonymous bare (Entries.rebuild es)).IsCopy :=
  .object (Entries.ordered_rebuild es) (Entries.reservedKey_not_mem_keys_rebuild es)
    (Entries.forall_values_rebuild h)

mutual

/-- **Copies look like copies.** -/
theorem isCopy_copy : ∀ v : Value, v.copy.IsCopy
  | .list _ vs => .list (isCopy_of_mem_copyList vs)
  | .object _ _ es => by
    have hvalues := isCopy_of_mem_copyEntries es
    rw [copy]
    rcases ofAssigned_cases (copyEntries es) with ⟨-, h⟩ | ⟨-, h | ⟨_, _, -, -, h⟩⟩
    · exact h ▸ isCopy_rebuild hvalues true
    · exact h ▸ isCopy_rebuild hvalues false
    · exact h ▸ .kept rfl
  | .undefined | .null | .bool _ | .text _ | .number _ | .bigint _ | .map _ _ | .set _ _
  | .date _ _ | .foreign _ _ _ => .kept rfl

/-- `isCopy_copy` for the elements of a list. -/
theorem isCopy_of_mem_copyList : ∀ vs : List Value, ∀ v ∈ copyList vs, v.IsCopy
  | [], _, h => nomatch h
  | v :: rest, w, h => by
    rcases List.mem_cons.1 h with rfl | h
    · exact isCopy_copy v
    · exact isCopy_of_mem_copyList rest w h

/-- `isCopy_copy` for the values of a map. -/
theorem isCopy_of_mem_copyEntries : ∀ es : List (String × Value), ∀ e ∈ copyEntries es, e.2.IsCopy
  | [], _, h => nomatch h
  | (_, v) :: rest, e, h => by
    rcases List.mem_cons.1 h with rfl | h
    · exact isCopy_copy v
    · exact isCopy_of_mem_copyEntries rest e h

end

/-- Entries in the order of a map are copied one by one, if the reserved key is not among them. -/
theorem copy_of_ordered {es : Entries Value} (ordered : Entries.Ordered es)
    (hr : reservedKey ∉ Entries.keys es) (i : Identity) (bare : Bool) :
    (object i bare es).copy = .ofEntries (es.map fun e => (e.1, e.2.copy)) := by
  have hordered : Entries.Ordered (copyEntries es) := by
    rw [Entries.Ordered, keys_copyEntries]
    exact ordered
  rw [copy_object hr, Entries.copy,
    Entries.rebuild_eq_self hordered (by rwa [keys_copyEntries]), copyEntries_eq_map]

/-- **What looks like a copy is copied as it is, unless a bare map is reached in it.** -/
theorem IsCopy.copy_eq_self_iff (h : v.IsCopy) : v.copy = v ↔ ¬v.ReachesBare := by
  induction h with
  | @list vs elements ih =>
    have hself : (ofList vs).copy = ofList vs ↔ ∀ v ∈ vs, v.copy = v := by
      rw [copy_ofList, ofList, ofList, list.injEq, and_iff_right rfl, map_eq_self_iff]
    rw [hself, ofList, reachesBare_list_iff, not_exists]
    exact forall_congr' fun v => (imp_congr_right fun hv => ih v hv).trans not_and.symm
  | @object bare es ordered unreserved values ih =>
    have hself : (Value.object .anonymous bare es).copy = .object .anonymous bare es ↔
        bare = false ∧ ∀ e ∈ es, e.2.copy = e.2 := by
      rw [copy_of_ordered ordered unreserved, ofEntries, object.injEq, and_iff_right rfl,
        map_eq_self_iff]
      exact and_congr eq_comm (forall₂_congr fun e _ => by rw [Prod.ext_iff, and_iff_right rfl])
    rw [hself, reachesBare_object_iff, not_or, Bool.not_eq_true, not_exists]
    exact and_congr_right fun _ => forall_congr' fun e =>
      (imp_congr_right fun he => ih e he).trans not_and.symm
  | kept h => exact iff_of_true (copy_of_not_nested h) (not_reachesBare_of_not_nested h)

/-- **No bare map is reached in the copy of a copy.** -/
theorem IsCopy.not_reachesBare_copy (h : v.IsCopy) : ¬v.copy.ReachesBare := by
  induction h with
  | @list vs elements ih =>
    rw [copy_ofList, ofList, reachesBare_list_iff]
    rintro ⟨w, hw, hbare⟩
    obtain ⟨v, hv, rfl⟩ := List.mem_map.1 hw
    exact ih v hv hbare
  | @object bare es ordered unreserved values ih =>
    rw [copy_of_ordered ordered unreserved, ofEntries, reachesBare_object_iff]
    rintro (hbare | ⟨e, he, hbare⟩)
    · cases hbare
    · obtain ⟨e', he', rfl⟩ := List.mem_map.1 he
      exact ih e' he' hbare
  | kept h =>
    rw [copy_of_not_nested h]
    exact not_reachesBare_of_not_nested h

/-- A second copy is copied as it is. -/
theorem IsCopy.copy_copy (h : v.IsCopy) : v.copy.copy = v.copy :=
  (isCopy_copy v).copy_eq_self_iff.2 h.not_reachesBare_copy

/-! ## Reading what looks like a copy -/

theorem isCopy_copiedEntries (es : Entries Value) : (ofEntries es.copy).IsCopy :=
  isCopy_rebuild (isCopy_of_mem_copyEntries es) false

theorem entriesOrEmpty_of_not_nested (h : v.isNested = false) : v.entriesOrEmpty = [] := by
  cases v with
  | object _ _ _ => cases h
  | _ => rfl

theorem IsCopy.nodup (h : v.IsCopy) : (Entries.keys v.entriesOrEmpty).Nodup := by
  cases h with
  | list _ => exact List.nodup_nil
  | object ordered _ _ => exact ordered.nodup
  | kept h =>
    rw [entriesOrEmpty_of_not_nested h]
    exact List.nodup_nil

theorem IsCopy.unreserved (h : v.IsCopy) : reservedKey ∉ Entries.keys v.entriesOrEmpty := by
  cases h with
  | list _ => exact List.not_mem_nil
  | object _ unreserved _ => exact unreserved
  | kept h =>
    rw [entriesOrEmpty_of_not_nested h]
    exact List.not_mem_nil

/-- What is held in a map that looks like a copy looks like a copy. -/
theorem IsCopy.of_get? (h : v.IsCopy) {key : String} {w : Value}
    (hw : Entries.get? v.entriesOrEmpty key = some w) : w.IsCopy := by
  cases h with
  | list _ => cases hw
  | object _ _ values => exact values _ (Entries.mem_of_get? hw)
  | kept h =>
    rw [entriesOrEmpty_of_not_nested h] at hw
    cases hw

theorem IsCopy.read (h : v.IsCopy) (key : String) :
    (Entries.read v.entriesOrEmpty key).IsCopy := by
  unfold Entries.read
  cases hw : Entries.get? v.entriesOrEmpty key with
  | none => exact .kept rfl
  | some w => exact h.of_get? hw

/-- Of what looks like a copy, the maps are copied as maps, and nothing else is. -/
theorem IsCopy.isMap_copy (h : v.IsCopy) : v.copy.isMap = v.isMap := by
  cases h with
  | list _ => rfl
  | object ordered unreserved _ =>
    rw [copy_of_ordered ordered unreserved]
    rfl
  | kept h => rw [copy_of_not_nested h]

theorem IsCopy.copy_ofEntries {es : Entries Value} (h : (ofEntries es).IsCopy) :
    (ofEntries es).copy = ofEntries es.copy := copy_object h.unreserved .anonymous false

theorem IsCopy.entriesOrEmpty_copy (h : v.IsCopy) :
    v.copy.entriesOrEmpty = v.entriesOrEmpty.copy := by
  cases h with
  | list _ => rfl
  | object _ unreserved _ =>
    rw [copy_object unreserved]
    rfl
  | kept h =>
    rw [copy_of_not_nested h, entriesOrEmpty_of_not_nested h]
    rfl

/-- `IsCopy.copy_copy` for entries. -/
theorem IsCopy.copy_copiedEntries (h : v.IsCopy) :
    v.entriesOrEmpty.copy.copy = v.entriesOrEmpty.copy := by
  rw [← h.entriesOrEmpty_copy, ← (isCopy_copy v).entriesOrEmpty_copy, h.copy_copy]

/-- `IsCopy.copy_eq_self_iff` for entries. -/
theorem IsCopy.copiedEntries_eq_self_iff {es : Entries Value} (h : (ofEntries es).IsCopy) :
    es.copy = es ↔ ¬(ofEntries es).ReachesBare := by
  rw [← h.copy_eq_self_iff, h.copy_ofEntries]
  exact ⟨congrArg ofEntries, congrArg entriesOrEmpty⟩

/-- `IsCopy.not_reachesBare_copy` for entries. -/
theorem IsCopy.not_reachesBare_copiedEntries {es : Entries Value} (h : (ofEntries es).IsCopy) :
    ¬(ofEntries es.copy).ReachesBare := by
  rw [← h.copy_ofEntries]
  exact h.not_reachesBare_copy

/-! ## Scalars under the reserved key -/

theorem get?_copyEntries (es : Entries Value) (key : String) :
    Entries.get? (copyEntries es) key = (Entries.get? es key).map copy := by
  rw [copyEntries_eq_map, Entries.get?_mapValues]

theorem not_nested_of_isScalar (h : v.isScalar = true) : v.isNested = false := by
  cases v <;> first | rfl | cases h

theorem childType?_of_isScalar (h : v.isScalar = true) : v.childType? = none := by
  cases v <;> first | rfl | cases h

/-- What the reserved key of a map holds is not changed by copying it, if it is a scalar. -/
theorem get?_copyEntries_reservedKey {es : Entries Value}
    (h : (Entries.get? es reservedKey).all isScalar = true) :
    Entries.get? (copyEntries es) reservedKey = Entries.get? es reservedKey := by
  rw [get?_copyEntries]
  cases hw : Entries.get? es reservedKey with
  | none => rfl
  | some w =>
    rw [hw] at h
    exact congrArg some (copy_of_not_nested (not_nested_of_isScalar h))

/-- Where the reserved key holds a scalar, if anything, the copy of a map is a map, which is bare
exactly if the scalar is null. -/
theorem copy_of_isScalar {es : Entries Value}
    (h : (Entries.get? es reservedKey).all isScalar = true) (i : Identity) (bare : Bool) :
    ∃ bare', (object i bare es).copy = .object .anonymous bare' es.copy ∧
      (bare' = true ↔ Entries.get? es reservedKey = some .null) := by
  have hget := get?_copyEntries_reservedKey h
  rcases ofAssigned_cases (copyEntries es) with
    ⟨hnull, heq⟩ | ⟨hnull, heq | ⟨parent, _, hparent, hchild, -⟩⟩
  · exact ⟨true, heq, iff_of_true rfl (hget ▸ hnull)⟩
  · exact ⟨false, heq, iff_of_false Bool.false_ne_true (hget ▸ hnull)⟩
  · rw [hget] at hparent
    rw [hparent] at h
    cases (childType?_of_isScalar h).symm.trans hchild

/-- From a scalar under the reserved key, only scalars are reached. -/
theorem isScalar_of_mem_reached {es : Entries Value} (hn : (Entries.keys es).Nodup)
    (h : (Entries.get? es reservedKey).all isScalar = true) {e : String × Value} (he : e ∈ es)
    (hkey : e.1 = reservedKey) (hu : u ∈ e.2.reached) : u.isScalar = true := by
  have hget : Entries.get? es reservedKey = some e.2 :=
    (Entries.get?_eq_some_iff_mem hn).2 (hkey ▸ he)
  rw [hget] at h
  rw [reached_of_isScalar h, List.mem_singleton] at hu
  rwa [hu]

/-- A copied map holds the copies of what the map holds under its other keys. -/
theorem exists_mem_copiedEntries_iff {es : Entries Value} (hn : (Entries.keys es).Nodup)
    (P : Value → Prop) :
    (∃ e ∈ es.copy, P e.2) ↔ ∃ e ∈ es, e.1 ≠ reservedKey ∧ P e.2.copy := by
  have hcopied : (Entries.keys es.copy).Nodup := (Entries.ordered_rebuild _).nodup
  constructor
  · rintro ⟨⟨key, w'⟩, he, hP⟩
    have hkey : key ≠ reservedKey := by
      rintro rfl
      exact Entries.reservedKey_not_mem_keys_rebuild _ (List.mem_map_of_mem he)
    have hheld : Entries.get? es.copy key = some w' := (Entries.get?_eq_some_iff_mem hcopied).2 he
    rw [get?_copiedEntries hn hkey] at hheld
    obtain ⟨w, hw, rfl⟩ := Option.map_eq_some_iff.1 hheld
    exact ⟨(key, w), Entries.mem_of_get? hw, hkey, hP⟩
  · rintro ⟨⟨key, w⟩, he, hkey, hP⟩
    have hheld : Entries.get? es.copy key = some w.copy := by
      rw [get?_copiedEntries hn hkey, (Entries.get?_eq_some_iff_mem hn).2 he]
      rfl
    exact ⟨(key, w.copy), Entries.mem_of_get? hheld, hP⟩

/-- **Bare maps in a copy come of null under the reserved key,** where that key holds scalars. -/
theorem reachesBare_copy_iff (hv : v.WellFormed)
    (hr : ∀ u ∈ v.reached, (Entries.get? u.entriesOrEmpty reservedKey).all isScalar = true) :
    v.copy.ReachesBare ↔
      ∃ u ∈ v.reached, Entries.get? u.entriesOrEmpty reservedKey = some .null := by
  induction hv with
  | @list i vs elements ih =>
    have hinner : ∀ w ∈ vs, (w.copy.ReachesBare ↔
        ∃ u ∈ w.reached, Entries.get? u.entriesOrEmpty reservedKey = some .null) :=
      fun w hw => ih w hw fun u hu => hr u (mem_reached_list.2 (.inr ⟨w, hw, hu⟩))
    rw [copy, copyList_eq_map, ofList, reachesBare_list_iff]
    constructor
    · rintro ⟨w', hw', hbare⟩
      obtain ⟨w, hw, rfl⟩ := List.mem_map.1 hw'
      obtain ⟨u, hu, hnull⟩ := (hinner w hw).1 hbare
      exact ⟨u, mem_reached_list.2 (.inr ⟨w, hw, hu⟩), hnull⟩
    · rintro ⟨u, hu, hnull⟩
      rcases mem_reached_list.1 hu with rfl | ⟨w, hw, hu⟩
      · cases hnull
      · exact ⟨w.copy, List.mem_map_of_mem hw, (hinner w hw).2 ⟨u, hu, hnull⟩⟩
  | @object i bare es ordered values ih =>
    have hinner : ∀ e ∈ es, (e.2.copy.ReachesBare ↔
        ∃ u ∈ e.2.reached, Entries.get? u.entriesOrEmpty reservedKey = some .null) :=
      fun e he => ih e he fun u hu => hr u (mem_reached_object.2 (.inr ⟨e, he, hu⟩))
    have hscalar : (Entries.get? es reservedKey).all isScalar = true := hr _ (mem_reached_self _)
    obtain ⟨bare', hcopy, hbare'⟩ := copy_of_isScalar hscalar i bare
    rw [hcopy, reachesBare_object_iff, exists_mem_copiedEntries_iff ordered.nodup ReachesBare]
    constructor
    · rintro (hbare | ⟨e, he, -, hbare⟩)
      · exact ⟨_, mem_reached_self _, hbare'.1 hbare⟩
      · obtain ⟨u, hu, hnull⟩ := (hinner e he).1 hbare
        exact ⟨u, mem_reached_object.2 (.inr ⟨e, he, hu⟩), hnull⟩
    · rintro ⟨u, hu, hnull⟩
      rcases mem_reached_object.1 hu with rfl | ⟨e, he, hu⟩
      · exact .inl (hbare'.2 hnull)
      · refine .inr ⟨e, he, fun hkey => ?_, (hinner e he).2 ⟨u, hu, hnull⟩⟩
        -- a scalar is no map
        have hu := isScalar_of_mem_reached ordered.nodup hscalar he hkey hu
        cases u <;> first | cases hnull | cases hu
  | _ =>
    rw [copy_of_not_nested rfl]
    refine iff_of_false (not_reachesBare_of_not_nested rfl) ?_
    rintro ⟨u, hu, hnull⟩
    rw [reached_of_not_nested rfl, List.mem_singleton] at hu
    subst hu
    cases hnull

/-! ## Rebuilding -/

/-- What a value is rebuilt as. -/
inductive RebuiltAs : Value → Value → Prop
  | list {i : Identity} {vs ws : List Value} (elements : List.Forall₂ RebuiltAs vs ws) :
      RebuiltAs (.list i vs) (.ofList ws)
  | object {i : Identity} {bare : Bool} {es es' : Entries Value}
      (keys : Entries.keys es' = Entries.keys es)
      (values : List.Forall₂ RebuiltAs (es.map Prod.snd) (es'.map Prod.snd)) :
      RebuiltAs (.object i bare es) (.ofEntries es')
  | kept {v : Value} (h : v.isNested = false) : RebuiltAs v v

theorem rebuiltAs_copy_list {vs : List Value} (h : ∀ v ∈ vs, v.RebuiltAs v.copy) (i : Identity) :
    (list i vs).RebuiltAs (list i vs).copy := by
  rw [copy, copyList_eq_map]
  exact .list (List.forall₂_map_right_iff.2 (List.forall₂_same.2 h))

theorem rebuiltAs_copy_object {es : Entries Value} (ordered : Entries.Ordered es)
    (unreserved : reservedKey ∉ Entries.keys es) (h : ∀ e ∈ es, e.2.RebuiltAs e.2.copy)
    (i : Identity) (bare : Bool) : (object i bare es).RebuiltAs (object i bare es).copy := by
  rw [copy_of_ordered ordered unreserved]
  refine .object (Entries.keys_mapValues copy es) ?_
  rw [List.map_map, List.forall₂_map_left_iff, List.forall₂_map_right_iff, List.forall₂_same]
  exact h

/-- **A copy is what the value is rebuilt as,** unless a map with the reserved key is reached. -/
theorem rebuiltAs_copy (hv : v.WellFormed)
    (hr : ∀ u ∈ v.reached, reservedKey ∉ Entries.keys u.entriesOrEmpty) :
    v.RebuiltAs v.copy := by
  induction hv with
  | list elements ih =>
    refine rebuiltAs_copy_list (fun v hmem => ?_) _
    exact ih v hmem fun u hu => hr u (mem_reached_list.2 (.inr ⟨v, hmem, hu⟩))
  | object ordered values ih =>
    refine rebuiltAs_copy_object ordered (hr _ (mem_reached_self _)) (fun e he => ?_) _ _
    exact ih e he fun u hu => hr u (mem_reached_object.2 (.inr ⟨e, he, hu⟩))
  | _ => exact .kept rfl

/-- What looks like a copy is rebuilt as its copy, with the same keys and values. -/
theorem IsCopy.rebuiltAs_copy (h : v.IsCopy) : v.RebuiltAs v.copy := by
  induction h with
  | list elements ih => exact rebuiltAs_copy_list ih .anonymous
  | object ordered unreserved values ih =>
    exact rebuiltAs_copy_object ordered unreserved ih .anonymous _
  | kept h =>
    rw [copy_of_not_nested h]
    exact .kept h

/-- **Only scalars are lost in a copy,** if the reserved key holds nothing but scalars. -/
theorem copy_mem_reached (hv : v.WellFormed)
    (hr : ∀ u ∈ v.reached, (Entries.get? u.entriesOrEmpty reservedKey).all isScalar = true)
    (hu : u ∈ v.reached) : u.isScalar = true ∨ u.copy ∈ v.copy.reached := by
  induction hv with
  | @list i vs elements ih =>
    rcases mem_reached_list.1 hu with rfl | ⟨v, hmem, hu⟩
    · exact .inr (mem_reached_self _)
    · have hinner := ih v hmem (fun u hu => hr u (mem_reached_list.2 (.inr ⟨v, hmem, hu⟩))) hu
      refine hinner.imp_right fun hcopy => ?_
      rw [copy, copyList_eq_map]
      exact mem_reached_list.2 (.inr ⟨v.copy, List.mem_map_of_mem hmem, hcopy⟩)
  | @object i bare es ordered values ih =>
    rcases mem_reached_object.1 hu with rfl | ⟨e, he, hu⟩
    · exact .inr (mem_reached_self _)
    · have hscalar : (Entries.get? es reservedKey).all isScalar = true := hr _ (mem_reached_self _)
      by_cases hkey : e.1 = reservedKey
      · exact .inl (isScalar_of_mem_reached ordered.nodup hscalar he hkey hu)
      · have hinner := ih e he (fun u hu => hr u (mem_reached_object.2 (.inr ⟨e, he, hu⟩))) hu
        refine hinner.imp_right fun hcopied => ?_
        obtain ⟨bare', hcopy, -⟩ := copy_of_isScalar hscalar i bare
        rw [hcopy, mem_reached_object,
          exists_mem_copiedEntries_iff ordered.nodup (u.copy ∈ ·.reached)]
        exact .inr ⟨e, he, hkey, hcopied⟩
  | _ =>
    rw [reached_of_not_nested rfl, List.mem_singleton] at hu
    subst hu
    exact .inr (by rw [copy_of_not_nested rfl]; exact mem_reached_self _)

/-! ## Both together -/

/-- **When copies are stable, and that they are faithful.**

1. A second copy is copied as it is, whatever the value.
2. Where the reserved key holds nothing but scalars, if anything, the first copy is copied as it is
   exactly if none of these scalars is null; and of what the value holds it only lacks scalars.
3. Where no map that is reached has the reserved key, the copy is what the value is rebuilt as. At
   every depth it has the same keys in the same order, and the same values. -/
theorem copy_faithful (hv : v.WellFormed) :
    v.copy.copy.copy = v.copy.copy ∧
    ((∀ u ∈ v.reached, (Entries.get? u.entriesOrEmpty reservedKey).all isScalar = true) →
      (v.copy.copy = v.copy ↔
        ∀ u ∈ v.reached, Entries.get? u.entriesOrEmpty reservedKey ≠ some .null) ∧
      ∀ u ∈ v.reached, u.isScalar = true ∨ u.copy ∈ v.copy.reached) ∧
    ((∀ u ∈ v.reached, reservedKey ∉ Entries.keys u.entriesOrEmpty) → v.RebuiltAs v.copy) := by
  have hcopy := isCopy_copy v
  refine ⟨hcopy.copy_copy, fun hr => ⟨?_, fun _ hu => copy_mem_reached hv hr hu⟩,
    rebuiltAs_copy hv⟩
  rw [hcopy.copy_eq_self_iff, reachesBare_copy_iff hv hr]
  push Not
  rfl

/-- The labels of a sample trunk: a bare map. -/
def sampleLabels (key : String) : Value :=
  .object (.numbered 1) true [("0", .null), (key, .text "blue")]

/-- A sample trunk with two things that have the same labels, one of them in a set. -/
def sampleTrunk (key : String) : Value :=
  .ofEntries [("7", .list (.numbered 2) [sampleLabels key]),
    ("spare", .set (.numbered 3) [sampleLabels key])]

theorem wellFormed_sampleTrunk {key : String}
    (h : Entries.Ordered [("0", Value.null), (key, .text "blue")]) :
    (sampleTrunk key).WellFormed := by
  have hlabels : (sampleLabels key).WellFormed := by
    refine .object h fun e he => ?_
    rcases List.mem_pair.1 he with rfl | rfl
    · exact .null
    · exact .text "blue"
  refine .object (by simp +decide [Entries.Ordered]) fun e he => ?_
  rcases List.mem_pair.1 he with rfl | rfl
  · exact .list (by simpa using hlabels)
  · exact .set (List.pairwise_singleton _ _) (by simpa using hlabels)

/-- The labels in the list become an ordinary map with the same keys, those in the set stay as they
are. A label under the reserved key is lost in the first copy, and nothing in the next. -/
theorem copy_faithful_sampleTrunk :
    (sampleTrunk "paint").RebuiltAs (.ofEntries
      [("7", .ofList [.ofEntries [("0", .null), ("paint", .text "blue")]]),
        ("spare", .set (.numbered 3) [sampleLabels "paint"])]) ∧
    (sampleTrunk reservedKey).copy.copy = (sampleTrunk reservedKey).copy ∧
    (sampleLabels reservedKey).copy ∈ (sampleTrunk reservedKey).copy.reached := by
  have hfaithful := copy_faithful (@wellFormed_sampleTrunk reservedKey (by decide))
  refine ⟨?_, ?_, ?_⟩
  · exact (copy_faithful (wellFormed_sampleTrunk (by decide))).2.2 (by decide)
  · refine (hfaithful.2.1 (by decide)).1.2 fun u hu hnull => ?_
    have hsome : ∀ w ∈ (sampleTrunk reservedKey).reached,
        (Entries.get? w.entriesOrEmpty reservedKey).all (fun x => !x.isNil) = true := by decide
    have hnil := hsome u hu
    rw [hnull] at hnil
    cases hnil
  · have hreached : sampleLabels reservedKey ∈ (sampleTrunk reservedKey).reached :=
      .tail _ (.tail _ (.head _))
    have hkept := (hfaithful.2.1 (by decide)).2 _ hreached
    exact hkept.resolve_left Bool.false_ne_true

/-- A map that holds null under the reserved key: its copy is bare, and the copy of that is not. -/
theorem copy_copy_sampleOrphan :
    (ofEntries [(reservedKey, .null)]).WellFormed ∧
    (∀ u ∈ (ofEntries [(reservedKey, .null)]).reached,
      (Entries.get? u.entriesOrEmpty reservedKey).all isScalar = true) ∧
    (ofEntries [(reservedKey, .null)]).copy = .object .anonymous true [] ∧
    (ofEntries [(reservedKey, .null)]).copy.copy = .emptyMap ∧
    (ofEntries [(reservedKey, .null)]).copy.copy ≠ (ofEntries [(reservedKey, .null)]).copy := by
  refine ⟨?_, by decide, rfl, rfl, fun h => ?_⟩
  · simp +decide [wellFormed_ofEntries_iff, WellFormed.null]
  · cases h

end Value

end LayeredConfig
