import LayeredConfig.Proofs.Data.Outcome
import LayeredConfig.Proofs.Json.Numerals
import Mathlib.Logic.Relation

/-!
# Which values have a document

- `Value.parts`: what is looked at when a value is written. The elements of a list are, and what the
  entries of a map or the fields of a foreign value hold; sets and tables are not opened.
- `encode_exists_iff`: a value has a document exactly when no integer that cannot be written is
  reached from it (`Value.ReachesBigint`). One value with its parts is settled first
  (`encode_exists_iff_parts`).
- `wellFormed_of_encode`: the document is well-formed.
-/

namespace LayeredConfig

namespace Value

/-- What is looked at when a value is written. -/
def parts : Value → List Value
  | .list _ vs => vs
  | .object _ _ es | .foreign _ _ es => es.map Prod.snd
  | .undefined | .null | .bool _ | .text _ | .number _ | .bigint _ | .map _ _ | .set _ _
  | .date _ _ => []

/-- An integer that cannot be written is reached from the value. -/
def ReachesBigint (v : Value) : Prop :=
  ∃ n, Relation.ReflTransGen (fun v w => w ∈ v.parts) v (.bigint n)

/-- What is reached from a value is the value itself, or is reached from one of its parts. -/
theorem reachesBigint_iff {v : Value} :
    v.ReachesBigint ↔ (∃ n, v = .bigint n) ∨ ∃ w ∈ v.parts, w.ReachesBigint := by
  constructor
  · rintro ⟨n, h⟩
    rcases Relation.ReflTransGen.cases_head h with rfl | ⟨w, hw, hrest⟩
    · exact .inl ⟨n, rfl⟩
    · exact .inr ⟨w, hw, n, hrest⟩
  · rintro (⟨n, rfl⟩ | ⟨w, hw, n, hrest⟩)
    · exact ⟨n, .refl⟩
    · exact ⟨n, .head hw hrest⟩

theorem sizeOf_lt_of_mem_values {es : List (String × Value)} {v : Value}
    (h : v ∈ es.map Prod.snd) : sizeOf v < sizeOf es := by
  obtain ⟨⟨key, v⟩, he, rfl⟩ := List.mem_map.1 h
  have hlt := List.sizeOf_lt_of_mem he
  have hpair : sizeOf (key, v) = 1 + sizeOf key + sizeOf v := rfl
  show sizeOf v < _
  omega

theorem sizeOf_lt_of_mem_parts {v w : Value} (h : w ∈ v.parts) : sizeOf w < sizeOf v := by
  cases v with
  | list i vs =>
    have hlt : sizeOf w < sizeOf vs := List.sizeOf_lt_of_mem h
    simp only [list.sizeOf_spec]
    omega
  | object i bare es =>
    have hlt := sizeOf_lt_of_mem_values h
    simp only [object.sizeOf_spec]
    omega
  | foreign i typeName es =>
    have hlt := sizeOf_lt_of_mem_values h
    simp only [foreign.sizeOf_spec]
    omega
  | _ => nomatch h

/-! ## Having a document -/

theorem encodeElements_exists_iff {vs : List Value} :
    (∃ js, encodeElements vs = .ok js) ↔ ∀ v ∈ vs, ∃ doc, v.encode = .ok doc := by
  induction vs with
  | nil => simp [encodeElements]
  | cons v rest ih =>
    rw [List.forall_mem_cons, ← ih]
    simp only [encodeElements, bind_eq_ok_iff]
    constructor
    · rintro ⟨_, doc, hdoc, js, hjs, -⟩
      exact ⟨⟨doc, hdoc⟩, js, hjs⟩
    · rintro ⟨⟨doc, hdoc⟩, js, hjs⟩
      exact ⟨_, doc, hdoc, js, hjs, rfl⟩

theorem encodeEntries_exists_iff {es : List (String × Value)} :
    (∃ ms, encodeEntries es = .ok ms) ↔ ∀ v ∈ es.map Prod.snd, ∃ doc, v.encode = .ok doc := by
  induction es with
  | nil => simp [encodeEntries]
  | cons e rest ih =>
    rw [List.map_cons, List.forall_mem_cons, ← ih]
    simp only [encodeEntries, bind_eq_ok_iff]
    constructor
    · rintro ⟨_, doc, hdoc, ms, hms, -⟩
      exact ⟨⟨doc, hdoc⟩, ms, hms⟩
    · rintro ⟨⟨doc, hdoc⟩, ms, hms⟩
      exact ⟨_, doc, hdoc, ms, hms, rfl⟩

/-- A value has a document if its parts have, unless it is an integer that cannot be written. -/
theorem encode_exists_iff_parts (v : Value) :
    (∃ doc, v.encode = .ok doc) ↔
      (¬∃ n, v = .bigint n) ∧ ∀ w ∈ v.parts, ∃ doc, w.encode = .ok doc := by
  cases v with
  | list i vs => simp [encode, parts, map_exists_iff, encodeElements_exists_iff]
  | object i bare es => simp [encode, parts, map_exists_iff, encodeEntries_exists_iff]
  | foreign i typeName es => simp [encode, parts, map_exists_iff, encodeEntries_exists_iff]
  | _ => simp [encode, parts]

/-- **A value has a document unless it reaches an integer that cannot be written.** -/
theorem encode_exists_iff (v : Value) : (∃ doc, v.encode = .ok doc) ↔ ¬v.ReachesBigint := by
  have hparts : ∀ w ∈ v.parts, (∃ doc, w.encode = .ok doc) ↔ ¬w.ReachesBigint :=
    fun w hw => encode_exists_iff w
  rw [encode_exists_iff_parts, reachesBigint_iff, not_or, forall₂_congr hparts]
  simp
termination_by sizeOf v
decreasing_by exact sizeOf_lt_of_mem_parts hw

/-- What stands in a set is not looked at. -/
example : (Value.ofEntries [("seen", .set .anonymous [.bigint 1])]).encode =
    .ok (some (.object [("seen", .object [])])) := rfl

/-- A map has a document unless a value in it reaches an integer that cannot be written. -/
theorem encodeEntries_exists_iff_not_reachesBigint (es : Entries Value) :
    (∃ ms, encodeEntries es = .ok ms) ↔ ¬(ofEntries es).ReachesBigint := by
  rw [← encode_exists_iff, ofEntries, encode, map_exists_iff]

/-! ## The document -/

mutual

/-- **The document of a value is well-formed.** -/
theorem wellFormed_of_encode : ∀ (v : Value) {j : Json}, v.encode = .ok (some j) → j.WellFormed
  | .list _ vs, j, h => by
    simp only [encode, map_eq_ok_iff, Option.some.injEq] at h
    obtain ⟨js, hjs, rfl⟩ := h
    exact .array (wellFormed_of_encodeElements vs hjs)
  | .object _ _ es, j, h => by
    simp only [encode, map_eq_ok_iff, Option.some.injEq] at h
    obtain ⟨ms, hms, rfl⟩ := h
    exact .object (wellFormed_of_encodeEntries es hms)
  | .foreign _ _ es, j, h => by
    simp only [encode, map_eq_ok_iff, Option.some.injEq] at h
    obtain ⟨ms, hms, rfl⟩ := h
    exact .object (wellFormed_of_encodeEntries es hms)
  | .number n, j, h => by
    cases h
    exact Json.wellFormed_encodeNumber n
  | .null, j, h => by
    cases h
    exact .null
  | .bool b, j, h => by
    cases h
    exact .bool b
  | .text s, j, h | .date _ s, j, h => by
    cases h
    exact .string s
  | .map _ _, j, h | .set _ _, j, h => by
    cases h
    exact .object fun m hm => nomatch hm
  | .undefined, _, h | .bigint _, _, h => nomatch h

/-- `wellFormed_of_encode` for the elements of a list. -/
theorem wellFormed_of_encodeElements : ∀ (vs : List Value) {js : List Json},
    encodeElements vs = .ok js → ∀ j ∈ js, j.WellFormed
  | [], js, h => by
    cases h
    exact fun j hj => nomatch hj
  | v :: rest, js, h => by
    simp only [encodeElements, bind_eq_ok_iff, pure_eq_ok_iff] at h
    obtain ⟨doc, hdoc, js, hjs, rfl⟩ := h
    intro j hj
    rcases List.mem_cons.1 hj with rfl | hj
    · cases doc with
      | none => exact .null
      | some j => exact wellFormed_of_encode v hdoc
    · exact wellFormed_of_encodeElements rest hjs j hj

/-- `wellFormed_of_encode` for the values of a map. -/
theorem wellFormed_of_encodeEntries : ∀ (es : List (String × Value)) {ms : List (String × Json)},
    encodeEntries es = .ok ms → ∀ m ∈ ms, m.2.WellFormed
  | [], ms, h => by
    cases h
    exact fun m hm => nomatch hm
  | (key, v) :: rest, ms, h => by
    simp only [encodeEntries, bind_eq_ok_iff, pure_eq_ok_iff] at h
    obtain ⟨doc, hdoc, ms, hms, rfl⟩ := h
    intro m hm
    cases doc with
    | none => exact wellFormed_of_encodeEntries rest hms m hm
    | some j =>
      rcases List.mem_cons.1 hm with rfl | hm
      · exact wellFormed_of_encode v hdoc
      · exact wellFormed_of_encodeEntries rest hms m hm

end

end Value

end LayeredConfig
