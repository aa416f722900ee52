import LayeredConfig.Normalization
import LayeredConfig.Proofs.Completion.Level

/-!
# When normalizing answers a map

Normalizing takes a raw map apart, lays the named profiles over its base and completes the result.
It answers a completed map iff each of these steps succeeds (`Schema.normalize_eq_ok_iff`). Without
profiles it is completing (`Schema.complete_of_normalize`). What it comes to otherwise, logged lines
included, is said from the layer on (`Schema.result_normalize`, `Schema.normalize_without_names`).
-/

namespace LayeredConfig

namespace Schema

variable {schema : Schema} {package : Log.Logger} {names : List String} {map : Value}
  {inherited : Entries Value} {path : Path} {out : Entries Value}

/-- Logging never fails. -/
theorem result_logSelection (package : Log.Logger) (names : List String) :
    (logSelection package names).result = .ok () := by
  unfold logSelection
  split <;> rfl

theorem result_logOutcome (schema : Schema) (package : Log.Logger)
    (outcome : Except Violation (Entries Value)) :
    (schema.logOutcome package outcome).result = .ok () := by
  cases outcome <;> rfl

theorem overlayProfiles_eq_ok_iff {applied : Value} :
    (schema.overlayProfiles package map names).result = .ok applied ↔
      ∃ layer contents, Layer.of .overlayProfiles map = .ok layer ∧
        selectProfiles (layer.profiles.getD []) names = .ok contents ∧
        schema.overlayAll layer.base contents = .ok applied := by
  unfold overlayProfiles
  simp only [Traced.result_bind_eq_ok_iff, Traced.result_ofExcept]
  constructor
  · rintro ⟨layer, hlayer, contents, hcontents, -, -, happlied⟩
    exact ⟨layer, contents, hlayer, hcontents, happlied⟩
  · rintro ⟨layer, contents, hlayer, hcontents, happlied⟩
    exact ⟨layer, hlayer, contents, hcontents, (), result_logSelection package names, happlied⟩

/-- **When normalizing answers a completed map.** -/
theorem normalize_eq_ok_iff :
    (schema.normalize package names map inherited path).result = .ok (.ok out) ↔
      map.orEmptyMap.isMap = true ∧ ∃ applied,
        (schema.overlayProfiles package map.orEmptyMap names).result = .ok applied ∧
        schema.complete inherited path applied = .ok out := by
  unfold normalize
  split
  · rename_i hmap
    simp only [Traced.result_bind_eq_ok_iff]
    constructor
    · rintro ⟨applied, happlied, -, -, hout⟩
      exact ⟨hmap, applied, happlied, Except.ok.inj hout⟩
    · rintro ⟨-, applied, happlied, hout⟩
      exact ⟨applied, happlied, (), schema.result_logOutcome package _, congrArg Except.ok hout⟩
  · rename_i hmap
    constructor
    · intro h
      cases h
    · rintro ⟨h, -⟩
      exact absurd h hmap

/-! ## Once a raw map is taken apart -/

section Layers

variable {layer : Layer} {contents : List Value}

theorem result_overlayProfiles (hlayer : Layer.of .overlayProfiles map = .ok layer)
    (hcontents : selectProfiles (layer.profiles.getD []) names = .ok contents) :
    (schema.overlayProfiles package map names).result = schema.overlayAll layer.base contents := by
  unfold overlayProfiles
  rw [hlayer, Traced.result_bind, Traced.result_ofExcept]
  show (Traced.ofExcept (selectProfiles (layer.profiles.getD []) names) >>= _).result = _
  rw [hcontents, Traced.result_bind, Traced.result_ofExcept]
  show (logSelection package names >>= _).result = _
  rw [Traced.result_bind, result_logSelection]
  rfl

/-- Normalizing a map is completing what its profiles leave. -/
theorem result_normalize (hmap : map.isMap = true) :
    (schema.normalize package names map inherited path).result =
      (schema.overlayProfiles package map names).result.map (schema.complete inherited path) := by
  unfold normalize
  rw [Value.orEmptyMap_of_isMap hmap, if_pos hmap, Traced.result_bind]
  cases (schema.overlayProfiles package map names).result with
  | error fault => rfl
  | ok applied =>
    show (schema.logOutcome package _ >>= _).result = _
    rw [Traced.result_bind, result_logOutcome]
    rfl

/-- Where no profile is named, the base alone is completed, and only its outcome is logged. -/
theorem normalize_without_names (hmap : map.isMap = true)
    (hlayer : Layer.of .overlayProfiles map = .ok layer) :
    schema.normalize package [] map inherited path = (do
      schema.logOutcome package (schema.complete inherited path layer.base)
      return schema.complete inherited path layer.base) := by
  unfold normalize
  rw [Value.orEmptyMap_of_isMap hmap, if_pos hmap, overlayProfiles, hlayer]
  rfl

theorem result_normalize_without_names (hmap : map.isMap = true)
    (hlayer : Layer.of .overlayProfiles map = .ok layer) :
    (schema.normalize package [] map inherited path).result =
      .ok (schema.complete inherited path layer.base) := by
  rw [result_normalize hmap, result_overlayProfiles hlayer rfl]
  rfl

end Layers

/-! ## Without profiles -/

theorem requireMap_of_isMap {operation : Operation} (hmap : map.isMap = true) :
    requireMap operation path map = .ok map.entriesOrEmpty := by
  cases map with
  | object _ _ es => rfl
  | _ => cases hmap

/-- A map without profiles is its own base. -/
theorem layer_of_without_profiles {operation : Operation} (hmap : map.isMap = true)
    (h : Entries.get? map.entriesOrEmpty profilesKey = none) :
    Layer.of operation map = .ok ⟨map, none⟩ := by
  refine bind_eq_ok_iff.2 ⟨map.entriesOrEmpty, requireMap_of_isMap hmap, ?_⟩
  rw [h]
  rfl

/-- Where there are no profiles, and none is named, normalizing is completing. -/
theorem complete_of_normalize (hprofiles : Entries.get? map.entriesOrEmpty profilesKey = none)
    (h : (schema.normalize package [] map inherited path).result = .ok (.ok out)) :
    schema.complete inherited path map = .ok out := by
  obtain ⟨hmap, applied, happlied, hout⟩ := normalize_eq_ok_iff.1 h
  obtain ⟨layer, contents, hlayer, hcontents, happlied⟩ := overlayProfiles_eq_ok_iff.1 happlied
  rw [← Value.entriesOrEmpty_orEmptyMap] at hprofiles
  rw [layer_of_without_profiles hmap hprofiles] at hlayer
  cases hlayer
  cases hcontents
  cases happlied
  rw [complete_orEmptyMap] at hout
  exact hout

theorem normalize_of_complete (hmap : map.isMap = true)
    (hprofiles : Entries.get? map.entriesOrEmpty profilesKey = none)
    (h : schema.complete inherited path map = .ok out) :
    (schema.normalize package [] map inherited path).result = .ok (.ok out) := by
  have hself : map.orEmptyMap = map := Value.orEmptyMap_of_isMap hmap
  have happlied : (schema.overlayProfiles package map []).result = .ok map :=
    overlayProfiles_eq_ok_iff.2
      ⟨_, [], layer_of_without_profiles hmap hprofiles, rfl, rfl⟩
  refine normalize_eq_ok_iff.2 ?_
  rw [hself]
  exact ⟨hmap, map, happlied, h⟩

end Schema

end LayeredConfig
