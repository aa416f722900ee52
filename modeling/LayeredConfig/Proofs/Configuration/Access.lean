import LayeredConfig.Configuration
import LayeredConfig.Proofs.Completion.Normalization

/-!
# Reading a configuration

- `Configuration.make_eq_ok`, `Configuration.make_of_normalize`: a configuration is made of a
  normalized map.
- `Configuration.access_of_held`: reading a declared setting finds what the map of the configuration
  holds there.
-/

namespace LayeredConfig

namespace Configuration

variable {schema : Schema}

/-- **A configuration is made of a normalized map.** -/
theorem make_eq_ok {package : Log.Logger} {names : List String} {map : Value}
    {logger : Option Log.Logger} {config : Configuration}
    (h : (make package schema names map logger).result = .ok config) :
    ∃ out, (schema.normalize package names map [] []).result = .ok (.ok out) ∧
      config = ofNormalized out schema := by
  obtain ⟨outcome, houtcome, h⟩ := Traced.result_bind_eq_ok_iff.1 h
  cases outcome with
  | error violation =>
    obtain ⟨_, _, h⟩ := Traced.result_bind_eq_ok_iff.1 h
    cases h
  | ok out =>
    obtain ⟨_, _, h⟩ := Traced.result_bind_eq_ok_iff.1 h
    cases h
    exact ⟨out, houtcome, rfl⟩

/-- Where a raw map is normalized, a configuration is made of it; logging never fails. -/
theorem make_of_normalize {package : Log.Logger} {names : List String} {map : Value}
    (logger : Option Log.Logger) {out : Entries Value}
    (h : (schema.normalize package names map [] []).result = .ok (.ok out)) :
    (make package schema names map logger).result = .ok (ofNormalized out schema) :=
  Traced.result_bind_eq_ok_iff.2 ⟨.ok out, h, rfl⟩

/-- Where something is held, the way leads there. -/
theorem descend_of_held (operation : Operation) (before : List String) {keys : List String}
    (place : Place) {inner : Schema} (hinner : place.schema.under? keys = some inner)
    {key : String} {w : Value} (h : place.map.held? keys key = some w) :
    ∃ v, descend operation before place keys = .ok ⟨v, inner⟩ ∧
      Entries.get? v.entriesOrEmpty key = some w := by
  induction keys generalizing before place with
  | nil =>
    cases hinner
    exact ⟨place.map, rfl, h⟩
  | cons head rest ih =>
    obtain ⟨node, hnode, hrest⟩ := Schema.under?_cons_eq_some_iff.1 hinner
    rw [Value.held?_cons] at h
    rw [descend, hnode, Value.isMap_of_held? h]
    exact ih _ ⟨_, node.schema⟩ hrest h

/-- **Reading a declared setting finds what is held there.** -/
theorem access_of_held {config : Configuration} {keys : List String} {inner : Schema}
    (hinner : config.schema.under? keys = some inner) (hd : inner.DistinctKeys) {s : Setting}
    (hs : s ∈ inner.settings) {w : Value}
    (h : (Value.ofEntries config.map).held? keys s.key = some w) :
    config.access s.key keys = .ok w := by
  obtain ⟨v, hplace, hget⟩ := descend_of_held .access [] config.top hinner h
  refine bind_eq_ok_iff.2 ⟨_, hplace, ?_⟩
  rw [hd.setting?_of_mem hs, hget]
  rfl

end Configuration

end LayeredConfig
