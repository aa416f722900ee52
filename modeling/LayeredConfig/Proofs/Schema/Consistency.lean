import LayeredConfig.Proofs.Data.WellFormed
import LayeredConfig.Proofs.Schema.Tree

/-!
# Schemas in which inheritance fits

What is given for an inheriting setting or section is handed down to every schema nested below,
and stands in there for whatever is declared under the same key. Nothing checks that it fits.

- `Schema.InheritsInKind`: it fits in kind. Below an inheriting setting no section has its key;
  below an inheriting section no setting has its key, and sections of its key have its schema.
- `Schema.InheritanceConsistent`: it fits in range, too. Below an inheriting setting, settings of
  its key have its range.
- `Schema.HandsDownAccepted`: it fits in what is accepted. Below an inheriting declaration, whatever
  that one accepts is accepted under its key, by settings and sections alike.
  `InheritanceConsistent.handsDownAccepted` says that this asks for less.
-/

namespace LayeredConfig

namespace Schema

/-- Declarations below an inheriting one of the same key are of its kind, and sections have its
schema. -/
structure InheritsInKind (schema : Schema) : Prop where
  setting : ∀ outer ∈ schema.nested, ∀ s ∈ outer.settings, s.inherit = true →
    ∀ inner ∈ outer.enclosed, ∀ node ∈ inner.sections, node.key ≠ s.key
  nested : ∀ outer ∈ schema.nested, ∀ node ∈ outer.sections, node.inherit = true →
    ∀ inner ∈ outer.enclosed, (∀ s ∈ inner.settings, s.key ≠ node.key) ∧
      ∀ node' ∈ inner.sections, node'.key = node.key → node'.schema = node.schema

/-- Declarations below an inheriting one of the same key are of its kind, with its range or
schema. -/
structure InheritanceConsistent (schema : Schema) : Prop extends InheritsInKind schema where
  range : ∀ outer ∈ schema.nested, ∀ s ∈ outer.settings, s.inherit = true →
    ∀ inner ∈ outer.enclosed, ∀ s' ∈ inner.settings, s'.key = s.key → s'.range = s.range

theorem InheritsInKind.section {schema : Schema} (h : schema.InheritsInKind) {node : Section}
    (hnode : node ∈ schema.sections) : node.schema.InheritsInKind where
  setting outer houter := h.setting outer (mem_nested_of_section hnode houter)
  nested outer houter := h.nested outer (mem_nested_of_section hnode houter)

/-- A section at or below the level that has the key of an inheriting section of the level has its
schema. -/
theorem InheritsInKind.schema_eq {schema inner : Schema} (h : schema.InheritsInKind)
    (hd : schema.DistinctKeys) {node node' : Section} (hnode : node ∈ schema.sections)
    (hinherit : node.inherit = true) (hinner : inner ∈ schema.nested)
    (hnode' : node' ∈ inner.sections) (hkey : node'.key = node.key) :
    node'.schema = node.schema := by
  rw [nested_eq] at hinner
  rcases List.mem_cons.1 hinner with rfl | hinner
  · -- on the level itself, it is that section
    have hsection := hd.section?_of_mem hnode
    rw [← hkey, hd.section?_of_mem hnode'] at hsection
    exact congrArg Section.schema (Option.some.inj hsection)
  · exact (h.nested schema schema.self_mem_nested node hnode hinherit inner hinner).2 node' hnode'
      hkey

theorem InheritanceConsistent.section {schema : Schema} (h : schema.InheritanceConsistent)
    {node : Section} (hnode : node ∈ schema.sections) : node.schema.InheritanceConsistent where
  toInheritsInKind := h.toInheritsInKind.section hnode
  range outer houter := h.range outer (mem_nested_of_section hnode houter)

end Schema

/-! ## What is accepted -/

namespace Declaration

/-- Whether what is given for the declaration is handed down. -/
def inherits : Declaration → Bool
  | .setting s => s.inherit
  | .nested node => node.inherit

/-- In some place the declaration accepts the value, where `scope` is inherited. -/
def Accepts : Declaration → (scope : Entries Value) → Value → Prop
  | .setting s, _, v => ∃ path w, s.range.complete path v = .ok w
  | .nested node, scope, v => ∃ path es, node.schema.complete scope path v = .ok es

end Declaration

namespace Schema

/-- The settings and sections of a schema. -/
def declarations (schema : Schema) : List Declaration :=
  schema.settings.map .setting ++ schema.sections.map .nested

theorem setting_mem_declarations {schema : Schema} {s : Setting} :
    .setting s ∈ schema.declarations ↔ s ∈ schema.settings := by
  simp [declarations]

theorem nested_mem_declarations {schema : Schema} {node : Section} :
    .nested node ∈ schema.declarations ↔ node ∈ schema.sections := by
  simp [declarations]

/-- Whatever an inheriting declaration accepts is accepted by each declaration of its key in the
schemas below. -/
def HandsDownAccepted (schema : Schema) : Prop :=
  ∀ outer ∈ schema.nested, ∀ d ∈ outer.declarations, d.inherits = true →
    ∀ inner ∈ outer.enclosed, ∀ d' ∈ inner.declarations, d'.key = d.key →
      ∀ scope v, v.WellFormed → d.Accepts scope v → d'.Accepts scope v

theorem HandsDownAccepted.of_mem_nested {schema inner : Schema} (h : schema.HandsDownAccepted)
    (hinner : inner ∈ schema.nested) : inner.HandsDownAccepted :=
  fun outer houter => h outer (mem_nested_trans hinner houter)

/-- Declarations of one range or schema accept the same. -/
theorem InheritanceConsistent.handsDownAccepted {schema : Schema}
    (h : schema.InheritanceConsistent) : schema.HandsDownAccepted := by
  intro outer houter d hd hinherits inner hinner d' hd' hkey scope v _ haccepts
  cases d with
  | setting s =>
    rw [setting_mem_declarations] at hd
    cases d' with
    | setting s' =>
      rw [setting_mem_declarations] at hd'
      have hrange : s'.range = s.range :=
        h.range outer houter s hd hinherits inner hinner s' hd' hkey
      obtain ⟨path, w, hw⟩ := haccepts
      exact ⟨path, w, by rw [hrange]; exact hw⟩
    | nested node =>
      rw [nested_mem_declarations] at hd'
      exact absurd hkey (h.setting outer houter s hd hinherits inner hinner node hd')
  | nested node =>
    rw [nested_mem_declarations] at hd
    obtain ⟨hsettings, hsections⟩ := h.nested outer houter node hd hinherits inner hinner
    cases d' with
    | setting s' =>
      rw [setting_mem_declarations] at hd'
      exact absurd hkey (hsettings s' hd')
    | nested node' =>
      rw [nested_mem_declarations] at hd'
      obtain ⟨path, es, hes⟩ := haccepts
      exact ⟨path, es, by rw [hsections node' hd' hkey]; exact hes⟩

end Schema

end LayeredConfig
