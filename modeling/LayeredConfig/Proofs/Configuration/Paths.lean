import LayeredConfig.Proofs.Configuration.Differences

/-!
# Which paths can be read

Whatever is read of a configuration, it is first gone down through sections. That stops where the
schema has no section of the key, or the map has no map under it, and the keys up to there are
reported. In a configuration that was made, the two go together: its map has the shape of its
schema, however its slots were filled, so the schema alone tells which paths can be read
(`Configuration.access_iff_declared`).

- `Fault.LeadsNowhere`, `FailsAt`: what is reported about keys that lead nowhere.
- `Place.reach`: where keys lead, or the shortest part of them that leads nowhere. It is `descend`
  without an operation to name (`Configuration.descend_eq`), so what comes of each operation follows
  from what comes of `reach`. `Place.reach_append` goes a way in two parts.
- `Schema.IsFirstUndeclared`: the shortest part of a way that the schema does not declare.
  `Place.reach_of_shaped` and `Place.reach_of_undeclared` say that a shaped map leads wherever the
  schema does, and no further.
-/

namespace LayeredConfig

/-! ## What is reported -/

/-- The fault reports that the keys lead nowhere. -/
def Fault.LeadsNowhere (fault : Fault) (keys : List String) : Prop :=
  fault.code = .unknownAccessPath ∧ Entries.get? fault.details "path" = some (textList keys)

/-- A fault reports one list of keys. -/
theorem Fault.LeadsNowhere.unique {fault : Fault} {keys keys' : List String}
    (h : fault.LeadsNowhere keys) (h' : fault.LeadsNowhere keys') : keys = keys' := by
  have hlist : textList keys = textList keys' := Option.some.inj (h.2.symm.trans h'.2)
  have htexts : keys.map Value.text = keys'.map Value.text := (Value.list.inj hlist).2
  exact List.map_injective_iff.2 (fun _ _ heq => Value.text.inj heq) htexts

/-- The outcome is a fault which reports that the keys lead nowhere. -/
def FailsAt {α : Type} (outcome : Except Fault α) (keys : List String) : Prop :=
  ∃ fault, outcome = .error fault ∧ fault.LeadsNowhere keys

/-- What fails does not come to anything. -/
theorem FailsAt.ne_ok {α : Type} {outcome : Except Fault α} {keys : List String}
    (h : FailsAt outcome keys) (a : α) : outcome ≠ .ok a := by
  obtain ⟨fault, rfl, -⟩ := h
  exact fun heq => nomatch heq

/-! ## Where keys lead -/

namespace Place

/-- The place to which the keys of sections lead, or else the keys up to the first one that leads
nowhere. -/
def reach : Place → List String → Except (List String) Place
  | place, [] => .ok place
  | place, key :: rest =>
    let inner := Entries.read place.map.entriesOrEmpty key
    match place.schema.section? key, inner.isMap with
    | some node, true => (reach ⟨inner, node.schema⟩ rest).mapError (key :: ·)
    | _, _ => .error [key]

variable {place inner : Place} {key : String} {keys before after taken : List String}

theorem reach_cons {node : Section} (hnode : place.schema.section? key = some node)
    (hmap : (Entries.read place.map.entriesOrEmpty key).isMap = true) (rest : List String) :
    place.reach (key :: rest) =
      (reach ⟨Entries.read place.map.entriesOrEmpty key, node.schema⟩ rest).mapError
        (key :: ·) := by
  rw [reach, hnode, hmap]

theorem reach_cons_of_undeclared (h : place.schema.section? key = none) (rest : List String) :
    place.reach (key :: rest) = .error [key] := by
  rw [reach, h]

theorem reach_cons_of_no_map (h : (Entries.read place.map.entriesOrEmpty key).isMap = false)
    (rest : List String) : place.reach (key :: rest) = .error [key] := by
  rw [reach, h]
  cases place.schema.section? key <;> rfl

/-- **A way may be gone in two parts.** Where the second one leads nowhere, it does so behind the
first one. -/
theorem reach_append (place : Place) (before after : List String) :
    place.reach (before ++ after) =
      place.reach before >>= fun inner => (inner.reach after).mapError (before ++ ·) := by
  induction before generalizing place with
  | nil =>
    show place.reach after = (place.reach after).mapError fun keys => keys
    cases place.reach after <;> rfl
  | cons key rest ih =>
    rw [List.cons_append]
    cases hnode : place.schema.section? key with
    | none =>
      rw [reach_cons_of_undeclared hnode, reach_cons_of_undeclared hnode]
      rfl
    | some node =>
      cases hmap : (Entries.read place.map.entriesOrEmpty key).isMap with
      | false =>
        rw [reach_cons_of_no_map hmap, reach_cons_of_no_map hmap]
        rfl
      | true =>
        rw [reach_cons hnode hmap, reach_cons hnode hmap, ih, mapError_bind]
        refine bind_congr fun inner => ?_
        cases inner.reach after <;> rfl

theorem reach_append_of_ok (h : place.reach before = .ok inner) (after : List String) :
    place.reach (before ++ after) = (inner.reach after).mapError (before ++ ·) := by
  rw [reach_append, h]
  rfl

theorem reach_append_of_error (h : place.reach before = .error taken) (after : List String) :
    place.reach (before ++ after) = .error taken := by
  rw [reach_append, h]
  rfl

end Place

namespace Configuration

variable {config : Configuration} {sections keys : List String} {place : Place}

/-- **Going down is reaching a place,** and reporting what leads nowhere as the operation that
asked. -/
theorem descend_eq (operation : Operation) (before : List String) (place : Place)
    (keys : List String) :
    descend operation before place keys =
      (place.reach keys).mapError fun taken => .noSection operation (before ++ taken) := by
  induction keys generalizing before place with
  | nil => rfl
  | cons key rest ih =>
    rw [descend]
    cases hnode : place.schema.section? key with
    | none =>
      rw [Place.reach_cons_of_undeclared hnode]
      rfl
    | some node =>
      cases hmap : (Entries.read place.map.entriesOrEmpty key).isMap with
      | false =>
        rw [Place.reach_cons_of_no_map hmap]
        rfl
      | true =>
        rw [Place.reach_cons hnode hmap]
        show descend operation (before ++ [key]) ⟨_, node.schema⟩ rest = _
        rw [ih]
        cases Place.reach ⟨_, node.schema⟩ rest with
        | ok inner => rfl
        | error taken =>
          show Except.error (Fault.noSection operation (before ++ [key] ++ taken)) = _
          rw [← List.append_cons]
          rfl

theorem place_of_reach (operation : Operation) (h : config.top.reach sections = .ok place) :
    config.place operation sections = .ok place := by
  show descend operation [] config.top sections = .ok place
  rw [descend_eq, h]
  rfl

theorem place_of_nowhere (operation : Operation) (h : config.top.reach sections = .error keys) :
    config.place operation sections = .error (.noSection operation keys) := by
  show descend operation [] config.top sections = _
  rw [descend_eq, h]
  rfl

theorem sectionMap_of_reach (h : config.top.reach sections = .ok place) :
    config.sectionMap sections = .ok place.map := by
  rw [sectionMap, place_of_reach _ h]
  rfl

theorem subconfiguration_of_reach (h : config.top.reach sections = .ok place) :
    config.subconfiguration sections =
      .ok (ofNormalized place.map.entriesOrEmpty place.schema) := by
  rw [subconfiguration, place_of_reach _ h]
  rfl

theorem access_of_reach (h : config.top.reach sections = .ok place) {s : Setting} {key : String}
    (hs : place.schema.setting? key = some s) {v : Value}
    (hv : Entries.get? place.map.entriesOrEmpty key = some v) :
    config.access key sections = .ok v := by
  refine bind_eq_ok_iff.2 ⟨place, place_of_reach _ h, ?_⟩
  rw [hs, hv]
  rfl

theorem access_failsAt_of_reach (h : config.top.reach sections = .ok place) {key : String}
    (hnone : place.schema.setting? key = none ∨
      Entries.get? place.map.entriesOrEmpty key = none) :
    FailsAt (config.access key sections) (sections ++ [key]) := by
  refine ⟨.noSetting (sections ++ [key]),
    bind_eq_error_iff.2 (.inr ⟨place, place_of_reach _ h, ?_⟩), rfl, rfl⟩
  rcases hnone with hnone | hnone
  · rw [hnone]
    rfl
  · rw [hnone]
    cases place.schema.setting? key <;> rfl

/-- **Keys that lead nowhere are reported by every operation.** -/
theorem failsAt_of_nowhere (h : config.top.reach sections = .error keys) :
    FailsAt (config.subconfiguration sections) keys ∧ FailsAt (config.sectionMap sections) keys ∧
      ∀ key, FailsAt (config.access key sections) keys := by
  refine ⟨⟨.noSection .subconfigure keys, ?_, rfl, rfl⟩,
    ⟨.noSection .accessSection keys, ?_, rfl, rfl⟩,
    fun key => ⟨.noSection .access keys, ?_, rfl, rfl⟩⟩
  · exact map_eq_error_iff.2 (place_of_nowhere _ h)
  · exact map_eq_error_iff.2 (place_of_nowhere _ h)
  · exact bind_eq_error_iff.2 (.inl (place_of_nowhere _ h))

end Configuration

/-! ## Declared sections -/

namespace Schema

/-- The shortest part of the way `keys` that is no way through declared sections. -/
structure IsFirstUndeclared (schema : Schema) (keys taken : List String) : Prop where
  begins : taken <+: keys
  undeclared : schema.under? taken = none
  shortest : ∀ shorter, shorter <+: keys → schema.under? shorter = none →
    taken.length ≤ shorter.length

variable {schema : Schema} {key : String}

theorem isFirstUndeclared_head (h : schema.section? key = none) (rest : List String) :
    schema.IsFirstUndeclared (key :: rest) [key] where
  begins := ⟨rest, rfl⟩
  undeclared := by rw [under?, h]
  shortest shorter _ hshorter := by
    cases shorter with
    | nil => cases hshorter
    | cons first later => exact Nat.succ_le_succ (Nat.zero_le _)

theorem IsFirstUndeclared.cons {node : Section} (hnode : schema.section? key = some node)
    {rest taken : List String} (h : node.schema.IsFirstUndeclared rest taken) :
    schema.IsFirstUndeclared (key :: rest) (key :: taken) where
  begins := List.cons_prefix_cons.2 ⟨rfl, h.begins⟩
  undeclared := by
    rw [under?, hnode]
    exact h.undeclared
  shortest shorter hbegins hshorter := by
    cases shorter with
    | nil => cases hshorter
    | cons first later =>
      obtain ⟨rfl, hlater⟩ := List.cons_prefix_cons.1 hbegins
      rw [under?, hnode] at hshorter
      exact Nat.succ_le_succ (h.shortest later hlater hshorter)

/-- There is only one such part. -/
theorem IsFirstUndeclared.unique {keys taken taken' : List String}
    (h : schema.IsFirstUndeclared keys taken) (h' : schema.IsFirstUndeclared keys taken') :
    taken = taken' := by
  have hle : taken.length ≤ taken'.length := h.shortest taken' h'.begins h'.undeclared
  have hge : taken'.length ≤ taken.length := h'.shortest taken h.begins h.undeclared
  exact (List.prefix_of_prefix_length_le h.begins h'.begins hle).eq_of_length
    (Nat.le_antisymm hle hge)

end Schema

namespace Place

variable (place : Place) {key : String} {keys : List String} {inner : Schema}

/-- Under the key of a section, a shaped map holds a shaped map. -/
theorem read_of_shaped (h : place.schema.Shaped place.map) {node : Section}
    (hnode : place.schema.section? key = some node) :
    (Entries.read place.map.entriesOrEmpty key).isMap = true ∧
      node.schema.Shaped (Entries.read place.map.entriesOrEmpty key) := by
  obtain ⟨hmem, rfl⟩ := Schema.mem_of_section? hnode
  have hshaped := h.section hmem
  exact ⟨((Schema.shaped_iff _ _).1 hshaped).1, hshaped⟩

/-- **A shaped map leads wherever its schema does,** to a shaped map. -/
theorem reach_of_shaped (h : place.schema.Shaped place.map)
    (hinner : place.schema.under? keys = some inner) :
    ∃ v, place.reach keys = .ok ⟨v, inner⟩ ∧ inner.Shaped v := by
  induction keys generalizing place with
  | nil =>
    cases hinner
    exact ⟨place.map, rfl, h⟩
  | cons key rest ih =>
    obtain ⟨node, hnode, hrest⟩ := Schema.under?_cons_eq_some_iff.1 hinner
    obtain ⟨hmap, hshaped⟩ := read_of_shaped place h hnode
    obtain ⟨v, hv, hlast⟩ :=
      ih ⟨Entries.read place.map.entriesOrEmpty key, node.schema⟩ hshaped hrest
    refine ⟨v, ?_, hlast⟩
    rw [reach_cons hnode hmap, hv]
    rfl

/-- **Where the schema does not lead, no shaped map does,** and the first key that is not declared
is the last one to be reported. -/
theorem reach_of_undeclared (h : place.schema.Shaped place.map)
    (hnone : place.schema.under? keys = none) :
    ∃ taken, place.reach keys = .error taken ∧ place.schema.IsFirstUndeclared keys taken := by
  induction keys generalizing place with
  | nil => cases hnone
  | cons key rest ih =>
    cases hnode : place.schema.section? key with
    | none =>
      exact ⟨[key], reach_cons_of_undeclared hnode rest, Schema.isFirstUndeclared_head hnode rest⟩
    | some node =>
      obtain ⟨hmap, hshaped⟩ := read_of_shaped place h hnode
      rw [Schema.under?, hnode] at hnone
      obtain ⟨taken, htaken, hfirst⟩ :=
        ih ⟨Entries.read place.map.entriesOrEmpty key, node.schema⟩ hshaped hnone
      refine ⟨key :: taken, ?_, hfirst.cons hnode⟩
      rw [reach_cons hnode hmap, htaken]
      rfl

end Place

/-! ## Configurations -/

namespace Configuration

variable {schema inner : Schema} {config : Configuration} {sections : List String} {key : String}

/-- A declared setting can be read. -/
theorem access_exists (hp : config.schema.Proper)
    (hshaped : config.schema.Shaped (.ofEntries config.map))
    (hinner : config.schema.under? sections = some inner) {s : Setting} (hs : s ∈ inner.settings) :
    ∃ v, config.access s.key sections = .ok v := by
  obtain ⟨level, hreach, hlevel⟩ := Place.reach_of_shaped config.top hshaped hinner
  have hmem : s.key ∈ Entries.keys level.entriesOrEmpty := by
    rw [((Schema.shaped_iff _ _).1 hlevel).2.2.1, mem_propertyOrder]
    exact Schema.mem_keys_of_setting hs
  obtain ⟨v, hv⟩ := Option.isSome_iff_exists.1 (Entries.has_iff.2 hmem)
  exact ⟨v, access_of_reach hreach ((hp.under? hinner).distinctKeys.setting?_of_mem hs) hv⟩

/-- A setting that is not declared where the sections lead cannot be read. -/
theorem access_failsAt_undeclared (hshaped : config.schema.Shaped (.ofEntries config.map))
    (hinner : config.schema.under? sections = some inner)
    (hkey : ∀ s ∈ inner.settings, s.key ≠ key) :
    FailsAt (config.access key sections) (sections ++ [key]) := by
  obtain ⟨level, hreach, -⟩ := Place.reach_of_shaped config.top hshaped hinner
  refine access_failsAt_of_reach hreach (.inl ?_)
  exact List.find?_eq_none.2 fun s hs => by simpa using hkey s hs

/-- **What can be read of a configuration** is exactly what its schema declares. A setting can be
read iff its path is one of declared sections and of a setting declared there, and a section iff
its path is one of declared sections. Else the shortest part of the path that is not declared is
reported. -/
theorem access_iff_declared (hp : schema.Proper) (hk : schema.InheritsInKind)
    {package : Log.Logger} {names : List String} {map : Value} {logger : Option Log.Logger}
    (hmap : map.WellFormed) (h : (make package schema names map logger).result = .ok config)
    (sections : List String) (key : String) :
    ((∃ v, config.access key sections = .ok v) ↔
      ∃ inner, schema.under? sections = some inner ∧ ∃ s ∈ inner.settings, s.key = key) ∧
    ((∃ v, config.sectionMap sections = .ok v) ↔
      ∃ inner, schema.under? sections = some inner) ∧
    (schema.under? sections = none → ∃ taken, schema.IsFirstUndeclared sections taken ∧
      FailsAt (config.access key sections) taken ∧ FailsAt (config.sectionMap sections) taken) ∧
    (∀ inner, schema.under? sections = some inner → (∀ s ∈ inner.settings, s.key ≠ key) →
      FailsAt (config.access key sections) (sections ++ [key])) := by
  obtain ⟨hschema, hshaped, -⟩ := shaped_of_made hp hk hmap h
  rw [← hschema] at hp hshaped ⊢
  have hnowhere : config.schema.under? sections = none → ∃ taken,
      config.schema.IsFirstUndeclared sections taken ∧
        FailsAt (config.access key sections) taken ∧
        FailsAt (config.sectionMap sections) taken := by
    intro hnone
    obtain ⟨taken, htaken, hfirst⟩ := Place.reach_of_undeclared config.top hshaped hnone
    obtain ⟨-, hsection, hsetting⟩ := failsAt_of_nowhere htaken
    exact ⟨taken, hfirst, hsetting key, hsection⟩
  have hsetting : ∀ inner, config.schema.under? sections = some inner →
      (∀ s ∈ inner.settings, s.key ≠ key) →
        FailsAt (config.access key sections) (sections ++ [key]) :=
    fun inner hinner => access_failsAt_undeclared hshaped hinner
  refine ⟨⟨?_, ?_⟩, ⟨?_, ?_⟩, hnowhere, hsetting⟩
  · rintro ⟨v, hv⟩
    cases hinner : config.schema.under? sections with
    | none =>
      obtain ⟨taken, -, hfails, -⟩ := hnowhere hinner
      exact absurd hv (hfails.ne_ok v)
    | some inner =>
      refine ⟨inner, rfl, ?_⟩
      by_contra hnone
      exact (hsetting inner hinner fun s hs heq => hnone ⟨s, hs, heq⟩).ne_ok v hv
  · rintro ⟨inner, hinner, s, hs, rfl⟩
    exact access_exists hp hshaped hinner hs
  · rintro ⟨v, hv⟩
    cases hinner : config.schema.under? sections with
    | none =>
      obtain ⟨taken, -, -, hfails⟩ := hnowhere hinner
      exact absurd hv (hfails.ne_ok v)
    | some inner => exact ⟨inner, rfl⟩
  · rintro ⟨inner, hinner⟩
    obtain ⟨level, hreach, -⟩ := Place.reach_of_shaped config.top hshaped hinner
    exact ⟨level, sectionMap_of_reach hreach⟩

/-- A sample schema of a harbour whose crane is handed down to its dock. -/
def sampleHarbour : Schema :=
  let crane : Schema := ⟨"crane", [⟨"load", "tons", Range.integer .null, false⟩], []⟩
  ⟨"harbour", [⟨"name", "name of the harbour", Range.string (.text "none"), false⟩],
    [⟨"crane", crane, true⟩, ⟨"dock", ⟨"dock", [], [⟨"crane", crane, false⟩]⟩, false⟩]⟩

/-- In a sample harbour, the crane that the dock inherits can be read in the dock as well. The dock
has no name, and a crane has no crew. -/
theorem access_iff_declared_sampleHarbour :
    ∃ config, (make (Log.Logger.root false) sampleHarbour []
          (.ofEntries [("crane", .emptyMap)]) none).result = .ok config ∧
      (∃ v, config.access "load" ["dock", "crane"] = .ok v) ∧
      FailsAt (config.access "name" ["dock"]) ["dock", "name"] ∧
      FailsAt (config.access "load" ["dock", "crane", "crew", "crane"])
        ["dock", "crane", "crew"] := by
  have hmade : (make (Log.Logger.root false) sampleHarbour []
      (.ofEntries [("crane", .emptyMap)]) none).result = .ok _ := rfl
  have hkind : sampleHarbour.InheritsInKind := by
    constructor <;>
      simp [sampleHarbour, Schema.enclosed, Schema.nested, Section.allNested, forall_and]
  have hall := access_iff_declared (by decide) hkind
    (by simp +decide [Value.wellFormed_ofEntries_iff, Value.wellFormed_emptyMap]) hmade
  refine ⟨_, hmade, ?_, ?_, ?_⟩
  · exact (hall ["dock", "crane"] "load").1.2 ⟨_, rfl, _, List.mem_cons_self, rfl⟩
  · exact (hall ["dock"] "name").2.2.2 _ rfl fun s hs => absurd hs List.not_mem_nil
  · obtain ⟨taken, hfirst, hfails, -⟩ :=
      (hall ["dock", "crane", "crew", "crane"] "load").2.2.1 rfl
    have hhead : sampleHarbour.IsFirstUndeclared ["dock", "crane", "crew", "crane"]
        ["dock", "crane", "crew"] :=
      .cons rfl (.cons rfl (Schema.isFirstUndeclared_head rfl ["crane"]))
    rw [← hfirst.unique hhead]
    exact hfails

end Configuration

end LayeredConfig
