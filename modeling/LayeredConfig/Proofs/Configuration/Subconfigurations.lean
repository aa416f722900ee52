import LayeredConfig.Proofs.Configuration.Paths
import LayeredConfig.Proofs.Data.Copies

/-!
# Sections of sections

A section cut out of a configuration is a configuration in its own right, with a copy of the
section's map. What is read there is a copy of what the outer configuration has further in, which is
part of a copy itself. So the two are the same, unless there are bare maps in what is read
(`Configuration.IsObtained.subconfiguration_compose`).

- `Place.reach_copy`: from a copied place, keys lead to the copies of the places to which they lead
  from the place itself.
- `Configuration.IsObtained`: the configurations that are made, and those cut out of others. The map
  of each of them looks like a copy (`IsObtained.isCopy`), and cutting out a section is copying a
  place (`IsObtained.top_of_subconfiguration`).
- `AgreesBeyond`, `CopiesBeyond`: the same result, or a copy of it, or keys that lead nowhere in
  both, counted from further out in one of them.
-/

namespace LayeredConfig

namespace Place

variable {inner : Place} {key : String} {keys : List String}

/-! ## Copied places -/

/-- The place with its map copied. -/
def copy (place : Place) : Place := ⟨place.map.copy, place.schema⟩

/-- Keys lead on to a place to which they lead from the section of the first one. -/
theorem reach_cons_eq_ok (place : Place) (h : place.reach (key :: keys) = .ok inner) :
    (Entries.read place.map.entriesOrEmpty key).isMap = true ∧
      ∃ node, place.schema.section? key = some node ∧
        reach ⟨Entries.read place.map.entriesOrEmpty key, node.schema⟩ keys = .ok inner := by
  rw [reach] at h
  split at h
  · rename_i node hnode hmap
    exact ⟨hmap, node, hnode, mapError_eq_ok_iff.1 h⟩
  · cases h

/-- From what looks like a copy, keys only lead to what looks like one. -/
theorem isCopy_of_reach (place : Place) (h : place.map.IsCopy)
    (hreach : place.reach keys = .ok inner) : inner.map.IsCopy := by
  induction keys generalizing place with
  | nil =>
    cases hreach
    exact h
  | cons key rest ih =>
    obtain ⟨-, node, -, hrest⟩ := reach_cons_eq_ok place hreach
    exact ih _ (h.read key) hrest

/-- From a map, keys only lead to maps. -/
theorem isMap_of_reach (place : Place) (h : place.map.isMap = true)
    (hreach : place.reach keys = .ok inner) : inner.map.isMap = true := by
  induction keys generalizing place with
  | nil =>
    cases hreach
    exact h
  | cons key rest ih =>
    obtain ⟨hmap, node, -, hrest⟩ := reach_cons_eq_ok place hreach
    exact ih _ hmap hrest

/-- A bare map that is reached from where keys lead is reached from where they come. -/
theorem reachesBare_of_reach (place : Place) (hreach : place.reach keys = .ok inner)
    (h : inner.map.ReachesBare) : place.map.ReachesBare := by
  induction keys generalizing place with
  | nil =>
    cases hreach
    exact h
  | cons key rest ih =>
    obtain ⟨hmap, node, -, hrest⟩ := reach_cons_eq_ok place hreach
    have hsection := ih _ hrest
    cases hw : Entries.get? place.map.entriesOrEmpty key with
    | none =>
      rw [Entries.read, hw] at hmap
      cases hmap
    | some w =>
      rw [Entries.read_of_get? hw] at hsection
      exact hsection.of_get? hw

/-- **Keys lead from a copy to copies,** as far as they lead at all. -/
theorem reach_copy (place : Place) (h : place.map.IsCopy) (keys : List String) :
    place.copy.reach keys = (place.reach keys).map copy := by
  induction keys generalizing place with
  | nil => rfl
  | cons key rest ih =>
    have hread : Entries.read place.copy.map.entriesOrEmpty key =
        (Entries.read place.map.entriesOrEmpty key).copy := Value.read_copy h.nodup h.unreserved key
    have hsame : (Entries.read place.copy.map.entriesOrEmpty key).isMap =
        (Entries.read place.map.entriesOrEmpty key).isMap := by rw [hread, (h.read key).isMap_copy]
    cases hnode : place.schema.section? key with
    | none =>
      have hnode' : place.copy.schema.section? key = none := hnode
      rw [reach_cons_of_undeclared hnode, reach_cons_of_undeclared hnode']
      rfl
    | some node =>
      have hnode' : place.copy.schema.section? key = some node := hnode
      cases hmap : (Entries.read place.map.entriesOrEmpty key).isMap with
      | false =>
        rw [reach_cons_of_no_map hmap, reach_cons_of_no_map (hsame.trans hmap)]
        rfl
      | true =>
        rw [reach_cons hnode hmap, reach_cons hnode' (hsame.trans hmap), hread]
        have hrest := ih ⟨Entries.read place.map.entriesOrEmpty key, node.schema⟩ (h.read key)
        rw [copy] at hrest
        show (reach ⟨_, node.schema⟩ rest).mapError _ = _
        rw [hrest]
        cases reach ⟨Entries.read place.map.entriesOrEmpty key, node.schema⟩ rest <;> rfl

end Place

namespace Configuration

variable {config sub : Configuration} {sections before after : List String}

/-- The configurations there are: those that are made, and the sections of others. -/
inductive IsObtained : Configuration → Prop
  | made {package : Log.Logger} {schema : Schema} {names : List String} {map : Value}
      {logger : Option Log.Logger} {config : Configuration}
      (h : (make package schema names map logger).result = .ok config) : IsObtained config
  | cutOut {outer config : Configuration} {sections : List String} (houter : IsObtained outer)
      (h : outer.subconfiguration sections = .ok config) : IsObtained config

/-- **The map of every configuration looks like a copy.** -/
theorem IsObtained.isCopy (h : config.IsObtained) : config.top.map.IsCopy := by
  cases h with
  | made h =>
    obtain ⟨out, -, rfl⟩ := make_eq_ok h
    exact Value.isCopy_copiedEntries out
  | cutOut _ h =>
    obtain ⟨place, -, rfl⟩ := map_eq_ok_iff.1 h
    exact Value.isCopy_copiedEntries place.map.entriesOrEmpty

/-! ## Reading a section and reading further in -/

/-- What is read of a section is what is read of the whole: the two outcomes have the same value,
or both lead nowhere, at keys that the whole counts from further out. -/
def AgreesBeyond {α : Type} (before : List String) (inside outside : Except Fault α) : Prop :=
  (∃ a, inside = .ok a ∧ outside = .ok a) ∨
    ∃ keys, FailsAt inside keys ∧ FailsAt outside (before ++ keys)

/-- What is read of a section is a copy of what is read of the whole, and the same exactly if no
bare map is reached in it; or both lead nowhere. -/
def CopiesBeyond (before : List String) (inside outside : Except Fault Value) : Prop :=
  (∃ v, outside = .ok v ∧ inside = .ok v.copy ∧ v.RebuiltAs v.copy ∧
      (inside = outside ↔ ¬v.ReachesBare)) ∨
    ∃ keys, FailsAt inside keys ∧ FailsAt outside (before ++ keys)

theorem AgreesBeyond.of_ok {α : Type} {inside outside : Except Fault α} {a : α}
    (hinside : inside = .ok a) (houtside : outside = .ok a) : AgreesBeyond before inside outside :=
  .inl ⟨a, hinside, houtside⟩

theorem CopiesBeyond.of_ok {inside outside : Except Fault Value} {v : Value} (hv : v.IsCopy)
    (hinside : inside = .ok v.copy) (houtside : outside = .ok v) :
    CopiesBeyond before inside outside := by
  refine .inl ⟨v, houtside, hinside, hv.rebuiltAs_copy, ?_⟩
  rw [hinside, houtside, Except.ok.injEq]
  exact hv.copy_eq_self_iff

/-- Where nothing bare is read, the copy is the same. -/
theorem CopiesBeyond.agreesBeyond {inside outside : Except Fault Value}
    (h : CopiesBeyond before inside outside) (hbare : ∀ v, outside = .ok v → ¬v.ReachesBare) :
    AgreesBeyond before inside outside := by
  rcases h with ⟨v, houtside, -, -, hsame⟩ | hfails
  · have hinside := hsame.2 (hbare v houtside)
    exact .of_ok (hinside.trans houtside) houtside
  · exact .inr hfails

/-- **Cutting out a section is copying the place** to which the keys lead. -/
theorem IsObtained.top_of_subconfiguration (h : config.IsObtained)
    (hsub : config.subconfiguration sections = .ok sub) :
    ∃ place, config.top.reach sections = .ok place ∧ place.map.IsCopy ∧ sub.top = place.copy := by
  cases hreach : config.top.reach sections with
  | error keys =>
    obtain ⟨hfails, -⟩ := failsAt_of_nowhere hreach
    exact absurd hsub (hfails.ne_ok sub)
  | ok place =>
    have hcopy : place.map.IsCopy := Place.isCopy_of_reach config.top h.isCopy hreach
    have hmap : place.map.isMap = true := Place.isMap_of_reach config.top rfl hreach
    rw [subconfiguration_of_reach hreach] at hsub
    cases hsub
    refine ⟨place, rfl, hcopy, ?_⟩
    rw [Place.copy, Value.copy_of_isMap hmap hcopy.unreserved]
    rfl

/-- Where nothing can be cut out, the keys lead nowhere, and this is what is reported. -/
theorem leadsNowhere_of_subconfiguration {fault : Fault}
    (h : config.subconfiguration sections = .error fault) :
    ∃ keys, config.top.reach sections = .error keys ∧ fault.LeadsNowhere keys := by
  cases hreach : config.top.reach sections with
  | error keys =>
    obtain ⟨⟨fault', hfault', hkeys⟩, -⟩ := failsAt_of_nowhere hreach
    rw [h] at hfault'
    cases hfault'
    exact ⟨keys, rfl, hkeys⟩
  | ok place =>
    rw [subconfiguration_of_reach hreach] at h
    cases h

/-- From a section, the copies of settings are read. -/
theorem access_copiesBeyond {place : Place} (hcopy : place.map.IsCopy)
    (hinside : sub.top.reach after = .ok place.copy)
    (houtside : config.top.reach (before ++ after) = .ok place) (key : String) :
    CopiesBeyond before (sub.access key after) (config.access key (before ++ after)) := by
  have hget := Value.get?_copy hcopy.nodup hcopy.unreserved key
  have hnowhere : place.schema.setting? key = none ∨
      Entries.get? place.map.entriesOrEmpty key = none →
        CopiesBeyond before (sub.access key after) (config.access key (before ++ after)) := by
    intro hnone
    refine .inr ⟨after ++ [key], access_failsAt_of_reach hinside (hnone.imp_right fun h => ?_), ?_⟩
    · rw [Place.copy, hget, h]
      rfl
    · rw [← List.append_assoc]
      exact access_failsAt_of_reach houtside hnone
  cases hs : place.schema.setting? key with
  | none => exact hnowhere (.inl hs)
  | some s =>
    cases hv : Entries.get? place.map.entriesOrEmpty key with
    | none => exact hnowhere (.inr hv)
    | some v =>
      rw [hv] at hget
      exact .of_ok (hcopy.of_get? hv) (access_of_reach hinside hs hget)
        (access_of_reach houtside hs hv)

/-- Whatever is done in a section is done to the copies of what is further in. -/
theorem compose_of_reach {place : Place} (hplace : config.top.reach before = .ok place)
    (hcopy : place.map.IsCopy) (htop : sub.top = place.copy) (after : List String) :
    AgreesBeyond before (sub.subconfiguration after) (config.subconfiguration (before ++ after)) ∧
      CopiesBeyond before (sub.sectionMap after) (config.sectionMap (before ++ after)) ∧
      ∀ key, CopiesBeyond before (sub.access key after) (config.access key (before ++ after)) := by
  have houtside := Place.reach_append_of_ok hplace after
  have hinside := place.reach_copy hcopy after
  rw [← htop] at hinside
  cases hreach : place.reach after with
  | ok inner =>
    rw [hreach] at hinside houtside
    have hinner : inner.map.IsCopy := Place.isCopy_of_reach place hcopy hreach
    refine ⟨.of_ok (subconfiguration_of_reach hinside) ?_,
      .of_ok hinner (sectionMap_of_reach hinside) (sectionMap_of_reach houtside),
      access_copiesBeyond hinner hinside houtside⟩
    -- the section is copied twice on one way and once on the other
    rw [subconfiguration_of_reach houtside, ofNormalized, ofNormalized, Place.copy,
      hinner.entriesOrEmpty_copy, hinner.copy_copiedEntries]
  | error keys =>
    rw [hreach] at hinside houtside
    obtain ⟨hsub, hmap, hvalue⟩ := failsAt_of_nowhere hinside
    obtain ⟨hsub', hmap', hvalue'⟩ := failsAt_of_nowhere houtside
    exact ⟨.inr ⟨keys, hsub, hsub'⟩, .inr ⟨keys, hmap, hmap'⟩,
      fun key => .inr ⟨keys, hvalue key, hvalue' key⟩⟩

/-! ## Bare maps -/

/-- A bare map that is reached in a section is reached in the configuration. -/
theorem reachesBare_of_sectionMap {v : Value} (h : config.sectionMap sections = .ok v)
    (hbare : v.ReachesBare) : (Value.ofEntries config.map).ReachesBare := by
  cases hreach : config.top.reach sections with
  | error keys => exact absurd h ((failsAt_of_nowhere hreach).2.1.ne_ok v)
  | ok place =>
    cases (sectionMap_of_reach hreach).symm.trans h
    exact Place.reachesBare_of_reach config.top hreach hbare

/-- A bare map that is reached in a setting is reached in the configuration. -/
theorem reachesBare_of_access {key : String} {v : Value} (h : config.access key sections = .ok v)
    (hbare : v.ReachesBare) : (Value.ofEntries config.map).ReachesBare := by
  cases hreach : config.top.reach sections with
  | error keys => exact absurd h (((failsAt_of_nowhere hreach).2.2 key).ne_ok v)
  | ok place =>
    cases hs : place.schema.setting? key with
    | none => exact absurd h ((access_failsAt_of_reach hreach (.inl hs)).ne_ok v)
    | some s =>
      cases hw : Entries.get? place.map.entriesOrEmpty key with
      | none => exact absurd h ((access_failsAt_of_reach hreach (.inr hw)).ne_ok v)
      | some w =>
        cases (access_of_reach hreach hs hw).symm.trans h
        exact Place.reachesBare_of_reach config.top hreach (hbare.of_get? hw)

/-- **Reading a section that was cut out** is reading a copy of what is further in.

1. Cutting a section out of the section has the same outcome as cutting it out of the configuration
   directly, up to the keys that lead to the section. Reading a map or a setting comes to a copy of
   what is read further in, and to the same exactly if no bare map is reached in that.
2. Where no section can be cut out, no operation goes any further either, and all of them report the
   same keys.
3. If no bare map is reached in the configuration, all outcomes are the same.
4. No bare map is reached in a section that was cut out. -/
theorem IsObtained.subconfiguration_compose (h : config.IsObtained) (before after : List String) :
    (∀ sub, config.subconfiguration before = .ok sub →
      AgreesBeyond before (sub.subconfiguration after) (config.subconfiguration (before ++ after)) ∧
      CopiesBeyond before (sub.sectionMap after) (config.sectionMap (before ++ after)) ∧
      ∀ key, CopiesBeyond before (sub.access key after) (config.access key (before ++ after))) ∧
    (∀ fault, config.subconfiguration before = .error fault → ∃ keys, fault.LeadsNowhere keys ∧
      FailsAt (config.subconfiguration (before ++ after)) keys ∧
      FailsAt (config.sectionMap (before ++ after)) keys ∧
      ∀ key, FailsAt (config.access key (before ++ after)) keys) ∧
    (¬(Value.ofEntries config.map).ReachesBare → ∀ sub, config.subconfiguration before = .ok sub →
      AgreesBeyond before (sub.sectionMap after) (config.sectionMap (before ++ after)) ∧
      ∀ key, AgreesBeyond before (sub.access key after) (config.access key (before ++ after))) ∧
    (∀ sub, config.subconfiguration before = .ok sub →
      ¬(Value.ofEntries sub.map).ReachesBare) := by
  refine ⟨fun sub hsub => ?_, fun fault hfault => ?_, fun hbare sub hsub => ?_, fun sub hsub => ?_⟩
  · obtain ⟨place, hplace, hcopy, htop⟩ := h.top_of_subconfiguration hsub
    exact compose_of_reach hplace hcopy htop after
  · obtain ⟨keys, hreach, hkeys⟩ := leadsNowhere_of_subconfiguration hfault
    exact ⟨keys, hkeys, failsAt_of_nowhere (Place.reach_append_of_error hreach after)⟩
  · obtain ⟨place, hplace, hcopy, htop⟩ := h.top_of_subconfiguration hsub
    obtain ⟨-, hmap, hvalue⟩ := compose_of_reach hplace hcopy htop after
    exact ⟨hmap.agreesBeyond fun v hv hbare' => hbare (reachesBare_of_sectionMap hv hbare'),
      fun key => (hvalue key).agreesBeyond fun v hv hbare' =>
        hbare (reachesBare_of_access hv hbare')⟩
  · obtain ⟨place, -, hcopy, htop⟩ := h.top_of_subconfiguration hsub
    have hmap : Value.ofEntries sub.map = place.map.copy := congrArg Place.map htop
    rw [hmap]
    exact hcopy.not_reachesBare_copy

/-- A sample harbour with a crane for nine tons. -/
def sampleHarbourMap : Value :=
  .ofEntries [("crane", .ofEntries [("load", .number (.ofNat 9))])]

/-- In the dock of a sample harbour, the crane is read as it is from the harbour. A crew that the
dock does not have is reported under the dock from there, and a quay that the harbour does not have
is reported wherever one wants to go from it. -/
theorem IsObtained.subconfiguration_compose_sampleHarbour :
    ∃ config, (make (Log.Logger.root false) sampleHarbour [] sampleHarbourMap none).result =
        .ok config ∧
      ∃ dock, config.subconfiguration ["dock"] = .ok dock ∧
        AgreesBeyond ["dock"] (dock.access "load" ["crane"])
          (config.access "load" ["dock", "crane"]) ∧
        AgreesBeyond ["dock"] (dock.sectionMap ["crew"]) (config.sectionMap ["dock", "crew"]) ∧
        ∃ fault, config.subconfiguration ["quay"] = .error fault ∧
          FailsAt (config.access "load" ["quay", "crane"]) ["quay"] := by
  have hmade : (make (Log.Logger.root false) sampleHarbour [] sampleHarbourMap none).result =
    .ok _ := rfl
  refine ⟨_, hmade, _, rfl, ?_, ?_, _, rfl, ?_⟩
  · exact ((subconfiguration_compose (.made hmade) ["dock"] ["crane"]).2.2.1
      (by decide) _ rfl).2 "load"
  · exact ((subconfiguration_compose (.made hmade) ["dock"] ["crew"]).2.2.1 (by decide) _ rfl).1
  · obtain ⟨keys, hkeys, -, -, hfails⟩ :=
      (subconfiguration_compose (.made hmade) ["quay"] ["crane"]).2.1 _ rfl
    obtain rfl : keys = ["quay"] := hkeys.unique ⟨rfl, rfl⟩
    exact hfails "load"

/-- What is inside a sample chest is bare, and an ordinary map in the chest that is cut out of it as
a whole. -/
theorem IsObtained.subconfiguration_compose_sampleChest :
    ∃ config, (make (Log.Logger.root false) sampleChest [] sampleChestMap none).result =
        .ok config ∧
      ∃ sub, config.subconfiguration [] = .ok sub ∧
        config.access "inside" [] = .ok (.object .anonymous true []) ∧
        sub.access "inside" [] = .ok .emptyMap ∧
        ¬AgreesBeyond [] (sub.access "inside" []) (config.access "inside" ([] ++ [])) := by
  refine ⟨_, rfl, _, rfl, rfl, rfl, ?_⟩
  rintro (⟨v, hinside, houtside⟩ | ⟨keys, ⟨fault, hfault, -⟩, -⟩)
  · cases hinside
    cases houtside
  · cases hfault

end Configuration

end LayeredConfig
