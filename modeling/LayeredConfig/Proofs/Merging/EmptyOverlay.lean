import LayeredConfig.Proofs.Completion.Congruence
import LayeredConfig.Proofs.Completion.Scopes
import LayeredConfig.Proofs.Merging.Faults

/-!
# Laying an empty map over a map

To lay one map over another is more than to choose between values: every key has to be declared,
and whatever is given for a section has to be nil or a map. So an empty map does not always leave
the map below as it is.

- `Schema.complete_overlay_empty`: where it can be laid over a map, that map is completed as
  before. Sections that are nil have become empty maps, but these are completed alike.
- `Schema.fits_of_complete`: what can be completed can be overlaid as well. A map that does not fit
  is rejected on its own (`complete_of_not_fits`). Overlaying it ends in a fault
  (`overlay_of_not_fits`).
-/

namespace LayeredConfig

/-- Where two maps have the same keys, what relates the entries of each key relates the maps entry
by entry. -/
theorem Entries.forall₂_of_keys {α : Type} {R : String × α → String × α → Prop}
    {es fs : Entries α} (hkeys : keys es = keys fs)
    (h : ∀ e ∈ es, ∀ f ∈ fs, e.1 = f.1 → R e f) : List.Forall₂ R es fs := by
  induction es generalizing fs with
  | nil =>
    cases fs with
    | nil => exact .nil
    | cons f rest => cases hkeys
  | cons e es ih =>
    cases fs with
    | nil => cases hkeys
    | cons f fs =>
      obtain ⟨hkey, hrest⟩ := List.cons.inj hkeys
      refine .cons (h e List.mem_cons_self f List.mem_cons_self hkey) (ih hrest fun e he f hf => ?_)
      exact h e (List.mem_cons_of_mem _ he) f (List.mem_cons_of_mem _ hf)

namespace Schema

variable {schema : Schema} {path : Path} {lower upper v : Value} {inherited out : Entries Value}

/-! ## Maps that fit -/

/-- The overlay of an empty map has the keys of the map below. -/
theorem keys_overlay_empty (hp : schema.Proper) (hlower : lower.WellFormed)
    (hupper : upper.WellFormed) (hempty : upper.entriesOrEmpty = [])
    (h : schema.overlay path lower upper = .ok out) :
    Entries.keys out = Entries.keys lower.entriesOrEmpty := by
  have hjoint : jointKeys lower.entriesOrEmpty upper.entriesOrEmpty =
      Entries.keys lower.entriesOrEmpty := by
    rw [hempty]
    exact List.append_nil _
  rw [keys_overlay hp hlower hupper h, hjoint, hlower.entriesOrEmpty.1.propertyOrder_keys]

/-- **An overlay of an empty map is completed like the map below,** in whatever place that is, and
whatever is inherited there. If it is rejected, the violation is the same too. -/
theorem complete_overlay_empty (hp : schema.Proper) (hlower : lower.WellFormed)
    (hupper : upper.WellFormed) (hempty : upper.entriesOrEmpty = [])
    (h : schema.overlay path lower upper = .ok out) (inherited : Entries Value) (path' : Path) :
    schema.complete inherited path' (.ofEntries out) = schema.complete inherited path' lower := by
  induction schema using Schema.induction generalizing path lower upper out inherited path' with
  | step schema ih =>
    have hmap : lower.isMap = true := (isMap_of_overlay h).1
    have hnodup : (Entries.keys out).Nodup := (overlay_wellFormed hp hlower hupper h).nodup
    refine complete_congr rfl hmap ?_ inherited
    refine Entries.forall₂_of_keys (keys_overlay_empty hp hlower hupper hempty h) ?_
    rintro ⟨key, w⟩ hw ⟨-, x⟩ hx rfl
    replace hw : Entries.get? out key = some w := (Entries.get?_eq_some_iff_mem hnodup).2 hw
    replace hx : Entries.get? lower.entriesOrEmpty key = some x :=
      (Entries.get?_eq_some_iff_mem hlower.nodup).2 hx
    have hkey : key ∈ Entries.keys out := Entries.mem_keys_of_get? hw
    rcases mem_keys_iff.1 (mem_keys_of_overlay hp hlower hupper h hkey) with
      ⟨s, hs, rfl⟩ | ⟨node, hnode, rfl⟩
    · -- the value of a setting is left as it is
      have hsame := get?_overlay_setting hp hlower hupper h hs
      rw [hempty, hw, hx] at hsame
      cases hsame
      exact .equal _
    · obtain ⟨es, hes, -, hget⟩ := section_of_overlay hp hlower hupper h hnode
      cases hw.symm.trans (hget hkey)
      rw [hempty, Entries.read_of_get? hx] at hes
      refine completedAlike_of_section hp.distinctKeys hnode fun inherited => ?_
      rw [← node.schema.complete_orEmptyMap _ _ x]
      exact ih node hnode (hp.section hnode) (hlower.get? hx).orEmptyMap
        Value.wellFormed_emptyMap rfl hes inherited (path'.entry node.key)

/-! ## Maps that do not fit -/

/-- **What can be completed fits,** whatever is inherited. -/
theorem fits_of_complete (hp : schema.Proper) (hv : v.WellFormed)
    (h : schema.complete inherited path v = .ok out) : schema.Fits v.orEmptyMap := by
  induction schema using Schema.induction generalizing inherited path v out with
  | step schema ih =>
    obtain ⟨hshape, filled, progress, -, hdone⟩ := levelDone_of_complete hp hv.nodup h
    refine (fits_iff schema _).2 ⟨?_, ?_, ?_⟩
    · exact Value.isMap_of_entries? (Value.entries?_orEmptyMap_iff.2 ⟨hshape, rfl⟩)
    · rw [Value.entriesOrEmpty_orEmptyMap]
      exact hdone.declared
    · intro node hnode
      rw [Value.entriesOrEmpty_orEmptyMap]
      cases hx : Entries.get? v.entriesOrEmpty node.key with
      | none => exact node.schema.fits_read_of_not_mem (Entries.get?_eq_none_iff.1 hx)
      | some x =>
        -- a section that is given is completed itself, also where one could be inherited
        obtain ⟨scope, w, -, hw, -⟩ := hdone.section_in_scope hp hnode
        rw [Section.outcome_of_given hx] at hw
        obtain ⟨es, hes, -⟩ := map_eq_ok_iff.1 hw
        rw [Entries.read_of_get? hx]
        exact ih node hnode (hp.section hnode) (hv.get? hx) hes

/-- A map that does not fit is rejected. -/
theorem complete_of_not_fits (hp : schema.Proper) (hv : v.WellFormed) (hmap : v.isMap = true)
    (h : ¬schema.Fits v) (inherited : Entries Value) (path : Path) :
    ∃ violation, schema.complete inherited path v = .error violation := by
  cases hout : schema.complete inherited path v with
  | error violation => exact ⟨violation, rfl⟩
  | ok out =>
    have hfits := fits_of_complete hp hv hout
    rw [Value.orEmptyMap_of_isMap hmap] at hfits
    exact absurd hfits h

/-- Nothing can be laid over a map that does not fit. -/
theorem overlay_of_not_fits (hp : schema.Proper) (h : ¬schema.Fits lower) (path : Path)
    (upper : Value) : ∃ fault, schema.overlay path lower upper = .error fault ∧
      (fault.code = .unknownSchemaKey ∨ fault.code = .notAMap) := by
  cases hout : schema.overlay path lower upper with
  | ok out => exact absurd ((overlay_exists_iff hp).1 ⟨out, hout⟩).1 h
  | error fault => exact ⟨fault, rfl, (code_of_overlay hout).symm⟩

end Schema

end LayeredConfig
