import LayeredConfig.Proofs.Completion.Reordering
import LayeredConfig.Proofs.Merging.NamedProfiles
import Mathlib.Data.List.Dedup

/-!
# Profiles that are named more than once

A profile may be named more than once. Only the last time counts: where its content is laid over
the map again, nothing is left to tell of the first time but the order of keys
(`Schema.overlayProfiles_dedup`). `List.dedup` keeps the last occurrence of every name.

1. Whether contents can be laid over a base is a matter of each of them alone
   (`Schema.overlayAll_exists_iff`), so it does not matter how often one is named.
2. `Schema.Overlain`: what is found in a map that several maps were laid over. One more map keeps
   this (`Overlain.overlay`). It says of each place which of the maps decides there, the last one
   that has an entry, and the last one is the same after `dedup` (`getLast?_filterMap_dedup`).
3. `Schema.Outlined`: a map with declared keys and with maps for sections, as every overlay is. Two
   of these that hold the same everywhere are equal up to the order of keys
   (`Outlined.reordered`).
-/

namespace LayeredConfig

/-- Keeping the last occurrence of every name, the last one that comes to something is kept. -/
theorem getLast?_filterMap_dedup {α : Type} (f : String → Option α) (names : List String) :
    (names.dedup.filterMap f).getLast? = (names.filterMap f).getLast? := by
  induction names with
  | nil => rfl
  | cons name rest ih =>
    have hcons : ∀ later : List String, ((name :: later).filterMap f).getLast? =
        ((later.filterMap f).getLast?).or (f name) := by
      intro later
      rw [← List.singleton_append, List.filterMap_append, List.getLast?_append,
        List.filterMap_cons]
      cases f name <;> rfl
    by_cases hmem : name ∈ rest
    · rw [List.dedup_cons_of_mem hmem, ih, hcons]
      -- what the name comes to now is not the last, since the name occurs once more
      cases hname : f name with
      | none => rw [Option.or_none]
      | some a =>
        have hlater : a ∈ rest.filterMap f := List.mem_filterMap.2 ⟨name, hmem, hname⟩
        obtain ⟨last, hlast⟩ : ∃ last, (rest.filterMap f).getLast? = some last :=
          Option.isSome_iff_exists.1 (List.getLast?_isSome.2 (List.ne_nil_of_mem hlater))
        rw [hlast]
        rfl
    · rw [List.dedup_cons_of_notMem hmem, hcons, hcons, ih]

/-- What the last of several profiles holds, by their names. -/
theorem lastHeld_filterMap (available : Entries Value) (names : List String) (keys : List String)
    (key : String) :
    lastHeld (names.filterMap (Entries.get? available)) keys key =
      (names.filterMap fun name =>
        (Entries.get? available name).bind fun content => content.held? keys key).getLast? := by
  rw [lastHeld, List.filterMap_filterMap]

namespace Schema

variable {schema : Schema} {v w lower upper base applied : Value} {out : Entries Value}
  {maps others contents : List Value}

/-! ## Whether contents can be laid over a base -/

/-- Contents can be laid over a base iff each of them, and the base, fits. The base alone is not
looked at. -/
theorem overlayAll_exists_iff (hp : schema.Proper) (hbase : base.WellFormed)
    (hcontents : ∀ content ∈ contents, content.WellFormed) :
    (∃ applied, schema.overlayAll base contents = .ok applied) ↔
      ∀ content ∈ contents, schema.Fits base ∧ schema.Fits content := by
  unfold overlayAll
  induction contents generalizing base with
  | nil => exact ⟨fun _ _ hmem => absurd hmem List.not_mem_nil, fun _ => ⟨base, rfl⟩⟩
  | cons content rest ih =>
    obtain ⟨hcontent, hrest⟩ := List.forall_mem_cons.1 hcontents
    rw [List.forall_mem_cons, List.foldlM_cons]
    constructor
    · rintro ⟨applied, h⟩
      obtain ⟨_, hlaid, h⟩ := bind_eq_ok_iff.1 h
      obtain ⟨es, hes, rfl⟩ := map_eq_ok_iff.1 hlaid
      have hfits := (overlay_exists_iff hp).1 ⟨es, hes⟩
      have hlater := (ih (overlay_wellFormed hp hbase hcontent hes) hrest).1 ⟨applied, h⟩
      exact ⟨hfits, fun later hmem => ⟨hfits.1, (hlater later hmem).2⟩⟩
    · rintro ⟨hfits, hlater⟩
      obtain ⟨es, hes⟩ : ∃ es, schema.overlay [] base content = .ok es :=
        (overlay_exists_iff hp).2 hfits
      obtain ⟨applied, happlied⟩ := (ih (overlay_wellFormed hp hbase hcontent hes) hrest).2
        fun later hmem => ⟨fits_overlay hp hbase hcontent hes, (hlater later hmem).2⟩
      exact ⟨applied, bind_eq_ok_iff.2 ⟨_, map_eq_ok_iff.2 ⟨es, hes, rfl⟩, happlied⟩⟩

/-! ## Maps that are overlaid -/

/-- A map that has declared keys only, and maps for its sections, wherever sections lead. -/
structure Outlined (schema : Schema) (v : Value) : Prop where
  isMap : v.isMap = true
  declared : ∀ keys inner, schema.under? keys = some inner →
    ∀ key, (v.held? keys key).isSome = true → key ∈ inner.keys
  nested : ∀ keys inner, schema.under? keys = some inner → ∀ node ∈ inner.sections,
    ∀ x, v.held? keys node.key = some x → x.isMap = true

/-- **Every overlay is outlined.** -/
theorem outlined_of_overlay (hp : schema.Proper) (hlower : lower.WellFormed)
    (hupper : upper.WellFormed) {path : Path} (h : schema.overlay path lower upper = .ok out) :
    schema.Outlined (.ofEntries out) where
  isMap := rfl
  declared keys _ hinner _ hkey :=
    mem_keys_of_overlay (hp.under? hinner) (hlower.within keys) (hupper.within keys)
      (overlay_within hp hlower hupper h hinner) (Entries.has_iff.1 hkey)
  nested _ _ hinner _ hnode _ hx := isMap_held?_overlay hp hlower hupper h hinner hnode hx

/-- What is held for a section is outlined in turn. -/
theorem Outlined.of_section (h : schema.Outlined v) (hd : schema.DistinctKeys) {node : Section}
    (hnode : node ∈ schema.sections) {x : Value}
    (hx : Entries.get? v.entriesOrEmpty node.key = some x) : node.schema.Outlined x where
  isMap := h.nested [] schema rfl node hnode x hx
  declared keys inner hinner key hkey := by
    rw [← Value.held?_cons_of_get? hx] at hkey
    exact h.declared (node.key :: keys) inner ((hd.under?_cons hnode keys).trans hinner) key hkey
  nested keys inner hinner node' hnode' y hy := by
    rw [← Value.held?_cons_of_get? hx] at hy
    exact h.nested (node.key :: keys) inner ((hd.under?_cons hnode keys).trans hinner) node'
      hnode' y hy

/-- Two maps have entries in the same places, and hold the same for every setting. -/
structure SameHeld (schema : Schema) (v w : Value) : Prop where
  owned : ∀ keys inner, schema.under? keys = some inner → ∀ key,
    (v.held? keys key).isSome = true ↔ (w.held? keys key).isSome = true
  setting : ∀ keys inner, schema.under? keys = some inner → ∀ s ∈ inner.settings,
    v.held? keys s.key = w.held? keys s.key

theorem SameHeld.of_section (h : schema.SameHeld v w) (hd : schema.DistinctKeys) {node : Section}
    (hnode : node ∈ schema.sections) {x y : Value}
    (hx : Entries.get? v.entriesOrEmpty node.key = some x)
    (hy : Entries.get? w.entriesOrEmpty node.key = some y) : node.schema.SameHeld x y where
  owned keys inner hinner key := by
    rw [← Value.held?_cons_of_get? hx, ← Value.held?_cons_of_get? hy]
    exact h.owned (node.key :: keys) inner ((hd.under?_cons hnode keys).trans hinner) key
  setting keys inner hinner s hs := by
    rw [← Value.held?_cons_of_get? hx, ← Value.held?_cons_of_get? hy]
    exact h.setting (node.key :: keys) inner ((hd.under?_cons hnode keys).trans hinner) s hs

/-- **Outlined maps that hold the same everywhere** are equal up to the order of keys. -/
theorem Outlined.reordered (hp : schema.Proper) (hv : schema.Outlined v) (hw : schema.Outlined w)
    (hvWell : v.WellFormed) (hwWell : w.WellFormed) (h : schema.SameHeld v w) :
    schema.Reordered v w := by
  induction schema using Schema.induction generalizing v w with
  | step schema ih =>
    have howned : ∀ key, (Entries.get? v.entriesOrEmpty key).isSome = true ↔
        (Entries.get? w.entriesOrEmpty key).isSome = true := h.owned [] schema rfl
    have hnone : ∀ key, Entries.get? v.entriesOrEmpty key = none ↔
        Entries.get? w.entriesOrEmpty key = none := by
      intro key
      rw [← Option.not_isSome_iff_eq_none, ← Option.not_isSome_iff_eq_none, howned]
    refine .map hv.isMap hw.isMap ?_ ?_ ?_
    · refine (List.perm_ext_iff_of_nodup hvWell.nodup hwWell.nodup).2 fun key => ?_
      rw [← Entries.has_iff, ← Entries.has_iff]
      exact howned key
    · intro key hsection
      by_cases hkey : key ∈ schema.keys
      · rcases mem_keys_iff.1 hkey with ⟨s, hs, rfl⟩ | ⟨node, hnode, rfl⟩
        · exact h.setting [] schema rfl s hs
        · exact absurd rfl (hsection node hnode)
      · -- neither map has a key that is not declared
        have habsent : Entries.get? v.entriesOrEmpty key = none :=
          Option.not_isSome_iff_eq_none.1 fun hsome =>
            hkey (hv.declared [] schema rfl key hsome)
        rw [habsent, (hnone key).1 habsent]
    · intro node hnode
      cases hx : Entries.get? v.entriesOrEmpty node.key with
      | none =>
        rw [Entries.read, Entries.read, hx, (hnone node.key).1 hx]
        exact .refl _ _
      | some x =>
        obtain ⟨y, hy⟩ : ∃ y, Entries.get? w.entriesOrEmpty node.key = some y := by
          refine Option.isSome_iff_exists.1 ((howned node.key).1 ?_)
          rw [hx]
          rfl
        rw [Entries.read_of_get? hx, Entries.read_of_get? hy]
        exact ih node hnode (hp.section hnode) (hv.of_section hp.distinctKeys hnode hx)
          (hw.of_section hp.distinctKeys hnode hy) (hvWell.get? hx) (hwWell.get? hy)
          (h.of_section hp.distinctKeys hnode hx hy)

/-! ## What is found in an overlay of several maps -/

/-- What is found in a map that is made of several ones laid over each other, the first at the
bottom. -/
structure Overlain (schema : Schema) (v : Value) (maps : List Value) : Prop where
  wellFormed : v.WellFormed
  owned : ∀ keys inner, schema.under? keys = some inner → ∀ key,
    (v.held? keys key).isSome = true ↔ ∃ map ∈ maps, (map.held? keys key).isSome = true
  setting : ∀ keys inner, schema.under? keys = some inner → ∀ s ∈ inner.settings,
    v.held? keys s.key = lastHeld maps keys s.key
  outlined : 2 ≤ maps.length → schema.Outlined v

theorem overlain_self (h : base.WellFormed) : schema.Overlain base [base] where
  wellFormed := h
  owned _ _ _ _ := by simp
  setting keys _ _ s _ := (lastHeld_singleton base keys s.key).symm
  outlined htwo := absurd htwo (by simp)

/-- One more map laid over it. -/
theorem Overlain.overlay (h : schema.Overlain lower maps) (hp : schema.Proper)
    (hupper : upper.WellFormed) {path : Path} (hout : schema.overlay path lower upper = .ok out) :
    schema.Overlain (.ofEntries out) (maps ++ [upper]) where
  wellFormed := overlay_wellFormed hp h.wellFormed hupper hout
  owned keys inner hinner key := by
    rw [isSome_held?_overlay hp h.wellFormed hupper hout hinner, h.owned keys inner hinner key]
    simp [or_and_right, exists_or]
  setting keys inner hinner s hs := by
    rw [held?_overlay hp h.wellFormed hupper hout hinner hs, lastHeld_append, lastHeld_singleton,
      h.setting keys inner hinner s hs]
  outlined _ := outlined_of_overlay hp h.wellFormed hupper hout

/-- **What is found when contents of profiles are laid over a base.** -/
theorem overlain_of_overlayAll (hp : schema.Proper) (hbase : base.WellFormed)
    (hcontents : ∀ content ∈ contents, content.WellFormed)
    (h : schema.overlayAll base contents = .ok applied) :
    schema.Overlain applied (base :: contents) := by
  suffices hrun : ∀ maps, schema.Overlain base maps → schema.Overlain applied (maps ++ contents)
    from hrun [base] (overlain_self hbase)
  unfold overlayAll at h
  clear hbase
  induction contents generalizing base with
  | nil =>
    cases h
    intro maps hmaps
    rwa [List.append_nil]
  | cons content rest ih =>
    intro maps hmaps
    rw [List.foldlM_cons] at h
    obtain ⟨_, hlaid, h⟩ := bind_eq_ok_iff.1 h
    obtain ⟨es, hes, rfl⟩ := map_eq_ok_iff.1 hlaid
    obtain ⟨hcontent, hrest⟩ := List.forall_mem_cons.1 hcontents
    rw [List.append_cons]
    exact ih hrest h _ (hmaps.overlay hp hcontent hes)

/-- Maps made of others, of which the same ones have entries and the same ones are the last, hold
the same. -/
theorem Overlain.sameHeld (hv : schema.Overlain v maps) (hw : schema.Overlain w others)
    (hmem : ∀ map, map ∈ maps ↔ map ∈ others)
    (hlast : ∀ keys key, lastHeld maps keys key = lastHeld others keys key) :
    schema.SameHeld v w where
  owned keys inner hinner key := by
    rw [hv.owned keys inner hinner key, hw.owned keys inner hinner key]
    simp only [hmem]
  setting keys inner hinner s hs := by
    rw [hv.setting keys inner hinner s hs, hw.setting keys inner hinner s hs, hlast]

/-- **The order and number of contents** matter only so far as they decide which one is the last
that has an entry. -/
theorem reordered_of_overlayAll (hp : schema.Proper) (hbase : base.WellFormed)
    (hcontents : ∀ content ∈ contents, content.WellFormed)
    (hothers : ∀ content ∈ others, content.WellFormed)
    (hmem : ∀ content, content ∈ contents ↔ content ∈ others)
    (hlast : ∀ keys key, lastHeld contents keys key = lastHeld others keys key)
    (h : schema.overlayAll base contents = .ok applied) {applied' : Value}
    (h' : schema.overlayAll base others = .ok applied') : schema.Reordered applied applied' := by
  have hv := overlain_of_overlayAll hp hbase hcontents h
  have hw := overlain_of_overlayAll hp hbase hothers h'
  cases contents with
  | nil =>
    -- without contents, either map is the base itself
    obtain rfl : others = [] := List.eq_nil_iff_forall_not_mem.2 fun content hcontent =>
      absurd ((hmem content).2 hcontent) List.not_mem_nil
    cases h
    cases h'
    exact .refl _ _
  | cons first rest =>
    obtain ⟨other, later, rfl⟩ := List.exists_cons_of_ne_nil
      (List.ne_nil_of_mem ((hmem first).1 List.mem_cons_self))
    refine (hv.outlined (by simp)).reordered hp (hw.outlined (by simp)) hv.wellFormed hw.wellFormed
      (hv.sameHeld hw (fun map => ?_) fun keys key => ?_)
    · rw [List.mem_cons, hmem map, ← List.mem_cons]
    · rw [← List.singleton_append, lastHeld_append, hlast, ← lastHeld_append,
        List.singleton_append]

/-! ## Names -/

variable {map : Value} {package : Log.Logger} {names : List String}

/-- **When profiles can be applied.** The map can be taken apart, and every name is defined. If
there are names, the base fits, and so does each of the contents. -/
theorem overlayProfiles_exists_iff (hp : schema.Proper) (hmap : map.WellFormed) :
    (∃ applied, (schema.overlayProfiles package map names).result = .ok applied) ↔
      ∃ layer, Layer.of .overlayProfiles map = .ok layer ∧
        ∀ name ∈ names, ∃ content, Entries.get? (layer.profiles.getD []) name = some content ∧
          schema.Fits layer.base ∧ schema.Fits content := by
  constructor
  · rintro ⟨applied, h⟩
    obtain ⟨layer, contents, hlayer, hcontents, happlied⟩ := overlayProfiles_eq_ok_iff.1 h
    have hwell : layer.WellFormed := Layer.wellFormed_of_eq_ok hmap hlayer
    obtain rfl := selectProfiles_eq_ok hcontents
    have hfits := (overlayAll_exists_iff hp hwell.base
      (wellFormed_of_mem_filterMap hwell.profiles)).1 ⟨applied, happlied⟩
    refine ⟨layer, hlayer, fun name hname => ?_⟩
    obtain ⟨content, hcontent⟩ := Option.isSome_iff_exists.1
      (List.all_eq_true.1 (selectProfiles_exists_iff.1 ⟨_, hcontents⟩) name hname)
    exact ⟨content, hcontent, hfits content (List.mem_filterMap.2 ⟨name, hname, hcontent⟩)⟩
  · rintro ⟨layer, hlayer, hall⟩
    have hwell : layer.WellFormed := Layer.wellFormed_of_eq_ok hmap hlayer
    obtain ⟨contents, hcontents⟩ := selectProfiles_exists fun name hname =>
      (hall name hname).imp fun _ h => h.1
    obtain rfl := selectProfiles_eq_ok hcontents
    obtain ⟨applied, happlied⟩ := (overlayAll_exists_iff hp hwell.base
      (wellFormed_of_mem_filterMap hwell.profiles)).2 fun content hmem => by
        obtain ⟨name, hname, hcontent⟩ := List.mem_filterMap.1 hmem
        obtain ⟨content', hcontent', hfits⟩ := hall name hname
        cases hcontent.symm.trans hcontent'
        exact hfits
    exact ⟨applied, overlayProfiles_eq_ok_iff.2 ⟨layer, _, hlayer, hcontents, happlied⟩⟩

/-- **Of a name that is repeated, the last time counts.** Applying the profiles of several names
fails iff applying those of the same names without repetition fails, each kept where it occurs last.
Where they can be applied, the one map has the same entries as the other at every level, and differs
from it at most in the order of keys. -/
theorem overlayProfiles_dedup (hp : schema.Proper) (hmap : map.WellFormed) (package : Log.Logger)
    (names : List String) :
    ((∃ fault, (schema.overlayProfiles package map names).result = .error fault) ↔
      ∃ fault, (schema.overlayProfiles package map names.dedup).result = .error fault) ∧
    ∀ applied applied', (schema.overlayProfiles package map names).result = .ok applied →
      (schema.overlayProfiles package map names.dedup).result = .ok applied' →
        schema.Reordered applied applied' := by
  refine ⟨?_, fun applied applied' h h' => ?_⟩
  · rw [exists_error_iff, exists_error_iff, overlayProfiles_exists_iff hp hmap,
      overlayProfiles_exists_iff hp hmap]
    simp only [List.mem_dedup]
  · obtain ⟨layer, contents, hlayer, hcontents, happlied⟩ := overlayProfiles_eq_ok_iff.1 h
    obtain ⟨layer', contents', hlayer', hcontents', happlied'⟩ := overlayProfiles_eq_ok_iff.1 h'
    cases hlayer.symm.trans hlayer'
    have hwell : layer.WellFormed := Layer.wellFormed_of_eq_ok hmap hlayer
    obtain rfl := selectProfiles_eq_ok hcontents
    obtain rfl := selectProfiles_eq_ok hcontents'
    have hlast : ∀ keys key,
        lastHeld (names.filterMap (Entries.get? (layer.profiles.getD []))) keys key =
          lastHeld (names.dedup.filterMap (Entries.get? (layer.profiles.getD []))) keys key := by
      intro keys key
      rw [lastHeld_filterMap, lastHeld_filterMap, getLast?_filterMap_dedup]
    refine reordered_of_overlayAll hp hwell.base (wellFormed_of_mem_filterMap hwell.profiles)
      (wellFormed_of_mem_filterMap hwell.profiles) (fun content => ?_) hlast happlied happlied'
    simp only [List.mem_filterMap, List.mem_dedup]

/-- A sample schema of a stage. -/
def sampleStage : Schema :=
  ⟨"stage", [⟨"light", "how bright", Range.string (.text "full"), false⟩],
    [⟨"music", ⟨"music", [⟨"volume", "how loud", Range.string (.text "low"), false⟩], []⟩, false⟩]⟩

/-- A stage with a profile for the music, and one that dims the light and says nothing of it. -/
def sampleStageMap : Value :=
  .ofEntries [("profiles", .ofEntries
    [("loud", .ofEntries [("music", .ofEntries [("volume", .text "high")])]),
      ("dim", .ofEntries [("light", .text "low"), ("music", .null)])])]

/-- With the music made loud twice, it comes first in the map, and else last. -/
theorem overlayProfiles_dedup_sampleStage :
    ["loud", "dim", "loud"].dedup = ["dim", "loud"] ∧ ∃ applied applied',
      (sampleStage.overlayProfiles (Log.Logger.root true) sampleStageMap
        ["loud", "dim", "loud"]).result = .ok applied ∧
      (sampleStage.overlayProfiles (Log.Logger.root true) sampleStageMap
        ["dim", "loud"]).result = .ok applied' ∧
      Entries.keys applied.entriesOrEmpty = ["music", "light"] ∧
      Entries.keys applied'.entriesOrEmpty = ["light", "music"] ∧
      sampleStage.Reordered applied applied' := by
  have hmap : sampleStageMap.WellFormed := by
    simp +decide [sampleStageMap, Value.wellFormed_ofEntries_iff, Value.WellFormed.text,
      Value.WellFormed.null]
  refine ⟨by decide, _, _, rfl, rfl, rfl, rfl, ?_⟩
  exact (overlayProfiles_dedup (by decide) hmap (Log.Logger.root true) ["loud", "dim", "loud"]).2
    _ _ rfl rfl

end Schema

end LayeredConfig
