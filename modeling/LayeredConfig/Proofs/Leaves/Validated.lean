import LayeredConfig.Proofs.Leaves.Agreement
import LayeredConfig.Proofs.Leaves.Refusal

/-!
# Folding what has been validated

A map is validated as a whole before it is folded. Completing stores an inherited raw value as it
is, for whatever declaration has its key below; folding reads it through the range or the schema of
that declaration. So a fold may still be refused in the middle, over a value that validation took
over without a look (`fold_sampleKiln`).

Where declarations accept what is handed down to them (`Schema.HandsDownAccepted`) that cannot
happen: `Schema.fold_fails_iff_invalid`.

- `Bequest.Suits`: an inherited raw value can be read through whatever a schema declares for it.
- `Matches`: what is inherited in folding is inherited in completing, too, and suits all schemas
  below. The settings of a level keep that (`matches_handedDown`), and so do its sections, one after
  the other (`matches_handDownSection`).
- `Schema.folds_of_complete`: a map that is completed where the two sides match has leaves. That
  goes by induction on all schemas below, not only those of the sections of the level: what is
  handed down may be read through any of them.
-/

namespace LayeredConfig

/-- The raw map `v`, read where `scope` is inherited, has leaves in every place. -/
def Schema.Folds (schema : Schema) (scope : Bequests) (v : Value) : Prop :=
  ∀ path, ∃ leaves, schema.leaves scope path v = .ok leaves

/-- What is inherited under a key can be read through whatever the schema declares for the key. -/
structure Bequest.Suits (b : Bequest) (schema : Schema) (key : String) : Prop where
  setting : ∀ s ∈ schema.settings, s.key = key → ∃ path w, s.range.complete path b.value = .ok w
  nested : ∀ node ∈ schema.sections, node.key = key → node.schema.Folds b.scope b.value

/-- For the keys of the schemas `inners`, whatever is inherited in completing is inherited in
folding, where it suits them. -/
structure Matches (inners : List Schema) (inherited : Entries Value) (bequests : Bequests) :
    Prop where
  absent : ∀ inner ∈ inners, ∀ key ∈ inner.keys, Entries.get? bequests key = none →
    Entries.get? inherited key = none
  suits : ∀ inner ∈ inners, ∀ key ∈ inner.keys, ∀ b, Entries.get? bequests key = some b →
    b.Suits inner key

theorem matches_nil (inners : List Schema) : Matches inners [] [] where
  absent _ _ _ _ _ := rfl
  suits _ _ _ _ _ h := nomatch h

theorem Matches.mono {inners inners' : List Schema} {inherited : Entries Value}
    {bequests : Bequests} (h : Matches inners inherited bequests)
    (hsub : ∀ inner ∈ inners', inner ∈ inners) : Matches inners' inherited bequests where
  absent inner hinner := h.absent inner (hsub inner hinner)
  suits inner hinner := h.suits inner (hsub inner hinner)

section Levels

variable {schema : Schema} {inherited given out : Entries Value} {bequests : Bequests}
  {path : Path} {v x : Value}

/-! ## Handing down -/

/-- All that the schemas below complete, where the two sides match, they can fold. -/
def Schema.FoldsBelow (schema : Schema) : Prop :=
  ∀ inner ∈ schema.enclosed, ∀ {scope bequests path x es}, x.WellFormed →
    Matches schema.enclosed scope bequests → inner.complete scope path x = .ok es →
      inner.Folds bequests x

/-- What an inheriting declaration has accepted suits all schemas below. -/
theorem suits_of_accepts (ha : schema.HandsDownAccepted) (hbelow : schema.FoldsBelow)
    (h : Matches schema.enclosed inherited bequests) {d : Declaration}
    (hd : d ∈ schema.declarations) (hinherits : d.inherits = true) (hx : x.WellFormed)
    (haccepts : d.Accepts inherited x) {inner : Schema} (hinner : inner ∈ schema.enclosed) :
    (⟨x, bequests⟩ : Bequest).Suits inner d.key := by
  have hreceived : ∀ d' ∈ inner.declarations, d'.key = d.key → d'.Accepts inherited x :=
    fun d' hd' hkey => ha schema schema.self_mem_nested d hd hinherits inner hinner d' hd' hkey
      inherited x hx haccepts
  constructor
  · intro s hs hkey
    exact hreceived (.setting s) (Schema.setting_mem_declarations.2 hs) hkey
  · intro node hnode hkey
    obtain ⟨path, es, hes⟩ :=
      hreceived (.nested node) (Schema.nested_mem_declarations.2 hnode) hkey
    have hnested : node.schema ∈ schema.enclosed := Schema.mem_enclosed_trans hinner
      (Schema.mem_nested_of_mem_enclosed (Schema.mem_enclosed_of_section hnode))
    exact hbelow node.schema hnested hx h hes

/-- **The settings of a level keep the match.** -/
theorem matches_handedDown (hp : schema.Proper) (ha : schema.HandsDownAccepted)
    (hbelow : schema.FoldsBelow) (hn : (Entries.keys given).Nodup)
    (hgiven : ∀ s ∈ schema.settings, ∀ x, Entries.get? given s.key = some x →
      x.WellFormed ∧ ∃ path w, s.range.complete path x = .ok w)
    (h : Matches schema.enclosed inherited bequests) :
    Matches schema.enclosed (schema.handedDown inherited given)
      (settingBequests schema.settingVisits bequests given) := by
  have hcases : ∀ inner ∈ schema.enclosed, ∀ key ∈ inner.keys, _ := fun inner hinner key hkey =>
    handedDown_cases inherited bequests hp.distinctKeys hn
      (hp.ne_reservedKey (Schema.mem_nested_of_mem_enclosed hinner) hkey)
  constructor
  · intro inner hinner key hkey hnone
    rcases hcases inner hinner key hkey with ⟨s, _, x, _, _, _, _, hB⟩ | ⟨hE, hB⟩
    · rw [hB] at hnone
      cases hnone
    · rw [hE]
      exact h.absent inner hinner key hkey (hB ▸ hnone)
  · intro inner hinner key hkey b hget
    rcases hcases inner hinner key hkey with ⟨s, hs, x, rfl, hinherit, hx, _, hB⟩ | ⟨_, hB⟩
    · rw [hB] at hget
      cases hget
      obtain ⟨hwell, haccepts⟩ := hgiven s hs x hx
      exact suits_of_accepts (d := .setting s) ha hbelow h (Schema.setting_mem_declarations.2 hs)
        hinherit hwell haccepts hinner
    · exact h.suits inner hinner key hkey b (hB ▸ hget)

/-- **A completed section keeps the match.** -/
theorem matches_handDownSection (hp : schema.Proper) (ha : schema.HandsDownAccepted)
    (hbelow : schema.FoldsBelow) (h : Matches schema.enclosed inherited bequests)
    {node : Section} (hnode : node ∈ schema.sections) (hx : x.WellFormed) {es : Entries Value}
    (hes : node.schema.complete inherited path x = .ok es) :
    Matches schema.enclosed (handDownSection node.slot inherited es)
      (if Slot.handsDown schema.sectionVisits node.key then (node.key, ⟨x, bequests⟩) :: bequests
        else bequests) := by
  have hcases : ∀ inner ∈ schema.enclosed, ∀ key ∈ inner.keys, _ := fun inner hinner key hkey =>
    handDownSection_cases inherited bequests hp.distinctKeys hnode x es
      (hp.ne_reservedKey (Schema.mem_nested_of_mem_enclosed hinner) hkey)
  constructor
  · intro inner hinner key hkey hnone
    rcases hcases inner hinner key hkey with ⟨_, _, _, hB⟩ | ⟨hE, hB⟩
    · rw [hB] at hnone
      cases hnone
    · rw [hE]
      exact h.absent inner hinner key hkey (hB ▸ hnone)
  · intro inner hinner key hkey b hget
    rcases hcases inner hinner key hkey with ⟨rfl, hinherit, _, hB⟩ | ⟨_, hB⟩
    · rw [hB] at hget
      cases hget
      exact suits_of_accepts (d := .nested node) ha hbelow h
        (Schema.nested_mem_declarations.2 hnode) hinherit hx ⟨path, es, hes⟩ hinner
    · exact h.suits inner hinner key hkey b (hB ▸ hget)

/-! ## One level -/

/-- The raw value of a setting, as a fold finds it, is accepted by the range of the setting. -/
theorem leaves_exist_of_setting (hplain : schema.HasPlainSettings)
    (h : Matches schema.nested inherited bequests) {s : Setting} (hs : s ∈ schema.settings)
    {w : Value} (hw : s.outcome inherited given path = .ok w) (path' : Path) :
    ∃ leaves, s.range.leaves path'
      (rawSetting given (schema.walked bequests given).inherited s.key) = .ok leaves := by
  have hself : schema ∈ schema.nested := schema.self_mem_nested
  have hsplain : s.range.IsPlain := hplain schema hself s hs
  have hdeclared : s.key ∈ schema.keys := Schema.mem_keys_of_setting hs
  suffices haccepted : ∃ path w, s.range.complete path
      (rawSetting given (schema.walked bequests given).inherited s.key) = .ok w by
    obtain ⟨_, w, hw⟩ := haccepted
    exact ⟨_, hsplain.leaves_eq (hsplain.complete_at hw path')⟩
  unfold rawSetting
  cases hgiven : Entries.get? given s.key with
  | some x =>
    rw [Setting.outcome_of_given hgiven] at hw
    exact ⟨_, w, hw⟩
  | none =>
    rw [(schema.walked_of_get?_eq_none bequests hgiven).2]
    cases hb : Entries.get? bequests s.key with
    | some b => exact (h.suits schema hself s.key hdeclared b hb).setting s hs rfl
    | none =>
      rw [Setting.outcome_of_absent hgiven (h.absent schema hself s.key hdeclared hb)] at hw
      exact ⟨_, w, hw⟩

/-- The raw map of a section, as a fold finds it, has leaves. -/
theorem folds_of_section (hp : schema.Proper) (hn : (Entries.keys given).Nodup)
    {filled : List (String × Value)} {progress : SectionProgress}
    (hdone : schema.LevelDone inherited path given filled progress)
    (h : Matches schema.nested inherited bequests) {node : Section}
    (hnode : node ∈ schema.sections)
    (hgiven : ∀ x, Entries.get? given node.key = some x → ∃ bequests',
      Entries.get? (schema.walked bequests given).present node.key = some ⟨x, bequests'⟩ ∧
        node.schema.Folds bequests' x)
    (habsent : ∀ es, node.schema.complete progress.inherited (path.entry node.key) .emptyMap =
      .ok es → node.schema.Folds (schema.walked bequests given).inherited .emptyMap) :
    node.schema.Folds
      (rawSection (schema.walked bequests given).present
        (schema.walked bequests given).inherited node.key).scope
      (rawSection (schema.walked bequests given).present
        (schema.walked bequests given).inherited node.key).value := by
  have hself : schema ∈ schema.nested := schema.self_mem_nested
  have hdeclared : node.key ∈ schema.keys := Schema.mem_keys_of_section hnode
  unfold rawSection
  cases hx : Entries.get? given node.key with
  | some x =>
    obtain ⟨bequests', hpresent, hfolds⟩ := hgiven x hx
    rw [hpresent]
    exact hfolds
  | none =>
    obtain ⟨hpresent, hB⟩ := schema.walked_of_get?_eq_none bequests hx
    rw [hpresent, Option.none_or, hB]
    cases hb : Entries.get? bequests node.key with
    | some b => exact (h.suits schema hself node.key hdeclared b hb).nested node hnode rfl
    | none =>
      -- nothing is inherited in completing either, so the empty map was completed
      obtain ⟨w, hw, -⟩ := hdone.nested node hnode
      have hkey : node.key ≠ reservedKey := hp.ne_reservedKey hself hdeclared
      have hE : Entries.get? progress.inherited node.key = none := by
        rw [get?_inherited_of_get?_eq_none hdone.walked hkey hx]
        exact (get?_handDown_of_get?_eq_none hkey hn hx).trans
          (h.absent schema hself node.key hdeclared hb)
      rw [Schema.slotValue_eq_outcome_of_absent hdone.walked hx,
        Section.outcome_of_absent hx hE] at hw
      obtain ⟨es, hes, -⟩ := map_eq_ok_iff.1 hw
      exact habsent es hes

/-- A level has leaves if the raw map of each section, as a fold finds it, does. -/
theorem folds_of_levelDone (hplain : schema.HasPlainSettings)
    (h : Matches schema.nested inherited bequests)
    (hsettings : ∀ s ∈ schema.settings, ∃ w,
      s.outcome inherited v.entriesOrEmpty path = .ok w)
    (hsections : ∀ node ∈ schema.sections, node.schema.Folds
      (rawSection (schema.walked bequests v.entriesOrEmpty).present
        (schema.walked bequests v.entriesOrEmpty).inherited node.key).scope
      (rawSection (schema.walked bequests v.entriesOrEmpty).present
        (schema.walked bequests v.entriesOrEmpty).inherited node.key).value) :
    schema.Folds bequests v := by
  intro path'
  obtain ⟨ofSettings, hofSettings⟩ : ∃ leaves, settingLeaves v.entriesOrEmpty
      (schema.walked bequests v.entriesOrEmpty).inherited path' schema.settingVisits =
        .ok leaves := by
    refine settingLeaves_exists fun slot hslot => ?_
    obtain ⟨s, hs, rfl⟩ := List.mem_map.1 hslot
    obtain ⟨w, hw⟩ := hsettings s hs
    rw [Setting.run_visit, Setting.key_visit]
    exact leaves_exist_of_setting hplain h hs hw _
  obtain ⟨ofSections, hofSections⟩ : ∃ leaves, sectionLeaves
      (schema.walked bequests v.entriesOrEmpty).present
      (schema.walked bequests v.entriesOrEmpty).inherited path' schema.sectionVisits =
        .ok leaves := by
    refine sectionLeaves_exists fun slot hslot => ?_
    obtain ⟨node, hnode, rfl⟩ := List.mem_map.1 hslot
    rw [Section.run_visit, Section.key_visit]
    exact hsections node hnode _
  refine ⟨ofSettings ++ ofSections, ?_⟩
  rw [Schema.leaves_eq]
  exact bind_eq_ok_iff.2 ⟨ofSettings, hofSettings, bind_eq_ok_iff.2 ⟨ofSections, hofSections, rfl⟩⟩

/-! ## Schemas -/

/-- **A completed map has leaves,** if what is inherited on both sides matches. -/
theorem Schema.folds_of_complete (hp : schema.Proper) (hplain : schema.HasPlainSettings)
    (ha : schema.HandsDownAccepted) (hv : v.WellFormed)
    (h : Matches schema.nested inherited bequests)
    (hout : schema.complete inherited path v = .ok out) : schema.Folds bequests v := by
  induction schema using Schema.enclosed_induction generalizing inherited bequests path v out with
  | step schema ih =>
    have hself : schema ∈ schema.nested := schema.self_mem_nested
    obtain ⟨-, filled, progress, -, hdone⟩ := Schema.levelDone_of_complete hp hv.nodup hout
    have hbelow : schema.FoldsBelow := by
      intro inner hinner scope bequests path x es hx hmatches hes
      have hnested : inner ∈ schema.nested := Schema.mem_nested_of_mem_enclosed hinner
      exact ih inner hinner (hp.of_mem_nested hnested) (hplain.of_mem_nested hnested)
        (ha.of_mem_nested hnested) hx
        (hmatches.mono fun _ => Schema.mem_enclosed_trans hinner) hes
    -- the two sides match below the settings, and go on matching from section to section
    have hdown : Matches schema.enclosed (schema.handedDown inherited v.entriesOrEmpty)
        (settingBequests schema.settingVisits bequests v.entriesOrEmpty) := by
      refine matches_handedDown hp ha hbelow hv.nodup (fun s hs x hx => ?_)
        (h.mono fun _ => Schema.mem_nested_of_mem_enclosed)
      obtain ⟨w, hw, -⟩ := hdone.setting s hs
      rw [Setting.outcome_of_given hx] at hw
      exact ⟨hv.get? hx, _, w, hw⟩
    obtain ⟨hlast, hgiven⟩ := sections_in_step (R := Matches schema.enclosed) hp.distinctKeys
      hdone.walked (fun node hnode x hx scope bequests es hmatches hes =>
        matches_handDownSection hp ha hbelow hmatches hnode (hv.entriesOrEmpty.2 _ hx) hes) hdown
    have hsettings : ∀ s ∈ schema.settings, ∃ w,
        s.outcome inherited v.entriesOrEmpty path = .ok w := by
      intro s hs
      obtain ⟨w, hw, -⟩ := hdone.setting s hs
      exact ⟨w, hw⟩
    refine folds_of_levelDone hplain h hsettings fun node hnode => ?_
    have hnested : node.schema ∈ schema.enclosed := Schema.mem_enclosed_of_section hnode
    refine folds_of_section hp hv.nodup hdone h hnode (fun x hx => ?_) fun es hes =>
      hbelow node.schema hnested Value.wellFormed_emptyMap hlast hes
    obtain ⟨scope, bequests', es, hmatches, hes, -, hpresent⟩ := hgiven node hnode x hx
    exact ⟨bequests', hpresent, hbelow node.schema hnested (hv.get? hx) hmatches hes⟩

end Levels

/-- **A map can be folded exactly when it validates,** if whatever an inheriting declaration accepts
is accepted by the declarations of its key below. -/
theorem Schema.fold_fails_iff_invalid {α : Type} {schema : Schema} {map : Value}
    (hp : schema.Proper) (hplain : schema.HasPlainSettings) (ha : schema.HandsDownAccepted)
    (hmap : map.WellFormed) (f : Range → Path → α → Value → α) (init : α) :
    (∃ fault, schema.fold f init map = .error fault ∧ fault.code = .foldPrecondition) ↔
      ∃ violation, (Range.schema schema).complete [] map = .error violation := by
  refine Range.fold_fails_iff_of_leaves_exist fun w hw => ?_
  obtain ⟨es, hes, -⟩ := map_eq_ok_iff.1 hw
  obtain ⟨leaves, hleaves⟩ :=
    Schema.folds_of_complete hp hplain ha hmap (matches_nil schema.nested) hes []
  exact ⟨leaves, bind_eq_ok_iff.2 ⟨w, mapError_eq_ok_iff.2 hw, hleaves⟩⟩

/-- A sample schema of an oven: the heat is handed down to the tray, which takes any heat. -/
def sampleOven : Schema :=
  ⟨"oven", [⟨"heat", "how hot", Range.string (.text "low"), true⟩],
    [⟨"tray", ⟨"tray", [⟨"heat", "how hot", .any .null, false⟩], []⟩, false⟩]⟩

/-- A fold over a map for the sample oven is refused if the heat is no text. -/
theorem fold_sampleOven :
    (∃ fault, sampleOven.fold Range.countLeaf 0 (.ofEntries [("heat", .bool true)]) =
        .error fault ∧ fault.code = .foldPrecondition) ∧
      ¬∃ fault, sampleOven.fold Range.countLeaf 0 (.ofEntries [("heat", .text "high")]) =
        .error fault ∧ fault.code = .foldPrecondition := by
  have hplain : sampleOven.HasPlainSettings := by
    simp [Schema.HasPlainSettings, sampleOven, Schema.nested, Section.allNested, Range.string,
      Range.IsPlain]
  have haccepted : sampleOven.HandsDownAccepted := by
    -- only the heat of the tray is below an inheriting declaration, and it takes anything
    intro outer houter d hd hinherits inner hinner d' hd' hkey scope v _ _
    simp only [sampleOven, Schema.nested, Section.allNested, List.append_nil, List.mem_cons,
      List.not_mem_nil, or_false] at houter
    rcases houter with rfl | rfl
    · simp only [Schema.enclosed, Schema.nested, Section.allNested, List.flatMap_cons,
        List.flatMap_nil, List.append_nil, List.mem_singleton] at hinner
      subst hinner
      obtain rfl := List.mem_singleton.1 hd'
      exact ⟨[], _, rfl⟩
    · cases hinner
  have hnumber : (Value.ofEntries [("heat", .bool true)]).WellFormed := by
    simp +decide [Value.wellFormed_ofEntries_iff, Value.WellFormed.bool]
  have htext : (Value.ofEntries [("heat", .text "high")]).WellFormed := by
    simp +decide [Value.wellFormed_ofEntries_iff, Value.WellFormed.text]
  constructor
  · exact (Schema.fold_fails_iff_invalid (by decide) hplain haccepted hnumber _ _).2 ⟨_, rfl⟩
  · rw [Schema.fold_fails_iff_invalid (by decide) hplain haccepted htext]
    rintro ⟨violation, hv⟩
    cases hv

/-- A sample schema of a kiln: any heat is handed down to the chamber, which takes only texts. -/
def sampleKiln : Schema :=
  ⟨"kiln", [⟨"heat", "how hot", .any .null, true⟩],
    [⟨"chamber", ⟨"chamber", [⟨"heat", "how hot", Range.string (.text "low"), false⟩], []⟩,
      false⟩]⟩

/-- A map for the sample kiln that validates and yet cannot be folded: the chamber takes the flag
over as its heat, and does not accept it when it is folded. -/
theorem fold_sampleKiln :
    sampleKiln.Proper ∧ sampleKiln.HasPlainSettings ∧
      (Value.ofEntries [("heat", .bool true)]).WellFormed ∧
      ¬((∃ fault, sampleKiln.fold Range.countLeaf 0 (.ofEntries [("heat", .bool true)]) =
          .error fault ∧ fault.code = .foldPrecondition) ↔
        ∃ violation, (Range.schema sampleKiln).complete [] (.ofEntries [("heat", .bool true)]) =
          .error violation) := by
  refine ⟨by decide, ?_, ?_, ?_⟩
  · simp [Schema.HasPlainSettings, sampleKiln, Schema.nested, Section.allNested, Range.string,
      Range.IsPlain]
  · simp +decide [Value.wellFormed_ofEntries_iff, Value.WellFormed.bool]
  · intro hiff
    obtain ⟨violation, hv⟩ := hiff.1 ⟨_, rfl, rfl⟩
    cases hv

end LayeredConfig
