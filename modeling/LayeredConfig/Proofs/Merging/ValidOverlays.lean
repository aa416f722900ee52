import LayeredConfig.Proofs.Completion.Conformance
import LayeredConfig.Proofs.Completion.Normalization
import LayeredConfig.Proofs.Merging.Fitting
import LayeredConfig.Proofs.Merging.Layers

/-!
# Valid maps stay valid when they are overlaid

Profiles can be written one by one: where the base and each profile are accepted on their own,
they are accepted together, in every selection and order (`Schema.normalize_of_valid`).

- `Schema.Valid`: a map that conforms.
- `Schema.conforms_overlay`: what conforms is closed under overlaying. Each setting of an overlay
  is read from one of the two maps; where neither has it, both are read as having nothing there,
  and either of them says that this is accepted.
- `Schema.Valid.overlay`: conforming maps can be overlaid, since they have the outline that this
  asks for. `Schema.Valid.overlayAll` says so of any number of them.
-/

namespace LayeredConfig

namespace Schema

variable {schema : Schema} {path : Path} {v lower upper : Value} {out : Entries Value}

/-! ## What conforms has the outline of the schema -/

/-- The empty map conforms iff nothing given does. -/
theorem conforms_orEmptyMap_iff : schema.Conforms path v.orEmptyMap ↔ schema.Conforms path v := by
  have hshape : (v.orEmptyMap.isNil = true ∨ v.orEmptyMap.isMap = true) ↔
      (v.isNil = true ∨ v.isMap = true) := by
    by_cases hnil : v.isNil = true
    · rw [Value.orEmptyMap_of_isNil hnil]
      exact ⟨fun _ => .inl hnil, fun _ => .inr rfl⟩
    · simp [Value.orEmptyMap, hnil]
  rw [conforms_iff, conforms_iff, Value.entriesOrEmpty_orEmptyMap, hshape]

theorem Conforms.fits (h : schema.Conforms path v) : schema.Fits v.orEmptyMap := by
  induction schema using Schema.induction generalizing path v with
  | step schema ih =>
    obtain ⟨hshape, hdeclared, -, hsections⟩ := (conforms_iff schema path v).1 h
    refine (fits_iff schema _).2 ⟨?_, ?_, ?_⟩
    · exact Value.isMap_of_entries? (Value.entries?_orEmptyMap_iff.2 ⟨hshape, rfl⟩)
    · rw [Value.entriesOrEmpty_orEmptyMap]
      exact hdeclared
    · intro node hnode
      rw [Value.entriesOrEmpty_orEmptyMap]
      exact ih node hnode (hsections node hnode)

/-! ## Two maps -/

/-- A setting of an overlay is read from the upper map or from the lower one. -/
theorem read_overlay_setting (hp : schema.Proper) (hlower : lower.WellFormed)
    (hupper : upper.WellFormed) (h : schema.overlay path lower upper = .ok out) {s : Setting}
    (hs : s ∈ schema.settings) :
    Entries.read out s.key = Entries.read upper.entriesOrEmpty s.key ∨
      Entries.read out s.key = Entries.read lower.entriesOrEmpty s.key := by
  unfold Entries.read
  rw [get?_overlay_setting hp hlower hupper h hs]
  cases Entries.get? upper.entriesOrEmpty s.key with
  | some w => exact .inl rfl
  | none => exact .inr rfl

/-- **What conforms is closed under overlaying.** -/
theorem conforms_overlay (hp : schema.Proper) (hlower : lower.WellFormed)
    (hupper : upper.WellFormed) {path' : Path} (hl : schema.Conforms path' lower)
    (hu : schema.Conforms path' upper) (h : schema.overlay path lower upper = .ok out) :
    schema.Conforms path' (.ofEntries out) := by
  induction schema using Schema.induction generalizing path path' lower upper out with
  | step schema ih =>
    obtain ⟨-, -, hlowerSettings, hlowerSections⟩ := (conforms_iff schema path' lower).1 hl
    obtain ⟨-, -, hupperSettings, hupperSections⟩ := (conforms_iff schema path' upper).1 hu
    refine (conforms_iff schema path' _).2 ⟨.inr rfl, ?_, ?_, ?_⟩
    · intro key hkey
      exact mem_keys_of_overlay hp hlower hupper h hkey
    · intro s hs
      rw [Value.entriesOrEmpty_ofEntries]
      rcases read_overlay_setting hp hlower hupper h hs with hread | hread
      · rw [hread]
        exact hupperSettings s hs
      · rw [hread]
        exact hlowerSettings s hs
    · intro node hnode
      obtain ⟨es, hes, hread, -⟩ := section_of_overlay hp hlower hupper h hnode
      rw [Value.entriesOrEmpty_ofEntries, ← conforms_orEmptyMap_iff, hread]
      exact ih node hnode (hp.section hnode) (hlower.read node.key).orEmptyMap
        (hupper.read node.key).orEmptyMap
        (conforms_orEmptyMap_iff.2 (hlowerSections node hnode))
        (conforms_orEmptyMap_iff.2 (hupperSections node hnode)) hes

/-! ## Any number of maps -/

/-- A map that conforms. -/
structure Valid (schema : Schema) (path : Path) (v : Value) : Prop where
  wellFormed : v.WellFormed
  isMap : v.isMap = true
  conforms : schema.Conforms path v

theorem Valid.fits (h : schema.Valid path v) : schema.Fits v := by
  rw [← Value.orEmptyMap_of_isMap h.isMap]
  exact h.conforms.fits

/-- **Valid maps can be overlaid, and what comes out is valid.** -/
theorem Valid.overlay (hl : schema.Valid path lower) (hu : schema.Valid path upper)
    (hp : schema.Proper) (path' : Path) :
    ∃ es, schema.overlay path' lower upper = .ok es ∧ schema.Valid path (.ofEntries es) := by
  obtain ⟨es, hes⟩ := (overlay_exists_iff hp).2 ⟨hl.fits, hu.fits⟩
  exact ⟨es, hes, overlay_wellFormed hp hl.wellFormed hu.wellFormed hes, rfl,
    conforms_overlay hp hl.wellFormed hu.wellFormed hl.conforms hu.conforms hes⟩

theorem Valid.overlayAll {base : Value} (hbase : schema.Valid path base) (hp : schema.Proper)
    {contents : List Value} (hcontents : ∀ content ∈ contents, schema.Valid path content) :
    ∃ applied, schema.overlayAll base contents = .ok applied ∧ schema.Valid path applied := by
  unfold Schema.overlayAll
  induction contents generalizing base with
  | nil => exact ⟨base, rfl, hbase⟩
  | cons content rest ih =>
    obtain ⟨es, hes, hvalid⟩ := hbase.overlay (hcontents content List.mem_cons_self) hp []
    obtain ⟨applied, happlied, hlast⟩ :=
      ih hvalid fun c hc => hcontents c (List.mem_cons_of_mem content hc)
    refine ⟨applied, ?_, hlast⟩
    rw [List.foldlM_cons]
    exact bind_eq_ok_iff.2 ⟨.ofEntries es, map_eq_ok_iff.2 ⟨es, hes, rfl⟩, happlied⟩

/-! ## Profiles -/

/-- A map that holds a map of profiles is taken apart into the rest and the profiles. -/
theorem layer_of_profiles (operation : Operation) {map profiles : Value}
    (hprofiles : map.held? [] profilesKey = some profiles) (hmap : profiles.isMap = true) :
    Layer.of operation map =
      .ok ⟨.ofAssigned (map.entriesOrEmpty.without profilesKey),
        some profiles.entriesOrEmpty⟩ := by
  have hget : Entries.get? map.entriesOrEmpty profilesKey = some profiles := hprofiles
  refine bind_eq_ok_iff.2 ⟨map.entriesOrEmpty,
    requireMap_of_isMap (Value.isMap_of_held? hprofiles), ?_⟩
  rw [hget]
  exact bind_eq_ok_iff.2 ⟨profiles.entriesOrEmpty, requireMap_of_isMap hmap, rfl⟩

theorem selectProfiles_exists {available : Entries Value} {names : List String}
    (h : ∀ name ∈ names, ∃ content, Entries.get? available name = some content) :
    ∃ contents, selectProfiles available names = .ok contents := by
  induction names with
  | nil => exact ⟨[], rfl⟩
  | cons name rest ih =>
    obtain ⟨content, hcontent⟩ := h name List.mem_cons_self
    obtain ⟨contents, hcontents⟩ := ih fun n hn => h n (List.mem_cons_of_mem name hn)
    refine ⟨content :: contents, ?_⟩
    rw [selectProfiles, hcontent]
    exact map_eq_ok_iff.2 ⟨contents, hcontents, rfl⟩

/-- A map that a schema accepts is valid, if the schema hands nothing down. -/
theorem valid_of_accepted (hp : schema.Proper) (hh : schema.HandsNothingDown) (hv : v.WellFormed)
    (hmap : v.isMap = true) (h : ∃ w, (Range.schema schema).complete path v = .ok w) :
    schema.Valid path v := by
  obtain ⟨w, hw⟩ := h
  obtain ⟨es, hes, -⟩ := map_eq_ok_iff.1 hw
  exact ⟨hv, hmap, (complete_exists_iff_conforms hp hh hv).1 ⟨es, hes⟩⟩

/-- **Valid overlays compose.** Where nothing is handed down, a raw map is accepted with profiles
applied, whichever are named and how often, as soon as its base and the contents of each of these
profiles are accepted on their own. -/
theorem normalize_of_valid (hp : schema.Proper) (hh : schema.HandsNothingDown)
    {map profiles : Value} (hmap : map.WellFormed)
    (hprofiles : map.held? [] profilesKey = some profiles) (hprofilesMap : profiles.isMap = true)
    (hbase : ∃ w, (Range.schema schema).complete []
      (.ofEntries (map.entriesOrEmpty.without profilesKey)) = .ok w)
    {names : List String}
    (hnames : ∀ name ∈ names, ∃ content, profiles.held? [] name = some content ∧
      content.isMap = true ∧ ∃ w, (Range.schema schema).complete [] content = .ok w)
    (package : Log.Logger) :
    ∃ out, (schema.normalize package names map [] []).result = .ok (.ok out) := by
  have hentries : (Value.ofEntries map.entriesOrEmpty).WellFormed :=
    Value.wellFormed_ofEntries_iff.2 hmap.entriesOrEmpty
  have hvalidBase : schema.Valid [] (.ofEntries (map.entriesOrEmpty.without profilesKey)) :=
    valid_of_accepted hp hh (Entries.wellFormed_without hentries profilesKey) rfl hbase
  -- the base is rebuilt as it is, since all its keys are declared
  have hreserved : reservedKey ∉ Entries.keys (map.entriesOrEmpty.without profilesKey) := by
    intro hmem
    have hdeclared := ((conforms_iff schema [] _).1 hvalidBase.conforms).2.1 reservedKey hmem
    exact hp.ne_reservedKey schema.self_mem_nested hdeclared rfl
  have hbuilt : Value.ofAssigned (map.entriesOrEmpty.without profilesKey) =
      .ofEntries (map.entriesOrEmpty.without profilesKey) := by
    rw [Value.ofAssigned_of_not_mem hreserved,
      Entries.rebuild_eq_self (hmap.entriesOrEmpty.1.without profilesKey) hreserved]
  obtain ⟨contents, hcontents⟩ : ∃ contents,
      selectProfiles profiles.entriesOrEmpty names = .ok contents := by
    refine selectProfiles_exists fun name hname => ?_
    obtain ⟨content, hcontent, -⟩ := hnames name hname
    exact ⟨content, hcontent⟩
  have hvalid : ∀ content ∈ contents, schema.Valid [] content := by
    rw [selectProfiles_eq_ok hcontents]
    intro content hcontent
    obtain ⟨name, hname, hget⟩ := List.mem_filterMap.1 hcontent
    obtain ⟨content', hheld, hcontentMap, haccepted⟩ := hnames name hname
    cases hget.symm.trans hheld
    exact valid_of_accepted hp hh ((hmap.get? hprofiles).get? hget) hcontentMap haccepted
  obtain ⟨applied, happlied, hlast⟩ := hvalidBase.overlayAll hp hvalid
  obtain ⟨out, hout⟩ :=
    (complete_exists_iff_conforms hp hh hlast.wellFormed).2 hlast.conforms
  -- every step of normalizing succeeds
  have hself : map.isMap = true := Value.isMap_of_held? hprofiles
  have hlayer := layer_of_profiles .overlayProfiles hprofiles hprofilesMap
  rw [hbuilt] at hlayer
  have hresult : (schema.overlayProfiles package map names).result = .ok applied :=
    overlayProfiles_eq_ok_iff.2 ⟨_, contents, hlayer, hcontents, happlied⟩
  refine ⟨out, normalize_eq_ok_iff.2 ?_⟩
  rw [Value.orEmptyMap_of_isMap hself]
  exact ⟨hself, applied, hresult, hout⟩

/-- A sample schema of a mailer that must be given a sender. -/
def sampleMailer : Schema :=
  ⟨"mailer", [⟨"sender", "who sends", Range.string (.text "nobody"), false⟩],
    [⟨"limits", ⟨"limits", [⟨"mode", "how strict", .optional .nonNil, false⟩], []⟩, false⟩]⟩

/-- A mailer with a profile that sets a limit, and one that takes it back. -/
def sampleMailerMap : Value :=
  .ofEntries [("sender", .text "robot"),
    ("profiles", .ofEntries [
      ("strict", .ofEntries [("limits", .ofEntries [("mode", .bool true)])]),
      ("free", .ofEntries [("limits", .ofEntries [("mode", .null)]), ("sender", .null)])])]

/-- The sample profiles are accepted one by one, and so in any order and repetition. -/
theorem normalize_of_valid_sampleMailer :
    ∃ out, (sampleMailer.normalize (Log.Logger.root false) ["strict", "free", "strict"]
      sampleMailerMap [] []).result = .ok (.ok out) := by
  have hmap : sampleMailerMap.WellFormed := by
    simp +decide [sampleMailerMap, Value.wellFormed_ofEntries_iff, Value.WellFormed.text,
      Value.WellFormed.bool, Value.WellFormed.null]
  refine normalize_of_valid (by decide) (by decide) hmap rfl rfl ⟨_, rfl⟩ ?_ _
  simp only [List.forall_mem_cons]
  exact ⟨⟨_, rfl, rfl, _, rfl⟩, ⟨_, rfl, rfl, _, rfl⟩, ⟨_, rfl, rfl, _, rfl⟩,
    fun _ hname => absurd hname List.not_mem_nil⟩

end Schema

end LayeredConfig
