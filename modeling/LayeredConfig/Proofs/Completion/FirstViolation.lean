import LayeredConfig.Proofs.Completion.Conformance

/-!
# Which violation is reported

A map may have several faults, but only one of them is reported. `Schema.violations` lists them
without stopping at any, in the order of precedence:

1. given settings that are rejected, in the order of the map;
2. undeclared keys, in the order of the map;
3. settings that are not given and cannot be completed from nothing, in declaration order;
4. given sections, in the order of the map;
5. sections that are not given, in declaration order.

For a section, the list has the first violation of the section's own list, if it has any. Where
nothing is handed down, the violation that is reported is the head of the list, and a map for which
the list is empty is completed (`Schema.reports_first_violation`).

- `Violation.of?_bind`: if either of two steps stops at the head of a list, the run of both stops at
  the head of the lists joined.
- `of?_givenSettings`, `of?_rejectUndeclared`, `of?_fill_absent`, `of?_givenSections`: each of the
  loops that complete a level stops at the head of its own list, which does not depend on the loops
  before it.
- `of?_completeEntries`: so does the level, of these lists joined.

Where a level inherits, the list may be too long: what is inherited takes the place of a setting or
section that is not given, and is not completed again.
-/

namespace LayeredConfig

/-- What a value at a path is rejected for, if it is. -/
abbrev Objection := Path → Value → Option Violation

/-- The violation that an outcome is, if it is one. -/
def Violation.of? {α : Type} : Except Violation α → Option Violation
  | .ok _ => none
  | .error violation => some violation

/-- The slot of the same key with other work. -/
def Slot.map {α β : Type} (f : α → β) (slot : Slot α) : Slot β :=
  ⟨slot.key, slot.inherit, f slot.run⟩

/-- What the given entries of some slots are rejected for, in the order of the entries. -/
def givenViolations (slots : List (Slot Objection)) (path : Path) (given : Entries Value) :
    List Violation :=
  given.filterMap fun e => (Slot.find? slots e.1).bind fun slot => slot.run (path.entry e.1) e.2

/-- The given entries whose keys are not declared, in their order. -/
def undeclaredViolations (settings sections : List (Slot Objection)) (path : Path)
    (given : Entries Value) : List Violation :=
  (given.filter fun e => !Slot.declares settings e.1 && !Slot.declares sections e.1).map
    fun e => ⟨none, path.entry e.1, e.2⟩

/-- What is rejected where the slots that are not given are completed from `nothing`, in
declaration order. -/
def absentViolations (slots : List (Slot Objection)) (nothing : Value) (path : Path)
    (given : Entries Value) : List Violation :=
  (slots.filter fun slot => !Entries.has given slot.key).filterMap
    fun slot => slot.run (path.entry slot.key) nothing

/-- What the entries of a map are rejected for, in the order of precedence. -/
def levelViolations (settings sections : List (Slot Objection)) (path : Path)
    (given : Entries Value) : List Violation :=
  givenViolations settings path given ++
    undeclaredViolations settings sections path given ++
    absentViolations settings .undefined path given ++
    givenViolations sections path given ++
    absentViolations sections .emptyMap path given

/-- What the check of a setting has against a value. -/
def ValueCheck.objection (check : ValueCheck) : Objection :=
  fun path v => Violation.of? (check path v)

/-- What the check of a section has against a value where nothing is inherited. -/
def LevelCheck.objection (check : LevelCheck) : Objection :=
  fun path v => Violation.of? (check [] path v)

/-- What a setting has against a value. -/
def Setting.objection (s : Setting) : Slot Objection :=
  ⟨s.key, s.inherit, ValueCheck.objection s.range.complete⟩

mutual

/-- What a value at a path is rejected for, in the order of precedence. -/
def Schema.violations : Schema → Path → Value → List Violation
  | ⟨_, settings, sections⟩, path, v =>
    match v.orEmptyMap.entries? with
    | some given =>
      levelViolations (settings.map Setting.objection) (Section.objections sections) path given
    | none => [⟨none, path, v⟩]

/-- What a section has against a value. -/
def Section.objection : Section → Slot Objection
  | ⟨key, schema, inherit⟩ => ⟨key, inherit, fun path v => (schema.violations path v).head?⟩

/-- What several sections have against values. -/
def Section.objections : List Section → List (Slot Objection)
  | [] => []
  | node :: rest => node.objection :: Section.objections rest

end

theorem Section.objections_eq_map (sections : List Section) :
    Section.objections sections = sections.map Section.objection := by
  induction sections with
  | nil => rfl
  | cons node rest ih => rw [Section.objections, ih, List.map_cons]

theorem Section.objection_eq (node : Section) :
    node.objection =
      ⟨node.key, node.inherit, fun path v => (node.schema.violations path v).head?⟩ := by
  cases node
  rfl

/-! ## The first of several violations -/

namespace Violation

variable {α β : Type}

theorem of?_map (f : α → β) (x : Except Violation α) : of? (x.map f) = of? x := by
  cases x <;> rfl

/-- A run of two steps is rejected for the first violation of either. -/
theorem of?_bind {x : Except Violation α} {f : α → Except Violation β}
    {before after : List Violation} (hx : of? x = before.head?)
    (hf : ∀ a, x = .ok a → of? (f a) = after.head?) :
    of? (x >>= f) = (before ++ after).head? := by
  rw [List.head?_append, ← hx]
  cases x with
  | error violation => rfl
  | ok a => exact hf a rfl

end Violation

/-! ## The loops of a level -/

theorem Slot.find?_map {α β : Type} (f : α → β) (slots : List (Slot α)) (key : String) :
    Slot.find? (slots.map (Slot.map f)) key = (Slot.find? slots key).map (Slot.map f) := by
  rw [Slot.find?, List.find?_map]
  rfl

theorem Slot.declares_map {α β : Type} (f : α → β) (slots : List (Slot α)) (key : String) :
    Slot.declares (slots.map (Slot.map f)) key = Slot.declares slots key := by
  rw [Slot.declares, Slot.find?_map, Option.isSome_map]
  rfl

section Level

variable {settings : List (Slot ValueCheck)} {sections : List (Slot LevelCheck)} {path : Path}
  {given : Entries Value}

theorem filterMap_cons_toList {α β : Type} (f : α → Option β) (x : α) (xs : List α) :
    (x :: xs).filterMap f = (f x).toList ++ xs.filterMap f := by
  rw [List.filterMap_cons]
  cases f x <;> rfl

/-- Completing the given settings stops at the first that is rejected. -/
theorem of?_givenSettings :
    Violation.of? (givenSettings settings path given) =
      (givenViolations (settings.map (Slot.map ValueCheck.objection)) path given).head? := by
  induction given with
  | nil => rfl
  | cons e rest ih =>
    obtain ⟨k, v⟩ := e
    rw [givenViolations, filterMap_cons_toList, Slot.find?_map, givenSettings]
    cases Slot.find? settings k with
    | none => exact ih -- the entry is passed over on both sides
    | some slot =>
      refine Violation.of?_bind Option.head?_toList.symm fun w _ => ?_
      rw [← List.append_nil (List.filterMap _ rest)]
      exact Violation.of?_bind ih fun ws _ => rfl

/-- Only the first key that is not declared is reported. -/
theorem of?_rejectUndeclared :
    Violation.of? (rejectUndeclared settings sections path given) =
      (undeclaredViolations (settings.map (Slot.map ValueCheck.objection))
        (sections.map (Slot.map LevelCheck.objection)) path given).head? := by
  unfold undeclaredViolations rejectUndeclared undeclared?
  rw [List.head?_map, List.head?_filter]
  simp only [Slot.declares_map]
  cases given.find? fun e => !Slot.declares settings e.1 && !Slot.declares sections e.1 <;> rfl

/-- Filling the slots stops at the first that is neither done nor completed from nothing. -/
theorem of?_fill {α : Type} {slots : List (Slot α)} {done : List (String × Value)}
    {absent : Slot α → Except Violation Value} :
    Violation.of? (fill done [] absent slots) =
      ((slots.filter fun slot => !Entries.has done slot.key).filterMap
        fun slot => Violation.of? (absent slot)).head? := by
  induction slots with
  | nil => rfl
  | cons slot rest ih =>
    rw [fill, List.filter_cons]
    cases hdone : Entries.get? done slot.key with
    | some w =>
      have hhas : Entries.has done slot.key = true := by rw [Entries.has, hdone]; rfl
      have hvalue : slotValue done [] absent slot = .ok w := by rw [slotValue, hdone]; rfl
      rw [hhas, hvalue, Bool.not_true, if_neg Bool.false_ne_true,
        ← List.append_nil (List.filterMap _ _)]
      show Violation.of? (fill done [] absent rest >>= _) = _
      exact Violation.of?_bind ih fun ws _ => rfl
    | none =>
      have hhas : Entries.has done slot.key = false := by rw [Entries.has, hdone]; rfl
      have hvalue : slotValue done [] absent slot = absent slot := by rw [slotValue, hdone]; rfl
      rw [hhas, hvalue, Bool.not_false, if_pos rfl, filterMap_cons_toList]
      refine Violation.of?_bind Option.head?_toList.symm fun w _ => ?_
      rw [← List.append_nil (List.filterMap _ _)]
      exact Violation.of?_bind ih fun ws _ => rfl

/-- Completing the given sections stops at the first that is rejected. -/
theorem of?_givenSections (hs : Steady sections) :
    Violation.of? (givenSections sections path [] given) =
      (givenViolations (sections.map (Slot.map LevelCheck.objection)) path given).head? := by
  induction given with
  | nil => rfl
  | cons e rest ih =>
    obtain ⟨k, v⟩ := e
    rw [givenViolations, filterMap_cons_toList, Slot.find?_map, givenSections]
    cases hslot : Slot.find? sections k with
    | none => exact ih
    | some slot =>
      refine Violation.of?_bind Option.head?_toList.symm fun es _ => ?_
      rw [← List.append_nil (List.filterMap _ rest), hs.handDownSection_eq hslot]
      exact Violation.of?_bind ih fun later _ => rfl

/-- Filling stops at the first absent slot that is rejected, since the given ones are done. -/
theorem of?_fill_absent {α : Type} {slots : List (Slot α)} {done : List (String × Value)}
    {absent : Slot α → Except Violation Value} {objection : α → Objection} {nothing : Value}
    (hdone : ∀ slot ∈ slots, Entries.has done slot.key = Entries.has given slot.key)
    (habsent : ∀ slot, Violation.of? (absent slot) =
      objection slot.run (path.entry slot.key) nothing) :
    Violation.of? (fill done [] absent slots) =
      (absentViolations (slots.map (Slot.map objection)) nothing path given).head? := by
  have hfilter : (slots.filter fun slot => !Entries.has done slot.key) =
      slots.filter fun slot => !Entries.has given slot.key :=
    List.filter_congr fun slot hslot => congrArg (!·) (hdone slot hslot)
  rw [of?_fill, hfilter, absentViolations, List.filter_map, List.filterMap_map]
  simp only [habsent]
  rfl

/-- The key of a slot leads to a slot. -/
theorem Slot.find?_exists {α : Type} {slots : List (Slot α)} {slot : Slot α}
    (hslot : slot ∈ slots) : ∃ found, Slot.find? slots slot.key = some found :=
  Option.isSome_iff_exists.1 (Slot.declares_iff.2 (List.mem_map_of_mem hslot))

/-- The given settings are done. -/
theorem has_of_givenSettings {done : List (String × Value)}
    (h : givenSettings settings path given = .ok done) {slot : Slot ValueCheck}
    (hslot : slot ∈ settings) : Entries.has done slot.key = Entries.has given slot.key := by
  rw [Entries.has, Entries.has]
  cases hget : Entries.get? given slot.key with
  | none => rw [givenSettings_of_get?_eq_none h hget]
  | some v =>
    obtain ⟨found, hfound⟩ := Slot.find?_exists hslot
    obtain ⟨w, -, hw⟩ := givenSettings_of_get? h hget hfound
    rw [hw]
    rfl

/-- The given sections are done. -/
theorem has_of_givenSections {inherited : Entries Value} {progress : SectionProgress}
    (h : givenSections sections path inherited given = .ok progress) {slot : Slot LevelCheck}
    (hslot : slot ∈ sections) :
    Entries.has progress.done slot.key = Entries.has given slot.key := by
  rw [Entries.has, Entries.has]
  cases hget : Entries.get? given slot.key with
  | none => rw [givenSections_of_get?_eq_none h hget]
  | some v =>
    obtain ⟨found, hfound⟩ := Slot.find?_exists hslot
    obtain ⟨-, hdone⟩ := givenSections_invariant (I := fun _ => True) h trivial
      fun _ _ _ _ _ _ _ _ _ => trivial
    obtain ⟨_, es, -, -, hes⟩ := hdone slot.key v found hget hfound
    rw [hes]
    rfl

/-- Where no section hands its map down, the same is inherited after the sections as before. -/
theorem inherited_of_steady (hs : Steady sections) {inherited : Entries Value}
    {progress : SectionProgress}
    (h : givenSections sections path inherited given = .ok progress) :
    progress.inherited = inherited := by
  refine (givenSections_invariant (I := fun scope => scope = inherited) h rfl ?_).1
  rintro scope k v slot es - hslot rfl -
  exact hs.handDownSection_eq hslot scope es

/-- **A level stops at the first violation** in the order of precedence, where nothing is handed
down. -/
theorem of?_completeEntries (hsettings : handDown settings [] given = [])
    (hs : Steady sections) :
    Violation.of? (completeEntries settings sections [] path given) =
      (levelViolations (settings.map (Slot.map ValueCheck.objection))
        (sections.map (Slot.map LevelCheck.objection)) path given).head? := by
  -- the five lists are joined from the right, as the loops are run
  unfold levelViolations
  simp only [List.append_assoc]
  refine Violation.of?_bind of?_givenSettings fun done hdone => ?_
  refine Violation.of?_bind of?_rejectUndeclared fun _ _ => ?_
  rw [hsettings]
  refine Violation.of?_bind
    (of?_fill_absent (fun slot => has_of_givenSettings hdone) fun slot => rfl) fun filled _ => ?_
  refine Violation.of?_bind (of?_givenSections hs) fun progress hprogress => ?_
  have hinherited : progress.inherited = [] := inherited_of_steady hs hprogress
  rw [hinherited, ← List.append_nil (absentViolations _ _ _ _)]
  exact Violation.of?_bind (of?_fill_absent (fun slot => has_of_givenSections hprogress)
    fun slot => Violation.of?_map _ _) fun filledSections _ => rfl

end Level

namespace Schema

variable {schema : Schema}

/-- The violations of a map, by the settings and sections of the schema. -/
theorem violations_eq (schema : Schema) (path : Path) (v : Value) :
    schema.violations path v =
      match v.orEmptyMap.entries? with
      | some given =>
        levelViolations (schema.settings.map Setting.objection)
          (schema.sections.map Section.objection) path given
      | none => [⟨none, path, v⟩] := by
  obtain ⟨description, settings, sections⟩ := schema
  rw [violations, Section.objections_eq_map]

theorem objections_settings (schema : Schema) :
    schema.settingSlots.map (Slot.map ValueCheck.objection) =
      schema.settings.map Setting.objection := by
  rw [settingSlots, List.map_map]
  refine List.map_congr_left fun s _ => ?_
  cases s
  rfl

/-- **The first violation is reported.** -/
theorem of?_complete (hh : schema.HandsNothingDown) (path : Path) (v : Value) :
    Violation.of? (schema.complete [] path v) = (schema.violations path v).head? := by
  induction schema using Schema.induction generalizing path v with
  | step schema ih =>
    -- what a section is rejected for is the head of its own list, by induction
    have hsections : schema.sectionSlots.map (Slot.map LevelCheck.objection) =
        schema.sections.map Section.objection := by
      rw [sectionSlots, List.map_map]
      refine List.map_congr_left fun node hnode => ?_
      have hnode' : LevelCheck.objection node.schema.complete =
          fun path v => (node.schema.violations path v).head? :=
        funext fun path => funext fun v => ih node hnode (hh.section hnode) path v
      cases node
      exact congrArg (Slot.mk _ _) hnode'
    rw [violations_eq, complete_eq, completeLevel]
    cases v.orEmptyMap.entries? with
    | none => rfl
    | some given =>
      have hlevel := @of?_completeEntries schema.settingSlots schema.sectionSlots path given
        (hh.handedDown_eq [] given) (steady_sectionSlots (hh schema schema.self_mem_nested).2)
      rw [objections_settings, hsections] at hlevel
      exact hlevel

/-! ## The violations in terms of the declarations -/

theorem givenViolations_map {ι : Type} (xs : List ι) (f : ι → Slot Objection) (path : Path)
    (given : Entries Value) :
    givenViolations (xs.map f) path given =
      given.filterMap fun e => (xs.find? fun x => (f x).key == e.1).bind fun x =>
        (f x).run (path.entry e.1) e.2 := by
  refine congrArg (List.filterMap · given) (funext fun e => ?_)
  rw [Slot.find?, List.find?_map, Option.bind_map]
  rfl

theorem absentViolations_map {ι : Type} (xs : List ι) (f : ι → Slot Objection) (nothing : Value)
    (path : Path) (given : Entries Value) :
    absentViolations (xs.map f) nothing path given =
      (xs.filter fun x => !Entries.has given (f x).key).filterMap fun x =>
        (f x).run (path.entry (f x).key) nothing := by
  rw [absentViolations, List.filter_map, List.filterMap_map]
  rfl

theorem undeclaredViolations_eq (schema : Schema) (path : Path) (given : Entries Value) :
    undeclaredViolations (schema.settings.map Setting.objection)
        (schema.sections.map Section.objection) path given =
      (given.filter fun e => e.1 ∉ schema.keys).map fun e => ⟨none, path.entry e.1, e.2⟩ := by
  unfold undeclaredViolations
  congr 1
  refine List.filter_congr fun e _ => ?_
  rw [← Bool.not_or, decide_not, Bool.not_inj_iff, Bool.eq_iff_iff, Bool.or_eq_true,
    decide_eq_true_iff, Slot.declares_iff, Slot.declares_iff, List.map_map, List.map_map, keys,
    List.mem_append]
  simp only [Section.objection_eq, Function.comp_def]
  rfl

/-- **The first violation is reported.** Where nothing is handed down, a value is completed iff the
list of its violations is empty, and else is rejected for the head of the list. For a map, and for
nil, which is read as the empty map, the list has

1. the violations of the map's own keys that are settings, in the order of the map;
2. the map's own keys that are not declared, in the order of the map;
3. the violations of the settings that the map does not have, completed from nothing, in
   declaration order;
4. the violation of each of the map's own keys that are sections, in the order of the map;
5. the violation of each section that the map does not have, in declaration order. -/
theorem reports_first_violation (hh : schema.HandsNothingDown) (path : Path) (v : Value) :
    (match schema.violations path v with
      | [] => ∃ w, (Range.schema schema).complete path v = .ok w
      | violation :: _ => (Range.schema schema).complete path v = .error violation) ∧
    (v.isNil = true ∨ v.isMap = true → schema.violations path v =
      (v.entriesOrEmpty.filterMap fun e => (schema.setting? e.1).bind fun s =>
        Violation.of? (s.range.complete (path.entry e.1) e.2)) ++
      ((v.entriesOrEmpty.filter fun e => e.1 ∉ schema.keys).map fun e =>
        ⟨none, path.entry e.1, e.2⟩) ++
      ((schema.settings.filter fun s => !Entries.has v.entriesOrEmpty s.key).filterMap fun s =>
        Violation.of? (s.range.complete (path.entry s.key) .undefined)) ++
      (v.entriesOrEmpty.filterMap fun e => (schema.section? e.1).bind fun node =>
        (node.schema.violations (path.entry e.1) e.2).head?) ++
      ((schema.sections.filter fun node => !Entries.has v.entriesOrEmpty node.key).filterMap
        fun node => (node.schema.violations (path.entry node.key) .emptyMap).head?)) ∧
    (v.isNil = false → v.isMap = false → schema.violations path v = [⟨none, path, v⟩]) := by
  refine ⟨?_, fun hv => ?_, fun hnil hmap => ?_⟩
  · have hfirst := of?_complete hh path v
    rw [Range.complete]
    cases hcomplete : schema.complete [] path v with
    | ok out =>
      rw [hcomplete] at hfirst
      rw [List.head?_eq_none_iff.1 hfirst.symm]
      exact ⟨_, rfl⟩
    | error violation =>
      rw [hcomplete] at hfirst
      obtain ⟨rest, hrest⟩ := List.head?_eq_some_iff.1 hfirst.symm
      rw [hrest]
      rfl
  · rw [violations_eq, Value.entries?_orEmptyMap_iff.2 ⟨hv, rfl⟩]
    simp only [levelViolations, undeclaredViolations_eq, givenViolations_map,
      absentViolations_map, Section.objection_eq]
    rfl
  · have hself : v.orEmptyMap = v := by rw [Value.orEmptyMap, hnil, if_neg Bool.false_ne_true]
    have hentries : v.entries? = none :=
      Option.isNone_iff_eq_none.1 (Option.isSome_eq_false_iff.1 hmap)
    rw [violations_eq, hself, hentries]

/-- A sample schema of a berth with a crane and a pump. -/
def sampleBerth : Schema :=
  ⟨"berth", [⟨"depth", "depth of the water", Range.string (.text "low"), false⟩,
      ⟨"name", "name of the berth", .nonNil, false⟩],
    [⟨"pump", ⟨"pump", [⟨"rate", "how fast it pumps", .nonNil, false⟩], []⟩, false⟩,
      ⟨"crane", ⟨"crane", [⟨"load", "what it can lift", Range.string (.text "none"), false⟩], []⟩,
        false⟩]⟩

/-- A berth with a fault of every kind. Its crane has two. -/
def sampleBerthMap : Value :=
  .ofEntries [("7", .bool true),
    ("crane", .ofEntries [("colour", .text "red"), ("load", .bool true)]), ("depth", .bool true)]

/-- The berth has five violations, in this order, and is rejected for the first of them. -/
theorem reports_first_violation_sampleBerth :
    (sampleBerth.violations [] sampleBerthMap).map Violation.path =
        [["depth"], ["7"], ["name"], ["crane", "load"], ["pump", "rate"]].map Path.ofKeys ∧
      ∃ violation, (Range.schema sampleBerth).complete [] sampleBerthMap = .error violation ∧
        violation.path = [.key "depth"] := by
  have hfirst := (@reports_first_violation sampleBerth (by decide) [] sampleBerthMap).1
  exact ⟨rfl, _, hfirst, rfl⟩

end Schema

end LayeredConfig
