import LayeredConfig.Proofs.Completion.Places
import Mathlib.Data.List.Induction

/-!
# What is in scope where a section is completed

The given sections of a level are completed one after the other, and each may hand its completed map
down to those that come after it. So what a section inherits depends on where it stands.

- `Schema.sectionScope`: what a section of a level inherits: what the settings hand down, and what
  the given sections before it do. A section that is not given comes after all that are.
  `Schema.section_of_complete` says that every section comes to its outcome there.
- `Schema.scopeAt`: what is inherited where nested sections lead.
- `Schema.CompletedAlong`: the sections on a way are completed in their places. Then the way leads
  to a completed map (`CompletedAlong.complete_last`), and for every setting and section declared
  there, the whole map holds its outcome in that scope (`held?_setting_of_complete`,
  `held?_section_of_complete`). Else one of them is the first to be taken over
  (`exists_first_takenOver`).
-/

namespace LayeredConfig

namespace Schema

/-! ## One level -/

/-- What the section `key` of a level inherits: what the settings hand down, and what the given
sections before it do. -/
def sectionScope (schema : Schema) (inherited : Entries Value) (path : Path)
    (given : Entries Value) (key : String) : Except Violation (Entries Value) :=
  (givenSections schema.sectionSlots path (schema.handedDown inherited given)
    (given.before key)).map SectionProgress.inherited

section Level

variable {schema : Schema} {inherited given scope out : Entries Value} {path : Path} {v : Value}
  {filled : List (String × Value)} {progress : SectionProgress}

/-- **What holds of what is inherited before the sections, and is kept by handing one down, holds in
the scope of every section.** -/
theorem sectionScope_invariant {I : Entries Value → Prop} {key : String}
    (h : schema.sectionScope inherited path given key = .ok scope)
    (hI : I (schema.handedDown inherited given))
    (hstep : ∀ node ∈ schema.sections, ∀ scope x es, (node.key, x) ∈ given → I scope →
      node.schema.complete scope (path.entry node.key) x = .ok es →
        I (handDownSection node.slot scope es)) : I scope := by
  obtain ⟨early, hearly, rfl⟩ := map_eq_ok_iff.1 h
  refine (givenSections_invariant hearly hI ?_).1
  intro scope k x slot es he hslot hscope hes
  obtain ⟨node, hnode, rfl, rfl⟩ := exists_of_find?_sectionSlots hslot
  rw [Section.run_slot] at hes
  exact hstep node hnode scope x es (Entries.mem_of_mem_before he) hscope hes

/-- Every section of a completed level comes to its outcome in its scope. -/
theorem LevelDone.section_in_scope (hdone : schema.LevelDone inherited path given filled progress)
    (hp : schema.Proper) {node : Section} (hnode : node ∈ schema.sections) :
    ∃ scope w, schema.sectionScope inherited path given node.key = .ok scope ∧
      node.outcome scope given path = .ok w ∧ Entries.get? filled node.key = some w := by
  obtain ⟨w, hw, hget⟩ := hdone.nested node hnode
  cases hx : Entries.get? given node.key with
  | none =>
    -- the section comes after all that are given
    rw [slotValue_eq_outcome_of_absent hdone.walked hx] at hw
    refine ⟨progress.inherited, w, ?_, hw, hget⟩
    unfold sectionScope
    rw [Entries.before_of_get?_eq_none hx, hdone.walked]
    rfl
  | some x =>
    obtain ⟨early, es, hearly, hes, hat⟩ :=
      givenSections_of_get? hdone.walked hx (hp.distinctKeys.find?_sectionSlots hnode)
    rw [slotValue, Section.key_slot, hat] at hw
    cases hw
    rw [Section.run_slot] at hes
    refine ⟨early.inherited, .ofEntries es, ?_, ?_, hget⟩
    · unfold sectionScope
      rw [hearly]
      rfl
    · rw [Section.outcome_of_given hx]
      exact map_eq_ok_iff.2 ⟨es, hes, rfl⟩

/-- **The sections of a completed map:** each comes to its outcome in its scope. -/
theorem section_of_complete (hp : schema.Proper) (hv : v.WellFormed)
    (h : schema.complete inherited path v = .ok out) {node : Section}
    (hnode : node ∈ schema.sections) :
    ∃ scope w, schema.sectionScope inherited path v.entriesOrEmpty node.key = .ok scope ∧
      node.outcome scope v.entriesOrEmpty path = .ok w ∧
      Entries.get? out node.key = some w := by
  obtain ⟨-, filled, progress, rfl, hdone⟩ := levelDone_of_complete hp hv.nodup h
  obtain ⟨scope, w, hscope, hw, hget⟩ := hdone.section_in_scope hp hnode
  refine ⟨scope, w, hscope, hw, ?_⟩
  rw [get?_rebuild_of_mem_keys hp hdone (mem_keys_of_section hnode), hget]

/-! ### Looking up in a scope -/

/-- An inheriting section of the schema has the key. -/
def InheritsSection (schema : Schema) (key : String) : Prop :=
  ∃ node ∈ schema.sections, node.key = key ∧ node.inherit = true

instance (schema : Schema) (key : String) : Decidable (schema.InheritsSection key) :=
  inferInstanceAs (Decidable (∃ node ∈ schema.sections, node.key = key ∧ node.inherit = true))

theorem handsDown_sectionSlots (hd : schema.DistinctKeys) {key : String} :
    Slot.handsDown schema.sectionSlots key = true ↔ schema.InheritsSection key := by
  rw [sectionSlots, Slot.handsDown_map_iff hd.sectionSlots]
  simp only [Section.key_slot, Section.inherit_slot, InheritsSection]

/-- A section that is given before another one and hands its map down is in scope there, as the
completed map holds it. -/
theorem get?_sectionScope_of_before (hp : schema.Proper) (hv : v.WellFormed)
    (h : schema.complete inherited path v = .ok out) {head key : String}
    (hscope : schema.sectionScope inherited path v.entriesOrEmpty head = .ok scope)
    (hdown : schema.InheritsSection key)
    (hkey : key ∈ Entries.keys (v.entriesOrEmpty.before head)) :
    ∃ w, Entries.get? scope key = some w ∧ Entries.get? out key = some w := by
  obtain ⟨-, filled, progress, rfl, hdone⟩ := levelDone_of_complete hp hv.nodup h
  obtain ⟨node, hnode, rfl, -⟩ := id hdown
  have hdeclared : node.key ∈ schema.keys := mem_keys_of_section hnode
  obtain ⟨early, hearly, rfl⟩ := map_eq_ok_iff.1 hscope
  obtain ⟨early', late, hearly', hprogress⟩ := givenSections_before hdone.walked head
  cases hearly.symm.trans hearly'
  -- the section was completed before the walk came to `head`, and that is where it stays
  obtain ⟨x, hx⟩ := Option.isSome_iff_exists.1 (Entries.has_iff.2 hkey)
  obtain ⟨-, es, -, -, hget⟩ :=
    givenSections_of_get? hearly hx (hp.distinctKeys.find?_sectionSlots hnode)
  have hlast : Entries.get? progress.done node.key = some (.ofEntries es) := by
    rw [hprogress, Entries.get?_append, hget]
    rfl
  refine ⟨.ofEntries es, ?_, ?_⟩
  · rw [get?_inherited_of_givenSections hearly
      (hp.ne_reservedKey schema.self_mem_nested hdeclared) (Entries.nodup_before hv.nodup head),
      if_pos ((handsDown_sectionSlots hp.distinctKeys).2 hdown), hget]
    rfl
  · obtain ⟨w, hw, hfilled⟩ := hdone.nested node hnode
    unfold slotValue at hw
    rw [Section.key_slot, hlast] at hw
    cases hw
    rw [get?_rebuild_of_mem_keys hp hdone hdeclared, hfilled]

/-- Under every other key, a section inherits what the settings of its level leave. -/
theorem get?_sectionScope_of_not_before (hp : schema.Proper) (hn : (Entries.keys given).Nodup)
    {head key : String} (hkey : key ≠ reservedKey)
    (hscope : schema.sectionScope inherited path given head = .ok scope)
    (hother : ¬(schema.InheritsSection key ∧ key ∈ Entries.keys (given.before head))) :
    Entries.get? scope key = Entries.get? (schema.handedDown inherited given) key := by
  obtain ⟨early, hearly, rfl⟩ := map_eq_ok_iff.1 hscope
  rw [get?_inherited_of_givenSections hearly hkey (Entries.nodup_before hn head)]
  split
  · rename_i hdown
    have hnone : Entries.get? early.done key = none := by
      refine givenSections_of_get?_eq_none hearly (Entries.get?_eq_none_iff.2 fun hmem => ?_)
      exact hother ⟨(handsDown_sectionSlots hp.distinctKeys).1 hdown, hmem⟩
    rw [hnone, Option.none_or]
  · rfl

/-- The scope of a section is what the walk has come to. -/
theorem walkScope_of_sectionScope (hp : schema.Proper) (hv : v.WellFormed)
    (h : schema.complete inherited path v = .ok out) {head : String}
    (hscope : schema.sectionScope inherited path v.entriesOrEmpty head = .ok scope) :
    WalkScope schema.sectionSlots (schema.handedDown inherited v.entriesOrEmpty) v.entriesOrEmpty
      out head scope := by
  intro key hkey
  by_cases hbefore : Slot.handsDown schema.sectionSlots key = true ∧
      key ∈ Entries.keys (v.entriesOrEmpty.before head)
  · obtain ⟨w, hscope, hout⟩ := get?_sectionScope_of_before hp hv h hscope
      ((handsDown_sectionSlots hp.distinctKeys).1 hbefore.1) hbefore.2
    rw [if_pos hbefore, hscope, hout]
  · rw [if_neg hbefore]
    rw [handsDown_sectionSlots hp.distinctKeys] at hbefore
    exact get?_sectionScope_of_not_before hp hv.nodup hkey hscope hbefore

end Level

/-! ## At every depth -/

/-- What is inherited where nested sections lead, if `inherited` is inherited at the top of the raw
map `v`. -/
def scopeAt : Schema → (inherited : Entries Value) → Path → Value → List String →
    Except Violation (Entries Value)
  | _, inherited, _, _, [] => .ok inherited
  | schema, inherited, path, v, key :: rest =>
    match schema.section? key with
    | some node => do
      let scope ← schema.sectionScope inherited path v.entriesOrEmpty key
      node.schema.scopeAt scope (path.entry key) (Entries.read v.entriesOrEmpty key) rest
    | none => .ok inherited

/-- A section that is not given in its place takes what is inherited there. -/
def TakenOver (schema : Schema) (inherited : Entries Value) (path : Path) (v : Value)
    (keys : List String) (key : String) : Prop :=
  v.held? keys key = none ∧ ∃ scope w,
    schema.scopeAt inherited path v (keys ++ [key]) = .ok scope ∧ Entries.get? scope key = some w

/-- None of the sections on the way is taken over: each is completed in its place. -/
def CompletedAlong (schema : Schema) (inherited : Entries Value) (path : Path) (v : Value)
    (keys : List String) : Prop :=
  ∀ before key after, keys = before ++ key :: after →
    ¬schema.TakenOver inherited path v before key

section Depth

variable {schema : Schema} {inherited scope out : Entries Value} {path : Path} {v : Value}
  {head : String} {rest keys : List String} {node : Section}

theorem scopeAt_cons (hnode : schema.section? head = some node)
    (hscope : schema.sectionScope inherited path v.entriesOrEmpty head = .ok scope) :
    schema.scopeAt inherited path v (head :: rest) =
      node.schema.scopeAt scope (path.entry head) (Entries.read v.entriesOrEmpty head) rest := by
  rw [scopeAt, hnode]
  show (schema.sectionScope inherited path v.entriesOrEmpty head >>= _) = _
  rw [hscope]
  rfl

theorem CompletedAlong.get?_scope (h : schema.CompletedAlong inherited path v (head :: rest))
    (hnode : schema.section? head = some node)
    (hscope : schema.sectionScope inherited path v.entriesOrEmpty head = .ok scope)
    (hgiven : Entries.get? v.entriesOrEmpty head = none) : Entries.get? scope head = none := by
  refine Option.eq_none_iff_forall_ne_some.2 fun w hw => ?_
  exact h [] head rest rfl ⟨hgiven, scope, w, scopeAt_cons hnode hscope, hw⟩

theorem CompletedAlong.tail (h : schema.CompletedAlong inherited path v (head :: rest))
    (hnode : schema.section? head = some node)
    (hscope : schema.sectionScope inherited path v.entriesOrEmpty head = .ok scope) :
    node.schema.CompletedAlong scope (path.entry head) (Entries.read v.entriesOrEmpty head)
      rest := by
  rintro before key after rfl ⟨hheld, hinner⟩
  refine h (head :: before) key after rfl ⟨hheld, ?_⟩
  rw [List.cons_append, scopeAt_cons hnode hscope]
  exact hinner

/-- The first section on a way through completed sections is completed in its scope. -/
theorem CompletedAlong.complete_head (h : schema.CompletedAlong inherited path v (head :: rest))
    (hp : schema.Proper) (hv : v.WellFormed) (hout : schema.complete inherited path v = .ok out)
    (hnode : schema.section? head = some node) :
    ∃ scope es, schema.sectionScope inherited path v.entriesOrEmpty head = .ok scope ∧
      node.schema.complete scope (path.entry head) (Entries.read v.entriesOrEmpty head) =
        .ok es ∧
      Entries.get? out head = some (.ofEntries es) := by
  obtain ⟨hmem, rfl⟩ := mem_of_section? hnode
  obtain ⟨scope, w, hscope, hw, hget⟩ := section_of_complete hp hv hout hmem
  refine ⟨scope, ?_⟩
  cases hx : Entries.get? v.entriesOrEmpty node.key with
  | some x =>
    rw [Section.outcome_of_given hx] at hw
    obtain ⟨es, hes, rfl⟩ := map_eq_ok_iff.1 hw
    rw [Entries.read_of_get? hx]
    exact ⟨es, hscope, hes, hget⟩
  | none =>
    rw [Section.outcome_of_not_inherited (h.get?_scope hnode hscope hx)] at hw
    obtain ⟨es, hes, rfl⟩ := map_eq_ok_iff.1 hw
    exact ⟨es, hscope, hes, hget⟩

/-- What is inherited one section further. -/
theorem scopeAt_concat {inner : Schema} (hinner : schema.under? keys = some inner)
    (hnode : inner.section? head = some node)
    (hscope : schema.scopeAt inherited path v keys = .ok scope) :
    schema.scopeAt inherited path v (keys ++ [head]) =
      inner.sectionScope scope (path ++ Path.ofKeys keys) (v.within keys) head := by
  induction keys generalizing schema inherited path v with
  | nil =>
    cases hinner
    cases hscope
    rw [List.nil_append, scopeAt, hnode, Path.ofKeys, List.map_nil, List.append_nil]
    show (inner.sectionScope _ path v.entriesOrEmpty head >>= pure) = _
    rw [bind_pure]
    rfl
  | cons first rest ih =>
    obtain ⟨outer, houter, hrest⟩ := under?_cons_eq_some_iff.1 hinner
    rw [scopeAt, houter] at hscope
    obtain ⟨scope', hscope', hscope⟩ := bind_eq_ok_iff.1 hscope
    rw [List.cons_append, scopeAt_cons houter hscope', ih hrest hscope, Path.entry_append,
      Value.within_cons]

/-- **A way through completed sections leads to a completed map,** which the whole map holds. -/
theorem CompletedAlong.complete_last (h : schema.CompletedAlong inherited path v keys)
    (hp : schema.Proper) (hv : v.WellFormed) (hout : schema.complete inherited path v = .ok out)
    {inner : Schema} (hinner : schema.under? keys = some inner) :
    ∃ scope x es, schema.scopeAt inherited path v keys = .ok scope ∧ x.WellFormed ∧
      x.entriesOrEmpty = v.within keys ∧
      inner.complete scope (path ++ Path.ofKeys keys) x = .ok es ∧
      ∀ key, (Value.ofEntries out).held? keys key = Entries.get? es key := by
  induction keys generalizing schema inherited path v out with
  | nil =>
    cases hinner
    refine ⟨inherited, v, out, rfl, hv, rfl, ?_, fun key => rfl⟩
    rw [Path.ofKeys, List.map_nil, List.append_nil]
    exact hout
  | cons head rest ih =>
    obtain ⟨outer, houter, hrest⟩ := under?_cons_eq_some_iff.1 hinner
    obtain ⟨scope, es, hscope, hes, hget⟩ := h.complete_head hp hv hout houter
    obtain ⟨inherited', x, es', hscopeAt, hx, hwithin, hes', hheld⟩ :=
      ih (h.tail houter hscope) (hp.section (mem_of_section? houter).1) (hv.read head) hes hrest
    rw [Path.entry_append] at hes'
    refine ⟨inherited', x, es', ?_, hx, hwithin, hes', fun key => ?_⟩
    · rw [scopeAt_cons houter hscope]
      exact hscopeAt
    · rw [← Value.entriesOrEmpty_ofEntries out] at hget
      rw [Value.held?_cons_of_get? hget, hheld]

/-- **A completed map holds, for every declared setting, its outcome in the scope there,** if the
sections on the way are completed in their places. -/
theorem held?_setting_of_complete (hp : schema.Proper) (hv : v.WellFormed)
    (h : schema.complete inherited path v = .ok out) {inner : Schema}
    (hinner : schema.under? keys = some inner) {s : Setting} (hs : s ∈ inner.settings)
    (halong : schema.CompletedAlong inherited path v keys) :
    ∃ scope w, schema.scopeAt inherited path v keys = .ok scope ∧
      s.outcome scope (v.within keys) (path ++ Path.ofKeys keys) = .ok w ∧
      (Value.ofEntries out).held? keys s.key = some w := by
  obtain ⟨scope, x, es, hscope, hx, hwithin, hes, hheld⟩ := halong.complete_last hp hv h hinner
  obtain ⟨w, hw, hget⟩ := setting_of_complete (hp.under? hinner) hx.nodup hes hs
  rw [hwithin] at hw
  exact ⟨scope, w, hscope, hw, (hheld s.key).trans hget⟩

/-- **A completed map holds, for every declared section, its outcome in the scope there,** if the
sections on the way are completed in their places. -/
theorem held?_section_of_complete (hp : schema.Proper) (hv : v.WellFormed)
    (h : schema.complete inherited path v = .ok out) {inner : Schema}
    (hinner : schema.under? keys = some inner) (hnode : node ∈ inner.sections)
    (halong : schema.CompletedAlong inherited path v keys) :
    ∃ scope w, schema.scopeAt inherited path v (keys ++ [node.key]) = .ok scope ∧
      node.outcome scope (v.within keys) (path ++ Path.ofKeys keys) = .ok w ∧
      (Value.ofEntries out).held? keys node.key = some w := by
  have hinnerProper : inner.Proper := hp.under? hinner
  obtain ⟨outerScope, x, es, houterScope, hx, hwithin, hes, hheld⟩ :=
    halong.complete_last hp hv h hinner
  obtain ⟨scope, w, hscope, hw, hget⟩ := section_of_complete hinnerProper hx hes hnode
  rw [hwithin] at hscope hw
  refine ⟨scope, w, ?_, hw, (hheld node.key).trans hget⟩
  rw [scopeAt_concat hinner (hinnerProper.distinctKeys.section?_of_mem hnode) houterScope]
  exact hscope

/-! ### The first section that is taken over -/

theorem completedAlong_nil : schema.CompletedAlong inherited path v [] := by
  intro before key after heq
  simp at heq

/-- The sections on the way to a completed place are completed along, too. -/
theorem CompletedAlong.of_append {after : List String}
    (h : schema.CompletedAlong inherited path v (keys ++ after)) :
    schema.CompletedAlong inherited path v keys := by
  rintro before key rest rfl
  exact h before key (rest ++ after) (by rw [List.append_assoc, List.cons_append])

/-- On a way through sections that are not all completed in their places, there is a first one that
is taken over. -/
theorem exists_first_takenOver (h : ¬schema.CompletedAlong inherited path v keys) :
    ∃ before key after, keys = before ++ key :: after ∧
      schema.CompletedAlong inherited path v before ∧
      schema.TakenOver inherited path v before key := by
  induction keys using List.reverseRecOn with
  | nil => exact absurd completedAlong_nil h
  | append_singleton init last ih =>
    by_cases hinit : schema.CompletedAlong inherited path v init
    · refine ⟨init, last, [], rfl, hinit, ?_⟩
      by_contra hlast
      refine h fun before key after heq => ?_
      -- the section is the last one, or one of those before it
      rcases List.eq_nil_or_concat after with rfl | ⟨after, x, rfl⟩
      · obtain ⟨rfl, hkey⟩ := List.append_inj' heq rfl
        cases hkey
        exact hlast
      · rw [List.concat_eq_append, ← List.cons_append, ← List.append_assoc] at heq
        exact hinit before key after (List.append_inj' heq rfl).1
    · obtain ⟨before, key, after, rfl, hbefore, htaken⟩ := ih hinit
      exact ⟨before, key, after ++ [last], by rw [List.append_assoc, List.cons_append], hbefore,
        htaken⟩

end Depth

end Schema

end LayeredConfig
