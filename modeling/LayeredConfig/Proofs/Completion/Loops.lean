import LayeredConfig.Proofs.Data.Outcome
import LayeredConfig.Proofs.Data.WellFormed
import LayeredConfig.Proofs.Schema.Tree

/-!
# The loops of a level

`completeEntries` runs five loops over the given entries and over the slots. Here each of them is
described once, key by key. What a completed level tells (`LayeredConfig.Proofs.Completion.Level`)
is put together from these descriptions, and the loops are not opened again.

- `handDown` is seen by looking up (`get?_handDown`): a given value of an inheriting setting counts
  before what was inherited.
- `givenSettings`, `rejectUndeclared`, `fill` and `givenSections` succeed iff each of their steps
  does, and then hold its result under its key.
- `givenSections_invariant`: whatever holds of what is inherited before the sections, and is kept
  by handing a completed section down, holds wherever a section is completed.
- `givenSections_of_get?`: a given section is completed in what is inherited after the sections
  before it, and `get?_inherited_of_givenSections` looks that up.
- `WalkScope`: the same scope said of the completed level, without a run; `HandsOn` is what one
  entry adds to it. Where every given section can be completed in such a scope, `givenSections`
  succeeds (`givenSections_exists_of_completed`).
-/

namespace LayeredConfig

/-! ## Slots by key -/

namespace Slot

variable {α : Type}

theorem find?_of_mem {slots : List (Slot α)} (hn : (slots.map Slot.key).Nodup) {slot : Slot α}
    (h : slot ∈ slots) : find? slots slot.key = some slot := find?_key_of_mem hn h

theorem handsDown_of_mem {slots : List (Slot α)} (hn : (slots.map Slot.key).Nodup)
    {slot : Slot α} (h : slot ∈ slots) : handsDown slots slot.key = slot.inherit := by
  rw [handsDown, find?_of_mem hn h]

/-- A key is handed down iff an inheriting declaration has it. -/
theorem handsDown_map_iff {ι : Type} {xs : List ι} {f : ι → Slot α}
    (hn : ((xs.map f).map Slot.key).Nodup) {key : String} :
    handsDown (xs.map f) key = true ↔ ∃ x ∈ xs, (f x).key = key ∧ (f x).inherit = true := by
  constructor
  · intro h
    unfold handsDown at h
    split at h
    · rename_i slot hfind
      obtain ⟨x, hx, rfl⟩ := List.mem_map.1 (mem_of_find? hfind)
      exact ⟨x, hx, key_of_find? hfind, h⟩
    · cases h
  · rintro ⟨x, hx, rfl, hinherit⟩
    rw [handsDown_of_mem hn (List.mem_map_of_mem hx), hinherit]

end Slot

variable {settings : List (Slot ValueCheck)} {sections : List (Slot LevelCheck)}
  {inherited given : Entries Value} {path : Path}

/-! ## The given settings -/

theorem givenSettings_of_get?_eq_none {done : List (String × Value)}
    (h : givenSettings settings path given = .ok done) {key : String}
    (hkey : Entries.get? given key = none) : Entries.get? done key = none := by
  induction given generalizing done with
  | nil =>
    cases h
    rfl
  | cons e rest ih =>
    obtain ⟨k, v⟩ := e
    rw [Entries.get?_cons] at hkey
    split at hkey
    · cases hkey
    · rename_i hne
      simp only [givenSettings] at h
      split at h
      · exact ih h hkey
      · obtain ⟨w, -, h⟩ := bind_eq_ok_iff.1 h
        obtain ⟨ws, hws, h⟩ := bind_eq_ok_iff.1 h
        cases h
        rw [Entries.get?_cons, if_neg hne]
        exact ih hws hkey

/-- A given setting is completed by its slot. -/
theorem givenSettings_of_get? {done : List (String × Value)}
    (h : givenSettings settings path given = .ok done) {key : String} {v : Value}
    (hkey : Entries.get? given key = some v) {slot : Slot ValueCheck}
    (hslot : Slot.find? settings key = some slot) :
    ∃ w, slot.run (path.entry key) v = .ok w ∧ Entries.get? done key = some w := by
  induction given generalizing done with
  | nil => cases hkey
  | cons e rest ih =>
    obtain ⟨k, v'⟩ := e
    rw [Entries.get?_cons] at hkey
    simp only [givenSettings] at h
    by_cases hk : k = key
    · subst hk
      rw [if_pos rfl] at hkey
      cases hkey
      rw [hslot] at h
      obtain ⟨w, hw, h⟩ := bind_eq_ok_iff.1 h
      obtain ⟨ws, -, h⟩ := bind_eq_ok_iff.1 h
      cases h
      exact ⟨w, hw, by rw [Entries.get?_cons, if_pos rfl]⟩
    · rw [if_neg hk] at hkey
      split at h
      · exact ih h hkey
      · obtain ⟨w', -, h⟩ := bind_eq_ok_iff.1 h
        obtain ⟨ws, hws, h⟩ := bind_eq_ok_iff.1 h
        cases h
        rw [Entries.get?_cons, if_neg hk]
        exact ih hws hkey

theorem givenSettings_exists
    (h : ∀ e ∈ given, ∀ slot, Slot.find? settings e.1 = some slot →
      ∃ w, slot.run (path.entry e.1) e.2 = .ok w) :
    ∃ done, givenSettings settings path given = .ok done := by
  induction given with
  | nil => exact ⟨[], rfl⟩
  | cons e rest ih =>
    obtain ⟨k, v⟩ := e
    obtain ⟨ws, hws⟩ := ih fun e he => h e (List.mem_cons_of_mem _ he)
    simp only [givenSettings]
    split
    · exact ⟨ws, hws⟩
    · rename_i slot hslot
      obtain ⟨w, hw⟩ := h (k, v) List.mem_cons_self slot hslot
      exact ⟨(k, w) :: ws, bind_eq_ok_iff.2 ⟨w, hw, bind_eq_ok_iff.2 ⟨ws, hws, rfl⟩⟩⟩

/-! ## Undeclared keys -/

theorem rejectUndeclared_eq_ok_iff :
    rejectUndeclared settings sections path given = .ok () ↔
      ∀ key ∈ Entries.keys given,
        Slot.declares settings key = true ∨ Slot.declares sections key = true := by
  have hfind : undeclared? settings sections given = none ↔
      ∀ key ∈ Entries.keys given,
        Slot.declares settings key = true ∨ Slot.declares sections key = true := by
    simp only [undeclared?, List.find?_eq_none, Entries.keys, List.forall_mem_map]
    refine forall₂_congr fun e _ => ?_
    cases Slot.declares settings e.1 <;> simp
  rw [← hfind]
  unfold rejectUndeclared
  cases undeclared? settings sections given <;> simp

/-! ## Handing settings down -/

/-- What is inherited below the settings of a level. -/
theorem get?_handDown {key : String} (hkey : key ≠ reservedKey)
    (hn : (Entries.keys given).Nodup) :
    Entries.get? (handDown settings inherited given) key =
      if Slot.handsDown settings key then (Entries.get? given key).or (Entries.get? inherited key)
      else Entries.get? inherited key := by
  induction given generalizing inherited with
  | nil => simp [handDown]
  | cons e rest ih =>
    obtain ⟨k, v⟩ := e
    obtain ⟨hk, hn⟩ := List.nodup_cons.1 hn
    rw [handDown, ih hn, Entries.get?_cons]
    by_cases heq : k = key
    · -- keys are distinct, so no later entry replaces what is handed down here
      subst heq
      have hrest : Entries.get? rest k = none := Entries.get?_eq_none_iff.2 hk
      cases hdown : Slot.handsDown settings k with
      | true => simp [hrest, Entries.get?_assign hkey]
      | false => simp
    · have hsame : Entries.get? (if Slot.handsDown settings k = true
          then Entries.assign inherited k v else inherited) key = Entries.get? inherited key := by
        split
        · rw [Entries.get?_assign hkey, if_neg heq]
        · rfl
      rw [hsame, if_neg heq]

/-- What is not given at a level is inherited below it as it was inherited there. -/
theorem get?_handDown_of_get?_eq_none {key : String} (hkey : key ≠ reservedKey)
    (hn : (Entries.keys given).Nodup) (h : Entries.get? given key = none) :
    Entries.get? (handDown settings inherited given) key = Entries.get? inherited key := by
  rw [get?_handDown hkey hn, h]
  split <;> rfl

/-! ## Filling the slots -/

section Filling

variable {α : Type} {slots : List (Slot α)} {done filled : List (String × Value)}
  {absent : Slot α → Except Violation Value}

theorem keys_fill (h : fill done inherited absent slots = .ok filled) :
    Entries.keys filled = slots.map Slot.key := by
  induction slots generalizing filled with
  | nil =>
    cases h
    rfl
  | cons slot rest ih =>
    obtain ⟨w, -, h⟩ := bind_eq_ok_iff.1 h
    obtain ⟨ws, hws, h⟩ := bind_eq_ok_iff.1 h
    cases h
    simp [ih hws]

/-- Every slot is filled with its value. -/
theorem fill_of_mem (hn : (slots.map Slot.key).Nodup)
    (h : fill done inherited absent slots = .ok filled) {slot : Slot α} (hslot : slot ∈ slots) :
    ∃ w, slotValue done inherited absent slot = .ok w ∧
      Entries.get? filled slot.key = some w := by
  induction slots generalizing filled with
  | nil => cases hslot
  | cons first rest ih =>
    obtain ⟨hfirst, hn⟩ := List.nodup_cons.1 hn
    obtain ⟨w, hw, h⟩ := bind_eq_ok_iff.1 h
    obtain ⟨ws, hws, h⟩ := bind_eq_ok_iff.1 h
    cases h
    rcases List.mem_cons.1 hslot with rfl | hslot
    · exact ⟨w, hw, by rw [Entries.get?_cons, if_pos rfl]⟩
    · have hne : first.key ≠ slot.key := by
        intro heq
        exact hfirst (heq ▸ List.mem_map_of_mem hslot)
      rw [Entries.get?_cons, if_neg hne]
      exact ih hn hws hslot

theorem fill_exists (h : ∀ slot ∈ slots, ∃ w, slotValue done inherited absent slot = .ok w) :
    ∃ filled, fill done inherited absent slots = .ok filled := by
  induction slots with
  | nil => exact ⟨[], rfl⟩
  | cons slot rest ih =>
    obtain ⟨w, hw⟩ := h slot List.mem_cons_self
    obtain ⟨ws, hws⟩ := ih fun slot hslot => h slot (List.mem_cons_of_mem _ hslot)
    exact ⟨(slot.key, w) :: ws, bind_eq_ok_iff.2 ⟨w, hw, bind_eq_ok_iff.2 ⟨ws, hws, rfl⟩⟩⟩

end Filling

/-! ## The given sections -/

theorem givenSections_of_get?_eq_none {progress : SectionProgress}
    (h : givenSections sections path inherited given = .ok progress) {key : String}
    (hkey : Entries.get? given key = none) : Entries.get? progress.done key = none := by
  induction given generalizing inherited progress with
  | nil =>
    cases h
    rfl
  | cons e rest ih =>
    obtain ⟨k, v⟩ := e
    rw [Entries.get?_cons] at hkey
    split at hkey
    · cases hkey
    · rename_i hne
      simp only [givenSections] at h
      split at h
      · exact ih h hkey
      · obtain ⟨es, -, h⟩ := bind_eq_ok_iff.1 h
        obtain ⟨later, hlater, h⟩ := bind_eq_ok_iff.1 h
        cases h
        rw [Entries.get?_cons, if_neg hne]
        exact ih hlater hkey

/-- **Invariants of what is inherited.** What holds before the sections, and is kept whenever the
map of a section completed under it is handed down, holds in the end and wherever a given section
is completed. -/
theorem givenSections_invariant {I : Entries Value → Prop} {progress : SectionProgress}
    (h : givenSections sections path inherited given = .ok progress) (hI : I inherited)
    (hstep : ∀ scope k v slot es, (k, v) ∈ given → Slot.find? sections k = some slot →
      I scope → slot.run scope (path.entry k) v = .ok es → I (handDownSection slot scope es)) :
    I progress.inherited ∧
      ∀ k v slot, Entries.get? given k = some v → Slot.find? sections k = some slot →
        ∃ scope es, I scope ∧ slot.run scope (path.entry k) v = .ok es ∧
          Entries.get? progress.done k = some (.ofEntries es) := by
  induction given generalizing inherited progress with
  | nil =>
    cases h
    exact ⟨hI, fun k v slot hk => nomatch hk⟩
  | cons e rest ih =>
    obtain ⟨k, v⟩ := e
    have hrest : ∀ scope k' v' slot es, (k', v') ∈ rest →
        Slot.find? sections k' = some slot → I scope →
        slot.run scope (path.entry k') v' = .ok es → I (handDownSection slot scope es) :=
      fun scope k' v' slot es he => hstep scope k' v' slot es (List.mem_cons_of_mem _ he)
    simp only [givenSections] at h
    split at h
    · -- the first entry belongs to no section
      rename_i hnone
      obtain ⟨hlast, hdone⟩ := ih h hI hrest
      refine ⟨hlast, fun k' v' slot hk' hslot => ?_⟩
      have hne : k ≠ k' := by
        rintro rfl
        rw [hnone] at hslot
        cases hslot
      rw [Entries.get?_cons, if_neg hne] at hk'
      exact hdone k' v' slot hk' hslot
    · -- the section is completed under the invariant, which its handed-down map keeps
      rename_i slot hslot
      obtain ⟨es, hes, h⟩ := bind_eq_ok_iff.1 h
      obtain ⟨later, hlater, h⟩ := bind_eq_ok_iff.1 h
      cases h
      have hI' : I (handDownSection slot inherited es) :=
        hstep inherited k v slot es List.mem_cons_self hslot hI hes
      obtain ⟨hlast, hdone⟩ := ih hlater hI' hrest
      refine ⟨hlast, fun k' v' slot' hk' hslot' => ?_⟩
      rw [Entries.get?_cons] at hk' ⊢
      by_cases heq : k = k'
      · subst heq
        rw [if_pos rfl] at hk' ⊢
        cases hk'
        cases hslot.symm.trans hslot'
        exact ⟨inherited, es, hI, hes, rfl⟩
      · rw [if_neg heq] at hk' ⊢
        exact hdone k' v' slot' hk' hslot'

/-- A section that hands its map down is seen under its own key, and changes nothing else. -/
theorem get?_handDownSection (slot : Slot LevelCheck) {inherited completed : Entries Value}
    {key : String} (hkey : key ≠ reservedKey) :
    Entries.get? (handDownSection slot inherited completed) key =
      if slot.inherit = true ∧ slot.key = key then some (.ofEntries completed)
      else Entries.get? inherited key := by
  unfold handDownSection
  cases slot.inherit with
  | false => simp
  | true => simp [Entries.get?_assign hkey]

/-- A key that is not given is inherited after the sections as before them. -/
theorem get?_inherited_of_get?_eq_none {progress : SectionProgress}
    (h : givenSections sections path inherited given = .ok progress) {key : String}
    (hkey : key ≠ reservedKey) (hgiven : Entries.get? given key = none) :
    Entries.get? progress.inherited key = Entries.get? inherited key := by
  refine (givenSections_invariant
    (I := fun scope => Entries.get? scope key = Entries.get? inherited key) h rfl ?_).1
  intro scope k v slot es he hslot hscope _
  have hne : slot.key ≠ key := by
    rw [Slot.key_of_find? hslot]
    rintro rfl
    exact Entries.get?_eq_none_iff.1 hgiven (List.mem_map_of_mem he)
  rw [get?_handDownSection slot hkey, if_neg fun hdown => hne hdown.2, hscope]

/-- Going through sections in two parts: the second goes on where the first one ends. -/
theorem givenSections_append {first second : Entries Value} {progress : SectionProgress}
    (h : givenSections sections path inherited (first ++ second) = .ok progress) :
    ∃ early late, givenSections sections path inherited first = .ok early ∧
      givenSections sections path early.inherited second = .ok late ∧
      progress = ⟨early.done ++ late.done, late.inherited⟩ := by
  induction first generalizing inherited progress with
  | nil => exact ⟨⟨[], inherited⟩, progress, rfl, h, rfl⟩
  | cons e rest ih =>
    obtain ⟨k, v⟩ := e
    simp only [List.cons_append, givenSections] at h ⊢
    split at h
    · exact ih h
    · obtain ⟨es, hes, h⟩ := bind_eq_ok_iff.1 h
      obtain ⟨later, hlater, h⟩ := bind_eq_ok_iff.1 h
      cases h
      obtain ⟨early, late, hearly, hlate, rfl⟩ := ih hlater
      refine ⟨⟨(k, .ofEntries es) :: early.done, early.inherited⟩, late, ?_, hlate, rfl⟩
      exact bind_eq_ok_iff.2 ⟨es, hes, bind_eq_ok_iff.2 ⟨early, hearly, rfl⟩⟩

/-- The walk passes through what is known when it comes to a key. -/
theorem givenSections_before {progress : SectionProgress}
    (h : givenSections sections path inherited given = .ok progress) (key : String) :
    ∃ early late, givenSections sections path inherited (given.before key) = .ok early ∧
      progress.done = early.done ++ late := by
  obtain ⟨rest, hgiven⟩ := given.exists_eq_before_append key
  rw [hgiven] at h
  obtain ⟨early, late, hearly, -, rfl⟩ := givenSections_append h
  exact ⟨early, late.done, hearly, rfl⟩

/-- A given section is completed in what is inherited after the sections before it. -/
theorem givenSections_of_get? {progress : SectionProgress} {key : String} {v : Value}
    {slot : Slot LevelCheck}
    (h : givenSections sections path inherited given = .ok progress)
    (hkey : Entries.get? given key = some v) (hslot : Slot.find? sections key = some slot) :
    ∃ early es, givenSections sections path inherited (given.before key) = .ok early ∧
      slot.run early.inherited (path.entry key) v = .ok es ∧
      Entries.get? progress.done key = some (.ofEntries es) := by
  obtain ⟨rest, hgiven⟩ := Entries.eq_before_append hkey
  rw [hgiven] at h
  obtain ⟨early, late, hearly, hlate, rfl⟩ := givenSections_append h
  have hnone : Entries.get? early.done key = none :=
    givenSections_of_get?_eq_none hearly (Entries.get?_before given key)
  simp only [givenSections, hslot] at hlate
  obtain ⟨es, hes, hlate⟩ := bind_eq_ok_iff.1 hlate
  obtain ⟨later, -, hlate⟩ := bind_eq_ok_iff.1 hlate
  cases hlate
  refine ⟨early, es, hearly, hes, ?_⟩
  rw [Entries.get?_append, hnone, Entries.get?_cons, if_pos rfl]
  rfl

/-- What is inherited after the given sections: the completed map of one that hands it down counts
before what was inherited. -/
theorem get?_inherited_of_givenSections {progress : SectionProgress} {key : String}
    (h : givenSections sections path inherited given = .ok progress) (hkey : key ≠ reservedKey)
    (hn : (Entries.keys given).Nodup) :
    Entries.get? progress.inherited key =
      if Slot.handsDown sections key then
        (Entries.get? progress.done key).or (Entries.get? inherited key)
      else Entries.get? inherited key := by
  induction given generalizing inherited progress with
  | nil =>
    cases h
    split <;> rfl
  | cons e rest ih =>
    obtain ⟨k, v⟩ := e
    obtain ⟨hk, hn⟩ := List.nodup_cons.1 hn
    simp only [givenSections] at h
    split at h
    · exact ih h hn
    · rename_i slot hslot
      obtain ⟨es, -, h⟩ := bind_eq_ok_iff.1 h
      obtain ⟨later, hlater, h⟩ := bind_eq_ok_iff.1 h
      cases h
      have hslotKey : slot.key = k := Slot.key_of_find? hslot
      rw [ih hlater hn, Entries.get?_cons, get?_handDownSection slot hkey, hslotKey]
      by_cases heq : k = key
      · -- keys are distinct, so no later section replaces what is handed down here
        subst heq
        have hlast : Entries.get? later.done k = none :=
          givenSections_of_get?_eq_none hlater (Entries.get?_eq_none_iff.2 hk)
        have hdown : Slot.handsDown sections k = slot.inherit := by
          rw [Slot.handsDown, hslot]
        rw [hdown, hlast, if_pos rfl]
        cases slot.inherit <;> simp
      · simp only [heq, and_false, if_false]

/-- What is inherited when the walk through the sections comes to the key `head`: the completed map
of every section that is given before and handed down, and else what was inherited at first. -/
def WalkScope (sections : List (Slot LevelCheck)) (inherited given completed : Entries Value)
    (head : String) (scope : Entries Value) : Prop :=
  ∀ key, key ≠ reservedKey →
    Entries.get? scope key =
      if Slot.handsDown sections key = true ∧ key ∈ Entries.keys (given.before head) then
        Entries.get? completed key
      else Entries.get? inherited key

/-- What an entry hands down: the map that is completed for it, under its own key and if that is
handed down. -/
def HandsOn (sections : List (Slot LevelCheck)) (inherited completed : Entries Value)
    (k : String) (scope : Entries Value) : Prop :=
  ∀ key, key ≠ reservedKey →
    Entries.get? scope key =
      if Slot.handsDown sections key = true ∧ k = key then Entries.get? completed key
      else Entries.get? inherited key

theorem handsOn_of_find?_eq_none {k : String} (h : Slot.find? sections k = none)
    (inherited completed : Entries Value) : HandsOn sections inherited completed k inherited := by
  intro key _
  have hdown : ¬(Slot.handsDown sections key = true ∧ k = key) := by
    rintro ⟨hdown, rfl⟩
    rw [Slot.handsDown, h] at hdown
    cases hdown
  rw [if_neg hdown]

theorem handsOn_handDownSection {k : String} {slot : Slot LevelCheck}
    (hslot : Slot.find? sections k = some slot) {completed es : Entries Value}
    (hes : Entries.get? completed k = some (.ofEntries es)) (inherited : Entries Value) :
    HandsOn sections inherited completed k (handDownSection slot inherited es) := by
  intro key hkey
  have hslotKey : slot.key = k := Slot.key_of_find? hslot
  have hdown : Slot.handsDown sections k = slot.inherit := by rw [Slot.handsDown, hslot]
  rw [get?_handDownSection slot hkey, hslotKey]
  by_cases heq : k = key
  · subst heq
    rw [hdown, hes]
  · simp [heq]

/-- An entry in front hands down no more than the map that is completed for it. -/
theorem WalkScope.cons {completed inherited' scope : Entries Value} {k head : String} {v : Value}
    (h : WalkScope sections inherited' given completed head scope) (hne : k ≠ head)
    (hfirst : HandsOn sections inherited completed k inherited') :
    WalkScope sections inherited ((k, v) :: given) completed head scope := by
  intro key hkey
  rw [h key hkey, hfirst key hkey, Entries.before_cons_of_ne hne, Entries.keys_cons]
  simp only [List.mem_cons]
  by_cases hdown : Slot.handsDown sections key = true
  · by_cases hfront : k = key
    · simp [hdown, hfront]
    · simp [hdown, hfront, Ne.symm hfront]
  · simp [hdown]

/-- **A walk that goes as foretold.** Where every given section comes to the map that `completed`
holds for it, provided that the sections before it do, the walk through the sections gets to the
end. That is what they all come to, and what comes after them inherits accordingly. -/
theorem givenSections_exists_of_completed {completed : Entries Value}
    (hn : (Entries.keys given).Nodup)
    (h : ∀ k v slot scope, Entries.get? given k = some v → Slot.find? sections k = some slot →
      WalkScope sections inherited given completed k scope →
      ∃ es, slot.run scope (path.entry k) v = .ok es ∧
        Entries.get? completed k = some (.ofEntries es)) :
    ∃ progress, givenSections sections path inherited given = .ok progress ∧
      (∀ k v slot, Entries.get? given k = some v → Slot.find? sections k = some slot →
        Entries.get? progress.done k = Entries.get? completed k) ∧
      ∀ head, Entries.get? given head = none →
        WalkScope sections inherited given completed head progress.inherited := by
  induction given generalizing inherited with
  | nil =>
    refine ⟨⟨[], inherited⟩, rfl, fun _ _ _ hk => ?_, fun head _ key _ => ?_⟩
    · cases hk
    · simp [Entries.before]
  | cons e rest ih =>
    obtain ⟨k, v⟩ := e
    obtain ⟨hk, hn⟩ := List.nodup_cons.1 hn
    -- after the first entry, the walk goes on as foretold
    have hrest : ∀ {inherited'}, HandsOn sections inherited completed k inherited' →
        ∃ later, givenSections sections path inherited' rest = .ok later ∧
          (∀ k' v' slot, Entries.get? rest k' = some v' → Slot.find? sections k' = some slot →
            Entries.get? later.done k' = Entries.get? completed k') ∧
          ∀ head, Entries.get? ((k, v) :: rest) head = none →
            WalkScope sections inherited ((k, v) :: rest) completed head later.inherited := by
      intro inherited' hfirst
      obtain ⟨later, hwalk, hdone, hlast⟩ := ih hn fun k' v' slot scope hk' hslot hscope => by
        have hne : k ≠ k' := Entries.ne_of_get? hk hk'
        exact h k' v' slot scope (by rw [Entries.get?_cons, if_neg hne, hk']) hslot
          (hscope.cons hne hfirst)
      refine ⟨later, hwalk, hdone, fun head hhead => ?_⟩
      obtain ⟨hne, hhead⟩ := Entries.get?_cons_eq_none_iff.1 hhead
      exact (hlast head hhead).cons hne hfirst
    simp only [givenSections]
    cases hslot : Slot.find? sections k with
    | none =>
      obtain ⟨later, hwalk, hdone, hlast⟩ :=
        hrest (handsOn_of_find?_eq_none hslot inherited completed)
      refine ⟨later, hwalk, fun k' v' slot' hk' hslot' => ?_, hlast⟩
      have hne : k ≠ k' := by
        rintro rfl
        cases hslot.symm.trans hslot'
      rw [Entries.get?_cons, if_neg hne] at hk'
      exact hdone k' v' slot' hk' hslot'
    | some slot =>
      -- nothing is given before the first entry
      obtain ⟨es, hes, hcompleted⟩ := h k v slot inherited (by rw [Entries.get?_cons, if_pos rfl])
        hslot fun key _ => by simp [Entries.before_cons_self]
      obtain ⟨later, hwalk, hdone, hlast⟩ :=
        hrest (handsOn_handDownSection hslot hcompleted inherited)
      refine ⟨⟨(k, .ofEntries es) :: later.done, later.inherited⟩,
        bind_eq_ok_iff.2 ⟨es, hes, bind_eq_ok_iff.2 ⟨later, hwalk, rfl⟩⟩,
        fun k' v' slot' hk' hslot' => ?_, hlast⟩
      rw [Entries.get?_cons] at hk' ⊢
      by_cases heq : k = k'
      · rw [if_pos heq, ← heq, hcompleted]
      · rw [if_neg heq] at hk' ⊢
        exact hdone k' v' slot' hk' hslot'

/-- No section hands its map down. -/
def Steady (sections : List (Slot LevelCheck)) : Prop := ∀ slot ∈ sections, slot.inherit = false

theorem Steady.handDownSection_eq (hs : Steady sections) {key : String} {slot : Slot LevelCheck}
    (hslot : Slot.find? sections key = some slot) (scope es : Entries Value) :
    handDownSection slot scope es = scope := by
  simp [handDownSection, hs slot (Slot.mem_of_find? hslot)]

theorem givenSections_exists_of_steady (hs : Steady sections)
    (h : ∀ e ∈ given, ∀ slot, Slot.find? sections e.1 = some slot →
      ∃ es, slot.run inherited (path.entry e.1) e.2 = .ok es) :
    ∃ progress, givenSections sections path inherited given = .ok progress := by
  induction given with
  | nil => exact ⟨⟨[], inherited⟩, rfl⟩
  | cons e rest ih =>
    obtain ⟨k, v⟩ := e
    obtain ⟨later, hlater⟩ := ih fun e he => h e (List.mem_cons_of_mem _ he)
    simp only [givenSections]
    split
    · exact ⟨later, hlater⟩
    · rename_i slot hslot
      obtain ⟨es, hes⟩ := h (k, v) List.mem_cons_self slot hslot
      refine ⟨⟨(k, .ofEntries es) :: later.done, later.inherited⟩,
        bind_eq_ok_iff.2 ⟨es, hes, bind_eq_ok_iff.2 ⟨later, ?_, rfl⟩⟩⟩
      rw [hs.handDownSection_eq hslot]
      exact hlater

end LayeredConfig
