import LayeredConfig.Leaves
import LayeredConfig.Proofs.Completion.Loops

/-!
# The loops of collecting leaves

`levelLeaves` walks the given entries for what is handed down, and then the slots for their
leaves. Each loop is described once, as those of completing are in
`LayeredConfig.Proofs.Completion.Loops`.

- `settingBequests` is seen by looking up (`get?_settingBequests`), and so is `sectionBequests`
  for the keys that are not given.
- `elementLeaves`, `pairLeaves`, `settingLeaves` and `sectionLeaves` succeed when each of their
  steps does; and what is seen of the leaves of a level comes slot by slot (`settingLeaves_shows`,
  `sectionLeaves_shows`).
-/

namespace LayeredConfig

variable {settings : List (Slot Visit)} {sections : List (Slot LevelVisit)}
  {bequests : Bequests} {given : Entries Value} {path : Path} {key : String}

/-! ## What is handed down -/

theorem get?_settingBequests :
    Entries.get? (settingBequests settings bequests given) key =
      if Slot.handsDown settings key then
        ((Entries.get? given key).map fun v => ⟨v, bequests⟩).or (Entries.get? bequests key)
      else Entries.get? bequests key := by
  induction given with
  | nil => simp [settingBequests]
  | cons e rest ih =>
    obtain ⟨k, v⟩ := e
    simp only [settingBequests]
    by_cases heq : k = key
    · subst heq
      cases hdown : Slot.handsDown settings k with
      | true => simp [Entries.get?_cons]
      | false =>
        rw [hdown] at ih
        simpa using ih
    · rw [Entries.get?_cons, if_neg heq]
      split
      · rw [Entries.get?_cons, if_neg heq, ih]
      · exact ih

theorem get?_settingBequests_of_get?_eq_none (h : Entries.get? given key = none) :
    Entries.get? (settingBequests settings bequests given) key = Entries.get? bequests key := by
  rw [get?_settingBequests, h]
  split <;> rfl

/-- A key that is not given is neither present nor newly inherited after the sections. -/
theorem sectionBequests_of_get?_eq_none (h : Entries.get? given key = none) :
    Entries.get? (sectionBequests sections bequests given).present key = none ∧
      Entries.get? (sectionBequests sections bequests given).inherited key =
        Entries.get? bequests key := by
  induction given generalizing bequests with
  | nil => exact ⟨rfl, rfl⟩
  | cons e rest ih =>
    obtain ⟨k, v⟩ := e
    rw [Entries.get?_cons] at h
    split at h
    · cases h
    · rename_i hne
      simp only [sectionBequests]
      split
      · refine ⟨?_, ?_⟩
        · rw [Entries.get?_cons, if_neg hne]
          exact (ih h).1
        · rw [(ih h).2]
          split
          · rw [Entries.get?_cons, if_neg hne]
          · rfl
      · exact ih h

/-! ## Parts that have leaves -/

theorem elementLeaves_exists {visits : List Visit} {i : Nat} {vs : List Value}
    (h : ∀ (j : Nat) (visit : Visit) (v : Value), visits[j]? = some visit → vs[j]? = some v →
      ∃ leaves, visit (path.element (i + j)) v = .ok leaves) :
    ∃ leaves, elementLeaves path visits i vs = .ok leaves := by
  induction visits generalizing i vs with
  | nil => exact ⟨[], rfl⟩
  | cons visit rest ih =>
    cases vs with
    | nil => exact ⟨[], rfl⟩
    | cons v vs =>
      obtain ⟨here, hhere⟩ := h 0 visit v rfl rfl
      obtain ⟨later, hlater⟩ : ∃ leaves, elementLeaves path rest (i + 1) vs = .ok leaves := by
        refine ih fun j visit' v' hvisit' hv' => ?_
        rw [Nat.succ_add_eq_add_succ]
        exact h (j + 1) visit' v' hvisit' hv'
      exact ⟨here ++ later, bind_eq_ok_iff.2 ⟨here, hhere, bind_eq_ok_iff.2 ⟨later, hlater, rfl⟩⟩⟩

theorem pairLeaves_exists {key value : Visit} {ps : List (Value × Value)}
    (h : ∀ p ∈ ps, (∃ leaves, key (path.pair p.1) p.1 = .ok leaves) ∧
      ∃ leaves, value (path.pair p.1) p.2 = .ok leaves) :
    ∃ leaves, pairLeaves key value path ps = .ok leaves := by
  induction ps with
  | nil => exact ⟨[], rfl⟩
  | cons p rest ih =>
    obtain ⟨⟨ofKey, hkey⟩, ofValue, hvalue⟩ := h p List.mem_cons_self
    obtain ⟨later, hlater⟩ := ih fun q hq => h q (List.mem_cons_of_mem p hq)
    exact ⟨ofKey ++ ofValue ++ later, bind_eq_ok_iff.2 ⟨ofKey, hkey,
      bind_eq_ok_iff.2 ⟨ofValue, hvalue, bind_eq_ok_iff.2 ⟨later, hlater, rfl⟩⟩⟩⟩

theorem settingLeaves_exists {inherited : Bequests}
    (h : ∀ slot ∈ settings, ∃ leaves,
      slot.run (path.entry slot.key) (rawSetting given inherited slot.key) = .ok leaves) :
    ∃ leaves, settingLeaves given inherited path settings = .ok leaves := by
  induction settings with
  | nil => exact ⟨[], rfl⟩
  | cons slot rest ih =>
    obtain ⟨here, hhere⟩ := h slot List.mem_cons_self
    obtain ⟨later, hlater⟩ := ih fun slot' hslot' => h slot' (List.mem_cons_of_mem slot hslot')
    exact ⟨here ++ later, bind_eq_ok_iff.2 ⟨here, hhere, bind_eq_ok_iff.2 ⟨later, hlater, rfl⟩⟩⟩

theorem sectionLeaves_exists {present inherited : Bequests}
    (h : ∀ slot ∈ sections, ∃ leaves,
      slot.run (rawSection present inherited slot.key).scope (path.entry slot.key)
        (rawSection present inherited slot.key).value = .ok leaves) :
    ∃ leaves, sectionLeaves present inherited path sections = .ok leaves := by
  induction sections with
  | nil => exact ⟨[], rfl⟩
  | cons slot rest ih =>
    obtain ⟨here, hhere⟩ := h slot List.mem_cons_self
    obtain ⟨later, hlater⟩ := ih fun slot' hslot' => h slot' (List.mem_cons_of_mem slot hslot')
    exact ⟨here ++ later, bind_eq_ok_iff.2 ⟨here, hhere, bind_eq_ok_iff.2 ⟨later, hlater, rfl⟩⟩⟩

/-! ## Collecting -/

section Collecting

variable {ι γ : Type} {view : Leaf → γ} {inherited present : Bequests} {xs : List ι}
  {shown : ι → List γ}

theorem settingLeaves_shows {visit : ι → Slot Visit}
    (h : ∀ x ∈ xs, ∃ here,
      (visit x).run (path.entry (visit x).key) (rawSetting given inherited (visit x).key) =
          .ok here ∧ here.map view = shown x) :
    ∃ leaves, settingLeaves given inherited path (xs.map visit) = .ok leaves ∧
      leaves.map view = xs.flatMap shown := by
  induction xs with
  | nil => exact ⟨[], rfl, rfl⟩
  | cons x rest ih =>
    obtain ⟨here, hhere, hview⟩ := h x List.mem_cons_self
    obtain ⟨later, hlater, hrest⟩ := ih fun x hx => h x (List.mem_cons_of_mem _ hx)
    refine ⟨here ++ later, ?_, ?_⟩
    · exact bind_eq_ok_iff.2 ⟨here, hhere, bind_eq_ok_iff.2 ⟨later, hlater, rfl⟩⟩
    · rw [List.map_append, hview, hrest, List.flatMap_cons]

theorem sectionLeaves_shows {visit : ι → Slot LevelVisit}
    (h : ∀ x ∈ xs, ∃ here,
      (visit x).run (rawSection present inherited (visit x).key).scope (path.entry (visit x).key)
          (rawSection present inherited (visit x).key).value = .ok here ∧
        here.map view = shown x) :
    ∃ leaves, sectionLeaves present inherited path (xs.map visit) = .ok leaves ∧
      leaves.map view = xs.flatMap shown := by
  induction xs with
  | nil => exact ⟨[], rfl, rfl⟩
  | cons x rest ih =>
    obtain ⟨here, hhere, hview⟩ := h x List.mem_cons_self
    obtain ⟨later, hlater, hrest⟩ := ih fun x hx => h x (List.mem_cons_of_mem _ hx)
    refine ⟨here ++ later, ?_, ?_⟩
    · exact bind_eq_ok_iff.2 ⟨here, hhere, bind_eq_ok_iff.2 ⟨later, hlater, rfl⟩⟩
    · rw [List.map_append, hview, hrest, List.flatMap_cons]

end Collecting

end LayeredConfig
