import LayeredConfig.Proofs.Completion.Elements
import LayeredConfig.Proofs.Data.FirstOccurrences

/-!
# What is left of a table

A table is completed pair by pair, and what comes of the pairs is put into a new table one after the
other. The keys are completed as well, by defaults or by candidates that stand for them, so
different keys may come to one, and then not all of the pairs are left.

- `Range.entries_of_complete_mapOf`: which pairs are left of a table, in which order and with which
  values, and that all of them are iff no two keys come to one.
- `Range.complete_sampleShelves`: two pairs of which one is left.
-/

namespace LayeredConfig

namespace Range

variable {key value : Range} {path : Path} {v w : Value} {ps : List (Value × Value)}

/-- **The pairs of a completed table.** What is given as a table, be it a table or a string-keyed
map, has the pairs `ps`, of which each is completed at its own path, key and value. The new table
has one pair for each of the completed keys:

1. Every completed key stands where the first of the given keys that come to it stood, in the form
   in which a table stores it. Its value is the completed value of the last of these keys.
2. There are as many pairs as before iff no two given keys come to one.
3. If there are as many, they are the completed pairs in the order in which they are given. -/
theorem entries_of_complete_mapOf (hv : v.pairs? = some ps)
    (h : (mapOf key value).complete path v = .ok w) :
    ∃ qs table, w = .map .anonymous table ∧
      List.Forall₂ (fun p q => key.complete (path.pair p.1) p.1 = .ok q.1 ∧
        value.complete (path.pair p.1) p.2 = .ok q.2) ps qs ∧
      table = (Value.firstsBy Prod.fst qs).map
        (fun q => (q.1.asMember, Value.lastValue qs q)) ∧
      (table.length = ps.length ↔ qs.Pairwise fun q q' => q.1.sameMember q'.1 = false) ∧
      (table.length = ps.length → table = qs.map fun q => (q.1.asMember, q.2)) := by
  rw [complete_mapOf_of_pairs hv] at h
  obtain ⟨qs, hqs, rfl⟩ := map_eq_ok_iff.1 h
  have hdone := completePairs_eq_ok_iff.1 hqs
  have hlength : (Value.distinctPairs qs).length = ps.length ↔
      qs.Pairwise fun q q' => q.1.sameMember q'.1 = false := by
    rw [Value.distinctPairs_eq, List.length_map, hdone.length_eq, Value.length_firstsBy_eq_iff]
  refine ⟨qs, _, rfl, hdone, Value.distinctPairs_eq qs, hlength, fun heq => ?_⟩
  have hdistinct := hlength.1 heq
  rw [Value.distinctPairs_eq, Value.firstsBy_eq_self hdistinct]
  exact List.map_congr_left fun q hq =>
    congrArg (Prod.mk q.1.asMember) (Value.lastValue_of_pairwise hdistinct hq)

/-- A sample range of the number of books on each shelf. Books of which no shelf is given are on the
floor. -/
def sampleShelves : Range := .mapOf (string (.text "floor")) (integer (.number (.ofNat 0)))

/-- Books on the floor and an empty shelf. -/
def sampleShelvesApart : Value :=
  .tableOf [(.null, .number (.ofNat 1)), (.text "top", .null)]

/-- The keys come to different ones, so both pairs are left. -/
theorem entries_of_complete_mapOf_sampleShelves :
    ∃ qs : List (Value × Value), sampleShelves.complete [] sampleShelvesApart =
        .ok (.map .anonymous (qs.map fun q => (q.1.asMember, q.2))) ∧
      qs.length = 2 ∧ qs.Pairwise fun q q' => q.1.sameMember q'.1 = false := by
  have hpairs : sampleShelvesApart.pairs? =
      some [(.null, .number (.ofNat 1)), (.text "top", .null)] := rfl
  have hcomplete : sampleShelves.complete [] sampleShelvesApart = .ok (.tableOf
      [(.text "floor", .number (.ofNat 1)), (.text "top", .number (.ofNat 0))]) := rfl
  obtain ⟨qs, table, hw, hdone, -, hlength, hsame⟩ := entries_of_complete_mapOf hpairs hcomplete
  cases hw
  refine ⟨qs, ?_, hdone.length_eq.symm, hlength.1 rfl⟩
  rw [← hsame rfl]
  exact hcomplete

/-- Books on the floor, of which some are given by that name. -/
def sampleShelvesTwice : Value :=
  .tableOf [(.null, .number (.ofNat 1)), (.text "floor", .number (.ofNat 2))]

/-- **A pair may be lost.** Both keys come to one, which has the value of the second pair. -/
theorem complete_sampleShelves :
    sampleShelvesTwice.pairs? =
      some [(.null, .number (.ofNat 1)), (.text "floor", .number (.ofNat 2))] ∧
    (string (.text "floor")).complete (Path.pair [] .null) .null = .ok (.text "floor") ∧
    (integer (.number (.ofNat 0))).complete (Path.pair [] .null) (.number (.ofNat 1)) =
      .ok (.number (.ofNat 1)) ∧
    ∃ table, sampleShelves.complete [] sampleShelvesTwice = .ok (.map .anonymous table) ∧
      table.length = 1 ∧ (.text "floor", .number (.ofNat 1)) ∉ table :=
  ⟨rfl, rfl, rfl, [(.text "floor", .number (.ofNat 2))], rfl, rfl, by simp +decide⟩

end Range

end LayeredConfig
