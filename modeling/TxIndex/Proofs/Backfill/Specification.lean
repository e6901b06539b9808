import TxIndex.Proofs.Backfill.Newcomers
import TxIndex.Proofs.Backfill.Opening

/-!
# What opening a repository builds

The table that opening leaves, told from the one the handle reads: every height has what it had and
behind it what arrives there, the index is marked complete, and nothing else has changed. The
settings that say how the work is cut into pages and checkpoints do not occur in it.
-/

namespace TxIndex

/-! ## A store with staged writes -/

namespace Sample

/-- One record and its batch are committed, a second record of the same height is staged. -/
def halfStaged : Store where
  committed := (Table.empty.insert (Key.tx (id 1)) (record 5 (tx 1))).insert
    (Key.height 5) (batch [tx 1])
  staged := Table.empty.insert (Key.tx (id 2)) (record 5 (tx 2))

/-- What is read from its two records. -/
def halfStagedItems : List Backfill.Item :=
  [1, 2].map fun n =>
    { cursor := id (UInt8.ofNat n)
      record := { height := 5, payload := bigEndian 2 0 ++ (tx (UInt64.ofNat n)).body }
      tx := tx (UInt64.ofNat n) }

/-- There is a batch at one height and at no other. -/
theorem get?_halfStaged {h : Height} (hne : h ≠ 5) :
    halfStaged.view.get? (Key.height h) = none := by
  have hkey : Key.height 5 ≠ Key.height h := fun heq => hne (Key.height_inj.1 heq).symm
  show (Table.overlay _ _).get? _ = none
  rw [halfStaged, Table.get?_overlay, Table.get?_insert, Table.get?_insert, Table.get?_insert,
    if_neg (Key.tx_ne_height _ h), if_neg hkey, if_neg (Key.tx_ne_height _ h)]
  rfl

end Sample

/-! ## Opening -/

namespace Repository

open Backfill

variable {codec : Codec} {config : Config} {lastAccepted : Height} {s : Store}

/-- **Opening builds the index by height.** The records to come are well-formed and so are the
batches they name, the version is known, and no height has more transactions than the length in
front of a batch can tell, which is as many as a list in memory can hold. Then opening succeeds,
stages nothing, and commits the merge of the records with a complete marker. -/
theorem openStore_of_wellFormed {start : Bytes} {items : List Item} (calls : Calls)
    (hdue : dueFrom s.view = some start)
    (hitems : (toCome start s.view).mapM (readItem codec) = .ok items)
    (hbatches : ∀ item ∈ items, ∃ batch, batchAt codec s.view item.record.height = .ok batch)
    (hversion : config.codecVersion ∈ codec.supported)
    (hfits : ∀ h, (batchOf codec s.view h ++ arrivals codec s.view items h).length < capacity 8) :
    ∃ r b t, openStore codec config lastAccepted Faults.none ⟨s, calls⟩ = .ok r b ∧
      b.store.staged = .empty ∧ Merged codec config.codecVersion s.view items t ∧
      b.store.committed = t.insert Key.marker (Marker.complete lastAccepted).encode := by
  -- The merge succeeds as a function on tables, so the run without faults does.
  obtain ⟨t, hmerge⟩ := exists_mergeAll hitems hbatches hversion hfits
  obtain ⟨report, s', hruns, hstaged, hcommitted⟩ :=
    runs_run_of_mergeAll lastAccepted hdue hmerge
  obtain ⟨b, hopen, hstore⟩ := (runs_openStore hruns).eq_ending calls
  refine ⟨_, b, t, hopen, ?_, merged_of_mergeAll hitems hmerge, ?_⟩
  · rw [hstore]
    exact hstaged
  · rw [hstore]
    exact hcommitted

/-- A second record of a height is staged over the first one and its batch. Opening commits what was
staged, and appends the second transaction to the batch that had the first. -/
theorem openStore_of_wellFormed_halfStaged :
    ∃ r b t, openStore {} Sample.smallSteps 9 Faults.none ⟨Sample.halfStaged, {}⟩ = .ok r b ∧
      b.store.staged = .empty ∧ Merged {} 0 Sample.halfStaged.view Sample.halfStagedItems t ∧
      b.store.committed = t.insert Key.marker (Marker.complete 9).encode := by
  have hdue : dueFrom Sample.halfStaged.view = some (Space.txById.key []) := by decide +kernel
  have hitems : (toCome (Space.txById.key []) Sample.halfStaged.view).mapM (readItem {}) =
      .ok Sample.halfStagedItems := by
    decide +kernel
  refine openStore_of_wellFormed {} hdue hitems ?_ (by decide) fun h => ?_
  · intro item hitem
    have hheight : item.record.height = 5 := by
      rcases List.mem_map.1 hitem with ⟨n, -, rfl⟩
      rfl
    rw [hheight]
    exact ⟨[Sample.tx 1], by decide +kernel⟩
  · by_cases hh : h = 5
    · subst hh
      decide +kernel
    · -- At all other heights there is neither a batch nor a record.
      have hbatch : batchOf {} Sample.halfStaged.view h = [] := by
        unfold batchOf batchAt
        rw [Sample.get?_halfStaged hh]
        rfl
      have htxs : txsAt Sample.halfStagedItems h = [] := by
        simp [txsAt, Sample.halfStagedItems, Ne.symm hh]
      rw [arrivals, hbatch, htxs]
      decide

end Repository

end TxIndex
