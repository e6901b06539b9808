import TxIndex.Proofs.Backfill.Newcomers
import TxIndex.Proofs.Backfill.Opening

/-!
# What a failed opening leaves

Whatever makes opening fail, and at whatever moment, the committed data is the old data or that of a
checkpoint: the merge of the records up to some one of them, with the marker at that record.
-/

namespace TxIndex

namespace Repository

open Backfill

variable {codec : Codec} {config : Config} {lastAccepted : Height} {s : Store}

/-- A checkpoint has changed the marker and batches, and nothing else. -/
theorem get?_of_checkpointed {version : UInt16} {t u t' : Table} {start : Bytes}
    {upto rest : List Entry} {e : Entry} {cursor : TxId}
    (h : Checkpointed codec version t start upto e rest cursor u t') {key : Bytes}
    (hmarker : key ≠ Key.marker) (hheight : ∀ h, key ≠ Key.height h) :
    t'.get? key = t.get? key := by
  rw [h.marked, markedAt, Table.get?_insert, if_neg (Ne.symm hmarker)]
  exact get?_mergeAll_of_ne h.merged hheight

/-- **A failed opening leaves a checkpoint or nothing.** The committed data is unchanged, or it is
the merge of the first `k` records to come, at least one, with the marker at the last of them. So no
complete marker is ever committed, the cursor that is committed is a key of the index by id, and
nothing but the marker and batches has changed. -/
theorem committed_of_openStore_error {faults : Faults} {calls : Calls} {cause : Error}
    {b : Backend}
    (h : openStore codec config lastAccepted faults ⟨s.reopen, calls⟩ = .error cause b) :
    (b.store.committed = s.committed ∨
      ∃ start k e cursor items t, dueFrom s.committed = some start ∧ 0 < k ∧
        (toCome start s.committed)[k - 1]? = some e ∧ e.key = Key.tx cursor ∧
        s.committed.get? (Key.tx cursor) = some e.value ∧
        ((toCome start s.committed).take k).mapM (readItem codec) = .ok items ∧
        Merged codec config.codecVersion s.committed items t ∧
        b.store.committed = t.insert Key.marker (Marker.inProgress cursor).encode) ∧
    (∀ height, CompleteThrough b.store.committed height → b.store.committed = s.committed) ∧
    ∀ key, key ≠ Key.marker → (∀ height, key ≠ Key.height height) →
      b.store.committed.get? key = s.committed.get? key := by
  rcases run_eq_error (openStore_eq_error_iff.1 h) with hsame | hsaved
  · change b.store.committed = s.committed at hsame
    exact ⟨.inl hsame, fun _ _ => hsame, fun _ _ _ => by rw [hsame]⟩
  · obtain ⟨start, upto, e, rest, cursor, t, hsaved⟩ := hsaved
    change Checkpointed codec _ s.committed start upto e rest cursor t _ at hsaved
    refine ⟨.inr ?_, fun height hcomplete => ?_, fun key => get?_of_checkpointed hsaved⟩
    · -- The records up to the cursor are the first ones to come, for they are a beginning of them.
      obtain ⟨items, hitems⟩ := exists_items_of_mergeAll hsaved.merged
      have htake : (toCome start s.committed).take (upto.length + 1) = upto ++ [e] := by
        rw [hsaved.come, List.append_cons]
        exact List.take_left' (by simp)
      have hmem : e ∈ toCome start s.committed := by
        rw [hsaved.come]
        simp
      refine ⟨start, upto.length + 1, e, cursor, items, t, hsaved.due, Nat.succ_pos _, ?_,
        hsaved.key, ?_, ?_, merged_of_mergeAll hitems hsaved.merged, hsaved.marked⟩
      · rw [hsaved.come]
        simp
      · rw [← hsaved.key]
        exact Table.mem_entries_iff.1 (Table.mem_listing_iff.1 hmem).1
      · rw [htake]
        exact hitems
    · -- The marker of a checkpoint is in progress.
      rw [hsaved.marked] at hcomplete
      exact absurd hcomplete (not_completeThrough_markedAt t cursor height)

/-- The third put is that of the second batch: only the first record has been merged for good. The
checkpoint behind it has made the two puts before. -/
theorem committed_of_openStore_error_at_third_put :
    ∃ cause b, openStore {} Sample.smallSteps 9 (Faults.none.limitStore .put 2 (.io "full"))
        ⟨Sample.store.reopen, {}⟩ = .error cause b ∧
      ∃ start k e cursor items t, dueFrom Sample.store.committed = some start ∧ 0 < k ∧
        (toCome start Sample.store.committed)[k - 1]? = some e ∧ e.key = Key.tx cursor ∧
        Sample.store.committed.get? (Key.tx cursor) = some e.value ∧
        ((toCome start Sample.store.committed).take k).mapM (readItem {}) = .ok items ∧
        Merged {} 0 Sample.store.committed items t ∧
        b.store.committed = t.insert Key.marker (Marker.inProgress cursor).encode := by
  have hleft : Access.committedOnError? (openStore {} Sample.smallSteps 9
      (Faults.none.limitStore .put 2 (.io "full")) ⟨Sample.store.reopen, {}⟩) =
        some (markedAt (Sample.table.insert (Key.height 5) (Sample.batch [Sample.tx 1]))
          (Sample.id 1)) := by
    decide +kernel
  obtain ⟨cause, b, hopen, hcommitted⟩ := Access.exists_of_committedOnError? hleft
  have hchanged : b.store.committed ≠ Sample.store.committed := by
    rw [hcommitted]
    decide +kernel
  exact ⟨cause, b, hopen, (committed_of_openStore_error hopen).1.resolve_left hchanged⟩

end Repository

end TxIndex
