import TxIndex.Proofs.Repository.Write

/-!
# What a failed write leaves

Where the put behind the first `k` entries of a write fails, these `k` are staged over what was
staged, and nothing else has changed; a write that is refused has changed nothing. `Failed` says
what that means for a reader: nothing is committed, the marker reads as before, since it is the last
of the entries and never among those staged (`get?_marker_insertAll_take`), and an abort brings back
what is committed. `state_of_write` says it of every write.
-/

namespace TxIndex

namespace Repository

variable {r : Repository} {height : Height} {txs : List Transaction} {b : Backend}

/-- What a write that fails with `cause` leaves of `b`. -/
structure Failed (r : Repository) (height : Height) (txs : List Transaction) (faults : Faults)
    (b : Backend) (cause : Error) (b' : Backend) : Prop where
  /-- Nothing is committed. -/
  committed : b'.store.committed = b.store.committed ∧ b'.store.commits = b.store.commits
  /-- A write that is refused has staged nothing. -/
  refused : (∀ e, cause ≠ .store e) → b'.store.staged = b.store.staged
  /-- A write that is interrupted has staged the entries before the one that failed. -/
  interrupted : ∀ e, cause = .store e → ∃ k,
    FailsAt faults b.calls (r.stagedEntries height txs) k e ∧
      b'.store.staged = b.store.staged.insertAll ((r.stagedEntries height txs).take k)
  /-- The handle reads the marker that it read before. -/
  marker : b'.store.get? Key.marker = b.store.get? Key.marker
  /-- After an abort the handle reads what is committed, and nothing else. -/
  aborted : ∃ b'', Access.abort faults b' = .ok () b'' ∧
    (∀ key, b''.store.get? key = b.store.committed.get? key) ∧
    ∀ start pre limit, b''.store.scan start pre limit =
      (b.store.committed.listing start pre).take limit

/-- Before the last of its entries, a write stages no marker: the marker is the last of them, and
the others lie under the keys of transactions and of the height. -/
theorem get?_marker_insertAll_take {k : Nat} (h : k < (r.stagedEntries height txs).length)
    (t : Table) :
    (t.insertAll ((r.stagedEntries height txs).take k)).get? Key.marker = t.get? Key.marker := by
  refine Table.get?_insertAll_of_ne fun e he => ?_
  have hbefore : e ∈ txs.map (r.recordEntry height) ++ [r.batchEntry height txs] := by
    -- The marker is the last entry, and at most all before it are taken.
    have hsplit : r.stagedEntries height txs =
        (txs.map (r.recordEntry height) ++ [r.batchEntry height txs]) ++ [markerEntry height] := by
      rw [List.append_assoc]
      rfl
    rw [hsplit, List.length_append, List.length_singleton] at h
    rw [hsplit, List.take_append_of_le_length (by omega)] at he
    exact List.mem_of_mem_take he
  rcases List.mem_append.1 hbefore with hrecord | hbatch
  · obtain ⟨tx, -, rfl⟩ := List.mem_map.1 hrecord
    exact Key.tx_ne_marker tx.id
  · rw [List.mem_singleton] at hbatch
    subst hbatch
    exact Key.height_ne_marker height

/-- An abort leaves the committed data to be read, and nothing else. It makes no call of the store
that could fail. -/
theorem abort_of_committed {t : Table} (faults : Faults) (h : b.store.committed = t) :
    ∃ b', Access.abort faults b = .ok () b' ∧ (∀ key, b'.store.get? key = t.get? key) ∧
      ∀ start pre limit, b'.store.scan start pre limit = (t.listing start pre).take limit := by
  refine ⟨{ b with store := b.store.abort }, rfl, fun key => ?_, fun start pre limit => ?_⟩
  · rw [← Store.get?_view, Store.view_abort, h]
  · rw [Store.scan_eq_take_listing, Store.view_abort, h]

/-- **A write is done, refused, or interrupted.** Whatever is staged and committed, and whatever
fails: a write that succeeds has staged its whole sequence of entries, the record of each
transaction in order, the batch and the marker, and one that fails has left what `Failed` says. -/
theorem state_of_write (r : Repository) (height : Height) (txs : List Transaction)
    (faults : Faults) (b : Backend) :
    match r.write height txs faults b with
    | .ok () b' =>
      b'.store.committed = b.store.committed ∧
        b'.store.staged = b.store.staged.insertAll (r.stagedEntries height txs)
    | .error cause b' => Failed r height txs faults b cause b' := by
  cases hrun : r.write height txs faults b with
  | ok done b' =>
    obtain ⟨-, hstore⟩ := write_eq_ok hrun
    rw [Store.putAll_eq] at hstore
    -- All entries are staged, and nothing that is committed has changed.
    exact ⟨by rw [hstore], by rw [hstore]⟩
  | error cause b' =>
    rcases write_eq_error hrun with ⟨hcause, hstore⟩ | ⟨-, k, e, rfl, hcut, hstore⟩
    · exact {
        committed := by rw [hstore]; exact ⟨rfl, rfl⟩
        refused := fun _ => by rw [hstore]
        interrupted := fun e heq => absurd heq (hcause e)
        marker := by rw [hstore]
        aborted := abort_of_committed faults (by rw [hstore]) }
    · rw [Store.putAll_eq] at hstore
      exact {
        committed := by rw [hstore]; exact ⟨rfl, rfl⟩
        refused := fun hcause => absurd rfl (hcause e)
        interrupted := fun e' heq => by
          cases heq
          exact ⟨k, hcut, by rw [hstore]⟩
        marker := by
          rw [← Store.get?_view, hstore, ← Store.putAll_eq, Store.view_putAll,
            get?_marker_insertAll_take hcut.lt, Store.get?_view]
        aborted := abort_of_committed faults (by rw [hstore]) }

end Repository

end TxIndex
