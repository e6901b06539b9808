import TxIndex.Proofs.Backfill.Listed
import TxIndex.Proofs.Repository.History
import TxIndex.Proofs.Repository.Refinement

/-!
# Running the backfill over a built index

A store without a marker has been opened, perhaps after attempts that failed, and then heights that
had no batch have been written (`Unbuilt`, `Built`). In such a store every record is listed at its
height, wherever else its id occurs. So a backfill that is made to run once more, from whatever
cursor, changes nothing but the marker.
-/

namespace TxIndex

namespace Repository

open Backfill

/-- The store has no marker, or attempts to open a store without a marker have failed, each with a
codec, settings, a height and faults of its own, and this is a new handle on what they have left. -/
inductive Unbuilt : Store → Prop where
  | unmarked {s : Store} (hnone : s.view.get? Key.marker = none) : Unbuilt s
  | failed {s : Store} {codec : Codec} {config : Config} {lastAccepted : Height} {faults : Faults}
      {calls : Calls} {cause : Error} {b : Backend} (h : Unbuilt s)
      (hfail : openStore codec config lastAccepted faults ⟨s, calls⟩ = .error cause b) :
      Unbuilt b.store.reopen

/-- The index by height has been built, and since then only heights without a batch have been
written. -/
inductive Built : Store → Prop where
  | opened {s : Store} {codec : Codec} {config : Config} {lastAccepted : Height} {faults : Faults}
      {calls : Calls} {r : Repository} {b : Backend} (h : Unbuilt s)
      (hopen : openStore codec config lastAccepted faults ⟨s, calls⟩ = .ok r b) : Built b.store
  | wrote {s : Store} {r : Repository} {height : Height} {txs : List Transaction} {faults : Faults}
      {calls : Calls} {b : Backend} (h : Built s) (hfresh : s.get? (Key.height height) = none)
      (hwrite : r.write height txs faults ⟨s, calls⟩ = .ok () b) : Built b.store
  | committed {s : Store} (h : Built s) : Built s.commit

variable {s : Store} {t : Table} {r : Repository} {height : Height} {txs : List Transaction}

/-! ## While the index is built -/

/-- A backfill is due, and all records before those to come are listed. -/
def Resumes (t : Table) : Prop :=
  ∃ start, dueFrom t = some start ∧ ListedBefore start t

/-- Without a marker the backfill starts with the first key, and before that there is no record. -/
theorem resumes_of_unmarked (h : t.get? Key.marker = none) : Resumes t := by
  refine ⟨Space.txById.key [], ?_, listedBefore_first t⟩
  unfold dueFrom
  rw [h]

/-- However often opening has failed, what is before the place to go on from is listed. The cursor
is always that of a checkpoint, and at a checkpoint all records up to it have been merged. -/
theorem Unbuilt.resumes (h : Unbuilt s) : s.Throughout Resumes := by
  induction h with
  | @unmarked s hnone =>
    have hboth := hnone
    rw [Store.get?_view, Store.get?, Option.or_eq_none_iff] at hboth
    exact ⟨resumes_of_unmarked hnone, resumes_of_unmarked hboth.2⟩
  | @failed s codec config lastAccepted faults calls cause b _ hfail ih =>
    refine .of_staged_empty rfl ?_
    show Resumes b.store.committed
    -- The attempt has committed nothing, or a checkpoint.
    rcases run_eq_error (openStore_eq_error_iff.1 hfail) with hsame | hsaved
    · rw [hsame]
      exact ih.committed
    · obtain ⟨start, upto, e, rest, cursor, u, hsaved⟩ := hsaved
      obtain ⟨start', hdue, hbefore⟩ := ih.view
      obtain rfl : start' = start := Option.some.inj (hdue.symm.trans hsaved.due)
      refine ⟨Key.tx cursor, ?_, hsaved.listedBefore hbefore⟩
      rw [hsaved.marked]
      exact dueFrom_markedAt u cursor

/-! ## Once the index is built -/

/-- A write at a height without a batch leaves all records listed: those it writes are in the batch
it writes, and at that height none was listed before. With a batch there already, the records of the
old list would be lost from it. -/
theorem allListed_write (h : AllListed t) (hfresh : t.get? (Key.height height) = none)
    (haccepts : r.Accepts txs) : AllListed (t.insertAll (r.stagedEntries height txs)) := by
  intro e he
  obtain ⟨hget, htag⟩ := mem_toCome_first_iff.1 he
  rcases record_or_get?_of_insertAll hget htag with ⟨tx, htx, rfl⟩ | hold
  · -- The batch has been written with the record.
    refine ⟨r.codec, r.codec, r.recordItem height tx, txs, ?_, ?_, ?_⟩
    · exact readItem_recordEntry haccepts.version (haccepts.payloads tx htx)
    · unfold batchAt recordItem
      rw [get?_height_insertAll]
      simp only [unmarshal_batchEntry haccepts]
      rfl
    · exact List.any_eq_true.2 ⟨tx, htx, beq_self_eq_true _⟩
  · obtain ⟨c, c', item, batch, hitem, hbatch, hid⟩ := h e (mem_toCome_first_iff.2 ⟨hold, htag⟩)
    have hother : item.record.height ≠ height := by
      -- At the height that is written nothing was listed.
      intro heq
      unfold batchAt at hbatch
      rw [heq, hfresh] at hbatch
      cases hbatch
      cases hid
    refine ⟨c, c', item, batch, hitem, ?_, hid⟩
    rw [batchAt_congr (get?_height_insertAll_of_ne hother)]
    exact hbatch

/-- **In a built index every record is listed.** When opening has succeeded, all records have been
merged; since then only fresh heights have been written. -/
theorem Built.allListed (h : Built s) : AllListed s.view := by
  induction h with
  | @opened s codec config lastAccepted faults calls r b hunbuilt hopen =>
    obtain ⟨start, hdue, hbefore⟩ := hunbuilt.resumes.view
    obtain ⟨report, hrun, -⟩ := openStore_eq_ok_iff.1 hopen
    obtain ⟨t, hmerge, hempty, hcommitted⟩ := exists_mergeAll_of_run hrun hdue
    rw [Store.view_of_staged_empty hempty, hcommitted]
    exact (allListed_of_mergeAll hbefore hmerge).insert_marker
  | wrote _ hfresh hwrite ih =>
    obtain ⟨haccepts, hstore⟩ := write_eq_ok hwrite
    rw [hstore, Store.view_putAll]
    exact allListed_write ih (Store.get?_view .. ▸ hfresh) haccepts
  | committed _ ih => exact ih

/-! ## Once more -/

/-- A codec that reads everything knows all versions. -/
theorem knowsVersions_of_wellFormed {codec : Codec} {start : Bytes} {e : Entry}
    (h : WellFormed codec t) (he : e ∈ toCome start t) : KnowsVersions codec t e := by
  obtain ⟨hget, -, htag⟩ := mem_toCome_iff.1 he
  obtain ⟨id, found, -, hread⟩ := (h _ _ hget).record htag
  obtain ⟨record, hrecord, htx, -⟩ := readStored_eq_ok_iff.1 hread
  refine ⟨fun record' hrecord' => ?_, fun record' bytes hrecord' hbatch => ?_⟩
  · rw [hrecord] at hrecord'
    cases hrecord'
    exact Codec.knows_of_unmarshal htx
  · obtain ⟨-, txs, -, htxs⟩ := (h _ _ hbatch).batch (List.prefix_append ..)
    exact Codec.knows_of_unmarshal htxs

/-- **Running the backfill over a built index changes nothing.** The index has been built, and only
heights without a batch have been written since, with whatever ids. Then the marker has been set in
progress at any cursor. The next opening, with any settings and a codec that knows the versions of
what it reads, succeeds: it finds all records from the cursor on to be duplicates, and leaves the
data as it is, with a complete marker. -/
theorem openStore_of_built {s' : Store} {codec : Codec} {bytes : Bytes} {cursor : TxId}
    (hbuilt : Built s) (hmarked : s'.view = s.view.insert Key.marker bytes)
    (hdecode : Marker.decode bytes = .ok (.inProgress cursor))
    (hknows : ∀ e ∈ toCome (Key.tx cursor) s.view, KnowsVersions codec s.view e)
    (config : Config) (lastAccepted : Height) (calls : Calls) :
    ∃ r b, openStore codec config lastAccepted Faults.none ⟨s', calls⟩ = .ok r b ∧
      r.lastBackfill.state = .resuming cursor ∧ r.lastBackfill.indexed = 0 ∧
      r.lastBackfill.duplicates = (toCome (Key.tx cursor) s.view).length ∧
      b.store.staged = .empty ∧
      b.store.committed = s.view.insert Key.marker (Marker.complete lastAccepted).encode := by
  have hcome : toCome (Key.tx cursor) s'.view = toCome (Key.tx cursor) s.view := by
    rw [hmarked, toCome_insert_marker]
  -- Only the marker is different from the built index, and no record is listed by a marker.
  have hlisted : ∀ e ∈ toCome (Key.tx cursor) s'.view, ListedBy codec codec s'.view e := by
    intro e he
    rw [hcome] at he
    obtain ⟨hget, -, htag⟩ := mem_toCome_iff.1 he
    rw [hmarked]
    exact ((hbuilt.allListed e (mem_toCome_first_iff.2 ⟨hget, htag⟩)).listedBy
      (hknows e he)).insert_marker
  have hget : s'.view.get? Key.marker = some bytes := by
    rw [hmarked, Table.get?_insert_self]
  obtain ⟨report, s₁, hruns, hstate, hindexed, hduplicates, hempty, hcommitted⟩ :=
    exists_runs_run_of_listed config lastAccepted hget hdecode hlisted
  obtain ⟨b, hopen, hstore⟩ := (runs_openStore hruns).eq_ending calls
  refine ⟨_, b, hopen, hstate, hindexed, ?_, ?_, ?_⟩
  · rw [hduplicates, hcome]
  · rw [hstore]
    exact hempty
  · rw [hstore, hcommitted, hmarked]
    exact Table.insert_insert ..

/-- Height five has been written, and height seven with a transaction of height five once more. The
marker is set before all records, and the codec does not know the version of the settings. -/
theorem openStore_of_built_with_common_id :
    ∃ r b b₁ b₂ s', openStore {} {} 9 Faults.none ⟨{}, {}⟩ = .ok r b ∧
      r.write 5 [Sample.tx 1, Sample.tx 2] Faults.none b = .ok () b₁ ∧
      r.write 7 [Sample.tx 1, Sample.tx 3] Faults.none b₁ = .ok () b₂ ∧
      s'.view = b₂.store.commit.view.insert Key.marker (Marker.inProgress (Sample.id 0)).encode ∧
      ∃ r' b', openStore {} { codecVersion := 9 } 8 Faults.none ⟨s', {}⟩ = .ok r' b' ∧
        r'.lastBackfill.state = .resuming (Sample.id 0) ∧ r'.lastBackfill.indexed = 0 ∧
        r'.lastBackfill.duplicates =
          (toCome (Key.tx (Sample.id 0)) b₂.store.commit.view).length ∧
        b'.store.staged = .empty ∧
        b'.store.committed =
          b₂.store.commit.view.insert Key.marker (Marker.complete 8).encode := by
  obtain ⟨report, b, hopen⟩ := exists_openStore_empty {} {} 9 {}
  obtain ⟨hempty, hcommitted⟩ := committed_of_openStore_empty hopen
  have hnothing : WellFormed {} Table.empty := fun _ _ hget => (nomatch hget)
  obtain ⟨-, through, hstart⟩ := represents_of_openStore rfl hnothing hopen
  have hfirst : Accepts { codec := {}, config := {}, lastBackfill := report }
    [Sample.tx 1, Sample.tx 2] := accepts_of_lengths (by decide) (by decide +kernel)
  have hsecond : Accepts { codec := {}, config := {}, lastBackfill := report }
    [Sample.tx 1, Sample.tx 3] := accepts_of_lengths (by decide) (by decide +kernel)
  obtain ⟨b₁, hwrite₁, hstore₁⟩ := (runs_write_ok 5 b.store hfirst).eq_ending b.calls
  obtain ⟨b₂, hwrite₂, hstore₂⟩ := (runs_write_ok 7 b₁.store hsecond).eq_ending b₁.calls
  have hview : b.store.view = Table.empty.insert Key.marker (Marker.complete 9).encode := by
    rw [Store.view_of_staged_empty hempty, hcommitted]
  have hview₁ : b₁.store.view = b.store.view.insertAll _ := hstore₁ ▸ Store.view_putAll ..
  have hview₂ : b₂.store.view = b₁.store.view.insertAll _ := hstore₂ ▸ Store.view_putAll ..
  -- Each height is fresh when it is written, although one transaction is in both lists.
  have hfresh₁ : b.store.get? (Key.height 5) = none := by
    rw [← Store.get?_view, hview]
    rfl
  have hfresh₂ : b₁.store.get? (Key.height 7) = none := by
    rw [← Store.get?_view, hview₁, get?_height_insertAll_of_ne (by decide), hview]
    rfl
  have hwell : WellFormed {} b₂.store.view := by
    rw [← Store.view_of_staged_empty hempty] at hstart
    rw [hview₂, hview₁]
    exact (Session.represents_stagedEntries (Session.represents_stagedEntries hstart hfirst)
      hsecond).wellFormed
  have hall : Built b₂.store.commit :=
    (((Built.opened (.unmarked rfl) hopen).wrote hfresh₁ hwrite₁).wrote hfresh₂ hwrite₂).committed
  refine ⟨_, b, b₁, b₂, b₂.store.commit.put Key.marker (Marker.inProgress (Sample.id 0)).encode,
    hopen, hwrite₁, hwrite₂, Store.view_put .., ?_⟩
  exact openStore_of_built hall (Store.view_put ..) (Marker.decode_encode _)
    (fun e he => knowsVersions_of_wellFormed hwell he) _ _ _

end Repository

end TxIndex
