import Mathlib.Algebra.BigOperators.Finprod
import TxIndex.Proofs.Backfill.Checkpoints
import TxIndex.Proofs.Backfill.Newcomers

/-!
# What a report accounts for

The counts of a report are kept while the store changes beside them. They tell what has happened:
a step of the merge adds to both by the same amount (`booked_mergeOne`), so a whole merge does
(`booked_mergeList`). The number of checkpoints is told by the sizes of the records alone, as the
number of cuts of their greedy segmentation (`Accounted`).

A run that fails has no report, but its journal is a beginning of what the whole merge would have
noted (`Stopped.prefix_plan`). So the bound on what is merged and not yet durable holds at every
moment of every run, and a crash loses no more than that (`Paced`).
-/

namespace TxIndex

open Access (Noted)

namespace Backfill

variable {codec : Codec} {config : Config} {p p₁ p' : Progress} {s s₁ s' : Store}

/-! ## What a report counts -/

/-- From `s` and `p` on, the merge of the entries has led to `s'` and `p'`, and the counts of the
report have grown by what has happened. -/
structure Booked (codec : Codec) (config : Config) (p : Progress) (s : Store)
    (entries : List Entry) (p' : Progress) (s' : Store) : Prop where
  records : p'.report.indexed + p'.report.duplicates =
    p.report.indexed + p.report.duplicates + entries.length
  bytes : p'.report.bytesProcessed = p.report.bytesProcessed + (entries.map payloadSize).sum
  /-- What is counted as indexed is what the batches of all heights have grown by. -/
  growth : ∃ growth : Height → Nat,
    (∀ h, (batchOf codec s'.view h).length = (batchOf codec s.view h).length + growth h) ∧
      p'.report.indexed = p.report.indexed + ∑ᶠ h, growth h
  checkpoints : p'.report.checkpoints = p.report.checkpoints +
    (plan config.commitSizeCap p.pendingBytes entries).count .committed
  commits : s'.commits = s.commits +
    (plan config.commitSizeCap p.pendingBytes entries).count .committed

instance : Finite Height :=
  Finite.of_injective (fun h : Height => h.toFin) fun _ _ => UInt64.toFin_inj.1

theorem batchOf_insert_marker {t : Table} {value : Bytes} (h : Height) :
    batchOf codec (t.insert Key.marker value) h = batchOf codec t h := by
  unfold batchOf
  rw [batchAt_congr]
  rw [Table.get?_insert, if_neg (Key.height_ne_marker h).symm]

/-- A record that is merged makes the batch of its height longer by one transaction, if it is
appended, and leaves the others. -/
theorem length_batchOf_extend {version : UInt16} {t : Table} {h : Height} {tx : Transaction}
    {batch? : Option Bytes} (hext : extension codec version t h tx = .ok batch?) (h' : Height) :
    (batchOf codec (extend t h batch?) h').length =
      (batchOf codec t h').length + if h' = h then (if batch?.isSome then 1 else 0) else 0 := by
  by_cases hh : h' = h
  · subst hh
    rw [if_pos rfl]
    -- At the height itself the batch is longer by one, unless the transaction was in it.
    obtain ⟨batch, hbatch, hcase⟩ := extension_eq_ok_iff.1 hext
    split at hcase
    · subst hcase
      rfl
    · obtain ⟨bytes, hbytes, rfl⟩ := hcase
      show (batchOf codec (t.insert _ bytes) _).length = _
      rw [batchOf_eq (batchAt_insert_of_marshal hbytes), batchOf_eq hbatch, List.length_append]
      rfl
  · rw [if_neg hh, batchOf_extend_of_ne hh]
    rfl

theorem booked_nil (codec : Codec) (config : Config) (p : Progress) (s : Store) :
    Booked codec config p s [] p s where
  records := rfl
  bytes := rfl
  growth := ⟨fun _ => 0, fun _ => rfl, by rw [finsum_zero]; rfl⟩
  checkpoints := rfl
  commits := rfl

/-- What has been appended for one entry is what the batch of its height has grown by; no other
height gets anything, and the marker of a checkpoint is no batch. -/
theorem growth_of_mergeOne {e : Entry} (h : mergeOne codec config e p s = (.ok p', s')) :
    ∃ growth : Height → Nat,
      (∀ h, (batchOf codec s'.view h).length = (batchOf codec s.view h).length + growth h) ∧
        p'.report.indexed = p.report.indexed + ∑ᶠ h, growth h := by
  obtain ⟨item, batch?, -, hext, rfl, rfl⟩ := exists_of_mergeOne h
  let appended := if batch?.isSome then 1 else 0
  refine ⟨fun h => if h = item.record.height then appended else 0, fun h => ?_, ?_⟩
  · rw [view_settle]
    split
    · rw [batchOf_insert_marker, length_batchOf_extend hext]
    · rw [length_batchOf_extend hext]
  · -- The sum over all heights is what has been appended at the one.
    rw [finsum_eq_single _ item.record.height fun h hne => if_neg hne, if_pos rfl]
    unfold advance
    split <;> rfl

/-- What one record adds to the counts: it is appended or a duplicate, its bytes are counted in both
cases, and a checkpoint is counted if one is due. -/
theorem report_advance (config : Config) (item : Item) (batch? : Option Bytes) (p : Progress) :
    (advance config item batch? p).report.indexed + (advance config item batch? p).report.duplicates =
        p.report.indexed + p.report.duplicates + 1 ∧
      (advance config item batch? p).report.bytesProcessed =
        p.report.bytesProcessed + item.record.payload.length ∧
      (advance config item batch? p).report.checkpoints =
        p.report.checkpoints + if isDue config p item.record.payload.length then 1 else 0 := by
  -- A record is one or the other, so both counts together grow by one.
  have hrecords : p.report.indexed + (if batch?.isSome then 1 else 0) +
      (p.report.duplicates + if batch?.isSome then 0 else 1) =
        p.report.indexed + p.report.duplicates + 1 := by
    cases batch? with
    | none => rfl
    | some bytes => exact Nat.add_right_comm ..
  unfold advance
  cases isDue config p item.record.payload.length with
  | true => exact ⟨hrecords, rfl, rfl⟩
  | false => exact ⟨hrecords, rfl, rfl⟩

theorem count_notesOf (cap pending : Nat) (e : Entry) :
    (notesOf cap pending e).count .committed = if cap < pending + payloadSize e then 1 else 0 := by
  unfold notesOf
  split <;> rfl

/-- **One entry.** The counts of the report and the store have both been read off the same inversion
of `mergeOne`, so they grow by the same amounts. -/
theorem booked_mergeOne {e : Entry} (h : mergeOne codec config e p s = (.ok p', s')) :
    Booked codec config p s [e] p' s' := by
  have hgrowth := growth_of_mergeOne h
  have hcommits := committed_of_mergeOne h
  have hcount : (plan config.commitSizeCap p.pendingBytes [e]).count .committed =
      if config.commitSizeCap < p.pendingBytes + payloadSize e then 1 else 0 := by
    show (notesOf _ _ e ++ []).count Milestone.committed = _
    rw [List.append_nil, count_notesOf]
  -- The report is that of `advance`, so its counts are told by the item.
  obtain ⟨item, batch?, hitem, -, rfl, -⟩ := exists_of_mergeOne h
  obtain ⟨-, hrecord, -⟩ := readItem_eq_ok_iff.1 hitem
  obtain ⟨hrecords, hbytes, hcheckpoints⟩ := report_advance config item batch? p
  rw [← payloadSize_eq hrecord] at hbytes hcheckpoints
  refine ⟨hrecords, hbytes.trans ?_, hgrowth, hcheckpoints.trans ?_, ?_⟩
  · rw [List.map_singleton, List.sum_singleton]
  · rw [hcount]
    simp [isDue]
  · rw [hcount]
    rcases hcommits with ⟨hdue, hmore, -⟩ | ⟨hdue, hsame, -⟩
    · rw [if_pos hdue, hmore]
    · rw [if_neg hdue, hsame, Nat.add_zero]

/-- An entry in front of the others: the amounts are added up, height by height for the batches. -/
theorem Booked.cons {e : Entry} {entries : List Entry}
    (hone : mergeOne codec config e p s = (.ok p₁, s₁))
    (h : Booked codec config p₁ s₁ entries p' s') :
    Booked codec config p s (e :: entries) p' s' := by
  have hfirst := booked_mergeOne hone
  have hcount : (plan config.commitSizeCap p.pendingBytes (e :: entries)).count .committed =
      (plan config.commitSizeCap p.pendingBytes [e]).count .committed +
        (plan config.commitSizeCap p₁.pendingBytes entries).count .committed := by
    show (notesOf _ _ e ++ plan _ _ entries).count Milestone.committed =
      (notesOf _ _ e ++ []).count Milestone.committed + _
    rw [List.append_nil, List.count_append, pendingBytes_of_mergeOne hone]
  -- The batches grow by the sum of both growths. There are finitely many heights, so the two sums
  -- over all of them can be added.
  obtain ⟨growth, hlength, hindexed⟩ := hfirst.growth
  obtain ⟨growth', hlength', hindexed'⟩ := h.growth
  refine ⟨?_, ?_, ⟨fun h => growth h + growth' h, fun h => ?_, ?_⟩, ?_, ?_⟩
  · rw [h.records, hfirst.records, List.length_singleton, List.length_cons]
    omega
  · rw [h.bytes, hfirst.bytes, List.map_cons, List.map_cons, List.map_nil, List.sum_cons,
      List.sum_cons, List.sum_nil]
    omega
  · rw [hlength' h, hlength h, Nat.add_assoc]
  · rw [finsum_add_distrib (Set.toFinite _) (Set.toFinite _), hindexed', hindexed, Nat.add_assoc]
  · rw [hcount, h.checkpoints, hfirst.checkpoints, Nat.add_assoc]
  · rw [hcount, h.commits, hfirst.commits, Nat.add_assoc]

/-- **What a merge counts.** By induction on the entries that have been merged, each of which adds
to the counts what it adds to the store. -/
theorem booked_mergeList {entries : List Entry}
    (h : mergeList codec config entries p s = (.ok p', s')) :
    Booked codec config p s entries p' s' := by
  induction entries generalizing p s with
  | nil =>
    cases h
    exact booked_nil ..
  | cons e entries ih =>
    obtain ⟨p₁, s₁, hone, hrest⟩ := mergeList_cons_eq_ok_iff.1 h
    exact Booked.cons hone (ih hrest)

/-! ## Opening -/

/-- How a backfill ends that starts from the key `start`, and what its journal tells. -/
def Concludes (codec : Codec) (config : Config) (lastAccepted : Height) (s : Store) (start : Bytes) :
    EStateM.Result Error (Noted Milestone) Report → Prop
  | .ok report x => ∃ state p₁ s₁,
    mergeList codec config (toCome start s.view) { report := { state } } s = (.ok p₁, s₁) ∧
      report = p₁.report ∧
      x.backend.store = (s₁.put Key.marker (Marker.complete lastAccepted).encode).commit ∧
      x.journal = plan config.commitSizeCap 0 (toCome start s.view) ++ [.committed]
  | .error _ x => ∃ state,
    Stopped codec config { report := { state } } s [] (toCome start s.view) x

variable {lastAccepted : Height} {start : Bytes} {faults : Faults} {calls : Calls}
  {x x' : Noted Milestone} {cause : Error}

/-- The last step marks the index as complete, commits, and reports the counts as they are. -/
theorem finish_of_ok {report : Report}
    (h : Journal.finish lastAccepted p faults x = .ok report x') :
    report = p.report ∧ x'.journal = x.journal ++ [.committed] ∧
      x'.backend.store =
        (x.backend.store.put Key.marker (Marker.complete lastAccepted).encode).commit := by
  obtain ⟨hreport, hstore⟩ := (runs_finish lastAccepted p x.backend.store).of_ok
    (unfaulted_finish lastAccepted p) rfl ((Journal.erases_finish lastAccepted p).of_ok h)
  obtain ⟨_, b₁, -, h⟩ := Access.Journaled.lift_bind_eq_ok_iff.1 h
  obtain ⟨_, b₂, -, h⟩ := Access.Journaled.lift_bind_eq_ok_iff.1 h
  cases h
  exact ⟨rfl, rfl, hstore⟩

/-- If the last step fails, nothing has been committed by it and nothing noted. The complete marker
may be staged by then, and is lost with the handle. -/
theorem finish_of_error (h : Journal.finish lastAccepted p faults x = .error cause x') :
    x'.journal = x.journal ∧ x'.backend.store.committed = x.backend.store.committed ∧
      x'.backend.store.commits = x.backend.store.commits := by
  have hkeep := keepsFailing_finish (f := fun s : Store => (s.committed, s.commits))
    (fun _ _ _ => rfl) lastAccepted p faults _ cause _
    ((Journal.erases_finish lastAccepted p).of_error h)
  refine ⟨?_, Prod.mk.inj hkeep⟩
  rcases Access.Journaled.lift_bind_eq_error_iff.1 h with ⟨b, -, rfl⟩ | ⟨_, b₁, -, h⟩
  · rfl
  rcases Access.Journaled.lift_bind_eq_error_iff.1 h with ⟨b, -, rfl⟩ | ⟨_, b₂, -, h⟩
  · rfl
  · cases h

/-- Behind the marker: the entries to come are merged, and then the index is complete. If it fails
before, the run has stopped at one of the entries; and if the last commit fails, behind all of
them. -/
theorem concludes_proceed {state : State} (hstart : state.start? = some start)
    (hstore : x.backend.store = s) (hjournal : x.journal = []) :
    Concludes codec config lastAccepted s start
      (Journal.proceed codec config lastAccepted state faults x) := by
  have htracks := tracks_mergePages codec config start { report := { state } } faults x
  rw [hstore] at htracks
  unfold Journal.proceed
  rw [hstart]
  show Concludes _ _ _ _ _ ((Journal.mergeToCome codec config state start >>= _) faults x)
  rw [Access.Journaled.bind_apply]
  unfold Journal.mergeToCome
  cases hpages : Journal.mergePages codec config start { report := { state } } faults x with
  -- One of the entries could not be merged, or a call has failed.
  | error cause x₁ =>
    rw [hpages] at htracks
    change Stopped codec config _ x.backend.store x.journal _ x₁ at htracks
    rw [hstore, hjournal] at htracks
    exact ⟨state, htracks⟩
  | ok p₁ x₁ =>
    rw [hpages] at htracks
    obtain ⟨hmerge, hnoted⟩ := htracks
    rw [hstore] at hmerge
    rw [hjournal, List.nil_append] at hnoted
    show Concludes _ _ _ _ _ (Journal.finish lastAccepted p₁ faults x₁)
    cases hfinish : Journal.finish lastAccepted p₁ faults x₁ with
    | ok report x₂ =>
      obtain ⟨hreport, hlast, hcommit⟩ := finish_of_ok hfinish
      exact ⟨state, p₁, x₁.backend.store, hmerge, hreport, hcommit, by rw [hlast, hnoted]⟩
    | error cause x₂ =>
      obtain ⟨hlast, hcommitted, hcommits⟩ := finish_of_error hfinish
      refine ⟨state, .intro _ [] [] (List.append_nil _).symm hmerge hcommitted hcommits
        List.nil_prefix ?_⟩
      rw [hlast, hnoted, List.append_nil]
      rfl

/-- The backfill from its beginning. A marker that cannot be read for a fault is a stop before the
first entry. -/
theorem concludes_run (codec : Codec) (config : Config) (lastAccepted : Height)
    (faults : Faults) (calls : Calls) (hdue : dueFrom s.view = some start) :
    Concludes codec config lastAccepted s start
      (Journal.run codec config lastAccepted faults ⟨⟨s, calls⟩, []⟩) := by
  unfold Journal.run
  rw [Access.Journaled.lift_bind_apply]
  cases hread : Access.readMarker faults ⟨s, calls⟩ with
  | error cause b =>
    -- The run has stopped before the first entry, with the store as it was.
    have hkeep : b.store = s :=
      Access.keepsFailing_readMarker (f := fun s : Store => s) _ _ _ _ hread
    exact ⟨.fresh, .intro [] _ [] rfl rfl (by rw [hkeep]) (by rw [hkeep]) List.nil_prefix rfl⟩
  | ok marker? b =>
    obtain ⟨hstore, hstart, -⟩ := of_readMarker_ok hread
    exact concludes_proceed (hstart.symm.trans hdue) hstore rfl

/-- A run that succeeds has merged all entries to come and committed them with a complete marker,
and with a journal it notes the plan of the merge and the last commit. -/
theorem exists_journaled_of_run {report : Report} {b : Backend} (hdue : dueFrom s.view = some start)
    (h : run codec config lastAccepted faults ⟨s, calls⟩ = .ok report b) :
    ∃ x state p₁ s₁,
      Journal.run codec config lastAccepted faults ⟨⟨s, calls⟩, []⟩ = .ok report x ∧
      x.backend = b ∧
      mergeList codec config (toCome start s.view) { report := { state } } s = (.ok p₁, s₁) ∧
      report = p₁.report ∧
      b.store = (s₁.put Key.marker (Marker.complete lastAccepted).encode).commit ∧
      x.journal = plan config.commitSizeCap 0 (toCome start s.view) ++ [.committed] := by
  obtain ⟨x, hjournaled, rfl⟩ :=
    (Journal.erases_run codec config lastAccepted).exists_of_ok (x := ⟨⟨s, calls⟩, []⟩) h
  have hconcludes := concludes_run codec config lastAccepted faults calls hdue
  rw [hjournaled] at hconcludes
  obtain ⟨state, p₁, s₁, hmerge, hreport, hstore, hjournal⟩ := hconcludes
  exact ⟨x, state, p₁, s₁, hjournaled, rfl, hmerge, hreport, hstore, hjournal⟩

/-! ## What the journal of a run tells -/

/-- The journal of a run that has stopped is a beginning of what the whole merge would have noted.
So a bound that holds for every beginning of a plan holds wherever a run has ended. -/
theorem Stopped.prefix_plan {entries : List Entry} (h : Stopped codec config p s [] entries x) :
    x.journal <+: plan config.commitSizeCap p.pendingBytes entries := by
  cases h with
  | intro done rest more hsplit hdone hcommitted hcommits hmore hjournal =>
    rw [hjournal, hsplit, plan_append hdone, List.nil_append, List.prefix_append_right_inj]
    cases rest with
    | nil => exact hmore.trans List.nil_prefix
    | cons e rest => exact hmore.trans (List.cons_prefix_cons.2 ⟨rfl, List.nil_prefix⟩)

theorem committed_not_mem_of_merged {entries : List Entry} {more : List Milestone}
    (h : more <+: entries.map .merged) : .committed ∉ more := by
  intro hmem
  obtain ⟨e, -, heq⟩ := List.mem_map.1 (h.subset hmem)
  cases heq

/-- What is durable behind a merge is told by its plan: at first nothing has been merged, and
nothing has been noted. -/
theorem durable_mergeList {entries : List Entry}
    (h : mergeList codec config entries p s = (.ok p', s')) :
    Durable codec config.codecVersion s (plan config.commitSizeCap p.pendingBytes entries)
      s'.committed := by
  have hreached : Reached codec config.codecVersion s (visits []) s := .unsaved rfl rfl
  have hdurable : Durable codec config.codecVersion s [] s.committed :=
    .untouched List.not_mem_nil rfl
  exact hdurable.append hreached h

/-- What the journal of a run on `s` from `start` on tells, wherever the run has ended. -/
structure Paced (codec : Codec) (config : Config) (s : Store) (start : Bytes)
    (x : Noted Milestone) : Prop where
  /-- The records that are merged are those to come, in their order, up to one of them. -/
  visited : visits x.journal <+: toCome start s.view
  /-- At every moment, the records since the last commit are within the cap without the last. -/
  within : ∀ k, (Ledger.ofJournal (x.journal.take k)).Within config.commitSizeCap
  /-- What is noted as a commit is one. -/
  commits : x.backend.store.commits = s.commits + x.journal.count .committed
  /-- What is merged and not committed is all that a crash can lose. -/
  durable : Durable codec config.codecVersion s x.journal x.backend.store.committed

/-- Wherever a run has stopped, its journal is a beginning of the plan, and so the bounds of the
plan hold at every moment of it. -/
theorem Stopped.paced {state : State}
    (h : Stopped codec config { report := { state } } s [] (toCome start s.view) x) :
    Paced codec config s start x := by
  have hprefix : x.journal <+: plan config.commitSizeCap 0 (toCome start s.view) := h.prefix_plan
  refine ⟨?_, fun k => ?_, ?_, ?_⟩
  · rw [← visits_plan config.commitSizeCap 0 (toCome start s.view)]
    exact hprefix.filterMap _
  · have htake := (List.take_prefix k x.journal).trans hprefix
    exact Ledger.within_of_prefix (htake.trans (List.prefix_append _ _))
  · cases h with
    | intro done rest more hsplit hdone hcommitted hcommits hmore hjournal =>
      -- Behind the entries that are done no commit has been noted.
      have hnone := List.count_eq_zero.2 (committed_not_mem_of_merged hmore)
      rw [hcommits, (booked_mergeList hdone).commits, hjournal, List.nil_append, List.count_append,
        hnone]
      rfl
  · cases h with
    | intro done rest more hsplit hdone hcommitted hcommits hmore hjournal =>
      rw [hcommitted, hjournal, List.nil_append]
      exact (durable_mergeList hdone).append_of_no_commit (committed_not_mem_of_merged hmore)

/-- What a report of a backfill from `start` on tells, by what `s` was and `s'` has become. -/
structure Accounted (codec : Codec) (config : Config) (s : Store) (start : Bytes)
    (report : Report) (s' : Store) : Prop where
  /-- Every entry to come was appended or found to be a duplicate. -/
  records : report.indexed + report.duplicates = (toCome start s.view).length
  /-- What was appended is what the batches of all heights have grown by. -/
  growth : ∃ growth : Height → Nat,
    (∀ h, (batchOf codec s'.view h).length = (batchOf codec s.view h).length + growth h) ∧
      report.indexed = ∑ᶠ h, growth h
  bytes : report.bytesProcessed = ((toCome start s.view).map payloadSize).sum
  /-- There is one greedy segmentation of the sizes, and a checkpoint for each of its cuts. -/
  checkpoints : ∃ segments rest,
    (∀ segments' rest', Greedy config.commitSizeCap ((toCome start s.view).map payloadSize)
      segments' rest' ↔ segments' = segments ∧ rest' = rest) ∧
      report.checkpoints = segments.length
  commits : s'.commits = s.commits + report.checkpoints + 1

/-- The report of a merge that is finished: the counts of the merge, the number of cuts of the one
greedy segmentation, and one commit more than there are checkpoints. -/
theorem accounted_of_mergeList {state : State}
    (hmerge : mergeList codec config (toCome start s.view) { report := { state } } s = (.ok p', s₁))
    (lastAccepted : Height) :
    Accounted codec config s start p'.report
      (s₁.put Key.marker (Marker.complete lastAccepted).encode).commit := by
  have hbooked := booked_mergeList hmerge
  obtain ⟨growth, hlength, hindexed⟩ := hbooked.growth
  obtain ⟨segments, rest, hgreedy, hcount⟩ :=
    exists_greedy_of_plan config.commitSizeCap (toCome start s.view) [] (Nat.zero_le _)
  have hcheckpoints := hbooked.checkpoints
  refine ⟨?_, ⟨growth, fun h => ?_, ?_⟩, ?_, ⟨segments, rest, fun segments' rest' => ?_, ?_⟩, ?_⟩
  · rw [hbooked.records]
    exact Nat.zero_add _
  · show (batchOf codec (Store.put _ _ _).view h).length = _
    rw [Store.view_put, batchOf_insert_marker, hlength h]
  · rw [hindexed]
    exact Nat.zero_add _
  · rw [hbooked.bytes]
    exact Nat.zero_add _
  · -- The plan cuts where the greedy segmentation does, and there is just one.
    refine ⟨fun h => hgreedy.unique h, fun h => ?_⟩
    obtain ⟨rfl, rfl⟩ := h
    exact hgreedy
  · rw [hcheckpoints, ← hcount]
    exact Nat.zero_add _
  · show s₁.commits + 1 = _
    rw [hbooked.commits, hcheckpoints]
    show _ = s.commits + (0 + _) + 1
    rw [Nat.zero_add]

/-- A run that succeeds is paced as well: behind its plan there is just the last commit, which makes
the rest durable. -/
theorem paced_of_mergeList {state : State}
    (hmerge : mergeList codec config (toCome start s.view) { report := { state } } s = (.ok p', s₁))
    (hstore : x.backend.store =
      (s₁.put Key.marker (Marker.complete lastAccepted).encode).commit)
    (hjournal : x.journal = plan config.commitSizeCap 0 (toCome start s.view) ++ [.committed]) :
    Paced codec config s start x := by
  refine ⟨?_, fun k => ?_, ?_, ?_⟩
  · rw [hjournal, visits_append, visits_plan]
    exact (List.append_nil _).symm ▸ List.prefix_rfl
  · rw [hjournal]
    exact Ledger.within_of_prefix (List.take_prefix ..)
  · rw [hstore, hjournal, List.count_append]
    show s₁.commits + 1 = s.commits + (_ + 1)
    rw [(booked_mergeList hmerge).commits]
    exact Nat.add_assoc ..
  · -- The last commit takes over the whole view, and in it all records are merged.
    obtain ⟨t, hall, hview⟩ := (reached_mergeList hmerge).view
    rw [hjournal, hstore]
    refine durable_commit (.complete lastAccepted) (u := t) ?_ ?_
    · rw [visits_plan]
      exact hall
    · show (Store.put _ _ _).view = _
      rw [Store.view_put, hview]

end Backfill

/-! ## Opening -/

namespace Repository

open Backfill

variable {s : Store} {start : Bytes}

/-- **A report accounts for all that was done, and no crash loses more than one interval.** Where
records are to be merged, whatever fails: an opening that succeeds reports what it has merged
(`Accounted`), and wherever an opening ends, its journal tells that at every moment the records
merged and not yet durable were within the cap without the last of them (`Paced`). With its journal
it is the same opening. -/
theorem accounts_of_openStore (codec : Codec) (config : Config) (lastAccepted : Height)
    (faults : Faults) (calls : Calls) (hdue : dueFrom s.view = some start) :
    (∀ r b, openStore codec config lastAccepted faults ⟨s, calls⟩ = .ok r b →
      Accounted codec config s start r.lastBackfill b.store) ∧
    Access.Erases (Journal.openStore codec config lastAccepted)
      (openStore codec config lastAccepted) ∧
    Paced codec config s start
      ((Journal.openStore codec config lastAccepted).after faults ⟨⟨s, calls⟩, []⟩) := by
  refine ⟨fun r b hopen => ?_, Journal.erases_openStore codec config lastAccepted, ?_⟩
  · obtain ⟨report, hrun, rfl⟩ := openStore_eq_ok_iff.1 hopen
    obtain ⟨x, state, p₁, s₁, -, -, hmerge, rfl, hstore, -⟩ := exists_journaled_of_run hdue hrun
    rw [hstore]
    exact accounted_of_mergeList hmerge lastAccepted
  · -- However the run with the journal ends, `concludes_run` says what is in the journal by then.
    have hconcludes := concludes_run codec config lastAccepted faults calls hdue
    unfold Access.Journaled.after Journal.openStore
    rw [Access.Journaled.bind_apply]
    cases hjournaled : Journal.run codec config lastAccepted faults ⟨⟨s, calls⟩, []⟩ with
    | ok report x =>
      rw [hjournaled] at hconcludes
      obtain ⟨state, p₁, s₁, hmerge, -, hstore, hjournal⟩ := hconcludes
      exact paced_of_mergeList hmerge hstore hjournal
    | error cause x =>
      rw [hjournaled] at hconcludes
      obtain ⟨state, hstopped⟩ := hconcludes
      exact hstopped.paced

theorem dueFrom_sample : dueFrom Sample.store.view = some (Space.txById.key []) := by
  decide +kernel

theorem exists_openStore_smallSteps :
    ∃ r b, openStore {} Sample.smallSteps 9 Faults.none ⟨Sample.store, {}⟩ = .ok r b := by
  have hmerge : mergeAll {} Sample.smallSteps.codecVersion Sample.store.view
      (toCome (Space.txById.key []) Sample.store.view) =
      .ok (Sample.table.insert (Key.height 5) (Sample.batch [Sample.tx 1, Sample.tx 2])) := by
    decide +kernel
  obtain ⟨report, b, hopen, -⟩ := exists_openStore_of_mergeAll 9 {} dueFrom_sample hmerge
  exact ⟨_, b, hopen⟩

/-- Both records are merged with a checkpoint each, and they are of one length. -/
theorem accounts_of_openStore_smallSteps :
    ∃ r b, openStore {} Sample.smallSteps 9 Faults.none ⟨Sample.store, {}⟩ = .ok r b ∧
      r.lastBackfill.indexed + r.lastBackfill.duplicates = 2 ∧
      r.lastBackfill.bytesProcessed = 2 * (bigEndian 2 0 ++ (Sample.tx 1).body).length ∧
      r.lastBackfill.checkpoints = 2 ∧ b.store.commits = 3 := by
  obtain ⟨r, b, hopen⟩ := exists_openStore_smallSteps
  have haccounts := (accounts_of_openStore {} Sample.smallSteps 9 Faults.none {} dueFrom_sample).1 r b
    hopen
  have hsizes : (toCome (Space.txById.key []) Sample.store.view).map payloadSize = [66, 66] := by
    decide +kernel
  have hcheckpoints : r.lastBackfill.checkpoints = 2 := by
    obtain ⟨segments, rest, hunique, hcount⟩ := haccounts.checkpoints
    rw [hsizes] at hunique
    -- Each record exceeds the cap by itself, so each is a segment.
    obtain ⟨rfl, -⟩ := (hunique [[66], [66]] []).1 ⟨rfl, by decide, by decide⟩
    exact hcount
  refine ⟨r, b, hopen, haccounts.records.trans (by decide +kernel), ?_, hcheckpoints, ?_⟩
  · rw [haccounts.bytes, hsizes]
    decide +kernel
  · rw [haccounts.commits, hcheckpoints]
    rfl

end Repository

end TxIndex
