import TxIndex.Proofs.Access.Calls
import TxIndex.Proofs.Backfill.Accounts
import TxIndex.Proofs.Cursor.Listing

/-!
# What a backfill visits

A backfill writes to the store that it reads page by page. It reads no entry twice and misses none:
what it merges, in order, is what a cursor would have given before anything was written
(`visits_of_openStore`). A page is a scan, and nothing else scans, so the number of entries tells
the number of scans; a last page that is full is followed by an empty one (`scans_of_mergePages`).
-/

namespace TxIndex

open Access (Spares)

namespace Backfill

variable {codec : Codec} {config : Config} {p p' : Progress} {start : Bytes} {faults : Faults}
  {b b' : Backend} {t : Table}

/-! ## What does not scan -/

/-- A merge reads and writes single keys. -/
theorem ofCalls_spares_scan (codec : Codec) (version : UInt16) :
    OfCalls (fun _ => Spares .scan) codec version where
  toClosed := Spares.closed
  getBatch _ := .callStore (by decide) _
  putBatch _ := .callStore (by decide) _
  putMarker _ := .put (by decide) _ _
  commit := .callStore (by decide) _

theorem spares_scan_readMarker : Spares .scan Access.readMarker :=
  Spares.closed.readMarker (.callStore (by decide) _)

/-! ## How many pages there are -/

/-- A page is one scan: the merge of its entries makes none. -/
theorem scans_of_mergePage {next? : Option Bytes}
    (h : mergePage codec config start p faults b = .ok (p', next?) b') :
    b'.calls.store .scan = b.calls.store .scan + 1 := by
  obtain ⟨page, b₁, hscan, h⟩ := Access.bind_eq_ok_iff.1 h
  obtain ⟨p₁, b₂, hfold, h⟩ := Access.bind_eq_ok_iff.1 h
  cases h
  -- The page is scanned once, and merging its entries scans nothing.
  have hspares : Spares .scan (page.foldlM (mergeEntry codec config) p) :=
    Spares.closed.foldlM (ofCalls_spares_scan codec config.codecVersion).mergeEntry page p
  rw [hspares.of_ok hfold]
  unfold Access.scan Access.callStore at hscan
  split at hscan
  · cases hscan
  · cases hscan
    exact Calls.store_addStore_self ..

/-- There are fewer entries to come than a page has if this is the last one. -/
theorem length_toCome_of_last (h : nextStart? config (pageOf config start t) = none) :
    (toCome start t).length < config.pageSize := by
  rw [← pageOf_of_nextStart?_eq_none h]
  unfold nextStart? at h
  split at h
  · assumption
  · next hfull =>
    rw [Option.map_eq_none_iff, List.getLast?_eq_none_iff] at h
    rw [h] at hfull
    exact absurd config.pageSize_pos hfull

/-- A page behind which there is another is full, and what is to come behind it is what was left. -/
theorem length_toCome_of_full {next : Bytes}
    (h : nextStart? config (pageOf config start t) = some next) :
    (toCome start t).length = config.pageSize + (toCome next t).length := by
  obtain ⟨hsplit, -⟩ := toCome_of_nextStart?_eq_some h
  have hlength : (pageOf config start t).length = config.pageSize := by
    have hle : (pageOf config start t).length ≤ config.pageSize := List.length_take_le ..
    unfold nextStart? at h
    split at h
    · cases h
    · omega
  rw [hsplit, List.length_append, hlength]

/-- **How many pages there are.** A full page takes as many entries as it has room for, so the
number of pages is told by a division, and the one page more is the last one, which is not full. -/
theorem scans_of_mergePages (h : mergePages codec config start p faults b = .ok p' b') :
    b'.calls.store .scan =
      b.calls.store .scan + ((toCome start b.store.view).length / config.pageSize + 1) := by
  fun_induction mergePages codec config start p faults b with
  | case1 => cases h
  | case2 start p b p₁ b₁ hpage =>
    cases h
    obtain ⟨-, hnext⟩ := mergeList_of_mergePage hpage
    -- The page is not full, so it is the last scan.
    rw [scans_of_mergePage hpage, Nat.div_eq_of_lt (length_toCome_of_last hnext)]
  | case3 start p b p₁ next b₁ hpage ih =>
    obtain ⟨hmerge, hnext⟩ := mergeList_of_mergePage hpage
    -- A full page is one scan, and leaves as many entries fewer as a page has.
    rw [ih h, scans_of_mergePage hpage, toCome_mergeList hmerge, length_toCome_of_full hnext,
      Nat.add_div_left _ config.pageSize_pos]
    omega

/-- The marker and the last steps scan nothing. -/
theorem scans_of_run {lastAccepted : Height} {report : Report}
    (hdue : dueFrom b.store.view = some start)
    (h : run codec config lastAccepted faults b = .ok report b') :
    b'.calls.store .scan =
      b.calls.store .scan + ((toCome start b.store.view).length / config.pageSize + 1) := by
  rw [run_eq] at h
  obtain ⟨marker?, b₁, hread, h⟩ := Access.bind_eq_ok_iff.1 h
  obtain ⟨hstore, hstart, -⟩ := of_readMarker_ok hread
  rw [proceed_of_start? (hstart.symm.trans hdue)] at h
  obtain ⟨p₁, b₂, hpages, h⟩ := Access.bind_eq_ok_iff.1 h
  have hfinish : Spares .scan (finish lastAccepted p₁) :=
    (ofCalls_spares_scan codec config.codecVersion).finish lastAccepted p₁
  rw [hfinish.of_ok h, scans_of_mergePages hpages, hstore, spares_scan_readMarker.of_ok hread]

/-! ## Which entries they hold -/

/-- A backfill starts where a cursor can start: at the first key of the index, or at the key of the
transaction that the marker names. -/
theorem exists_suffix_of_dueFrom (h : dueFrom t = some start) :
    ∃ suffix, start = Space.txById.key suffix := by
  unfold dueFrom at h
  split at h
  · exact ⟨[], (Option.some.inj h).symm⟩
  · split at h
    · next cursor _ => exact ⟨cursor.val, (Option.some.inj h).symm⟩
    · cases h
    · cases h

/-- The entries to come are those that a cursor gives, with the tag in front of their keys. A cursor
takes the tag off, and a backfill reads its keys as they are stored. -/
theorem toCome_eq_map_suffixes (suffix : Bytes) (t : Table) :
    toCome (Space.txById.key suffix) t =
      (Space.txById.suffixes suffix t).map fun e => { e with key := Space.txById.key e.key } := by
  -- Each key has the tag, so it comes back when the tag is taken off and put in front again.
  have htagged : ∀ e ∈ toCome (Space.txById.key suffix) t,
      Entry.mk (Space.txById.key (e.key.drop Space.txById.tag.length)) e.value = e := by
    intro e he
    obtain ⟨-, -, rest, hkey⟩ := Table.mem_listing_iff.1 he
    have hdrop : Space.txById.key (e.key.drop Space.txById.tag.length) = e.key := by
      rw [← hkey, List.drop_left]
      rfl
    rw [hdrop]
  unfold Space.suffixes
  rw [List.map_map]
  exact ((List.map_congr_left htagged).trans (List.map_id _)).symm

end Backfill

/-! ## Opening -/

namespace Repository

open Backfill

/-- **A backfill visits what a cursor gives.** Whatever the cap, the page size and the faults that a
successful run has not met: where `m` entries are to come, opening scans `m / p + 1` times, with `p`
the page size in use. With a journal it is the same opening, and the journal tells that it has
merged the entries that a cursor at the same place would have given before, in their order and each
of them once, although it writes and commits in between. -/
theorem visits_of_openStore {codec : Codec} {config : Config} {lastAccepted : Height}
    {faults : Faults} {s : Store} {calls : Calls} {start : Bytes} {r : Repository} {b : Backend}
    (hdue : dueFrom s.view = some start)
    (hopen : openStore codec config lastAccepted faults ⟨s, calls⟩ = .ok r b) :
    b.calls.store .scan =
        calls.store .scan + ((toCome start s.view).length / config.pageSize + 1) ∧
      Access.Erases (Journal.openStore codec config lastAccepted)
        (openStore codec config lastAccepted) ∧
      ∃ x suffix, Journal.openStore codec config lastAccepted faults ⟨⟨s, calls⟩, []⟩ = .ok r x ∧
        x.backend = b ∧ (visits x.journal).Pairwise Entry.Before ∧
        start = Space.txById.key suffix ∧
        ∀ pageSize, ∃ yielded c,
          Access.Runs (Cursor.drain (.start .txById suffix pageSize)) s
            (.ok (yielded, .exhausted, c)) s ∧
          visits x.journal = yielded.map fun e => { e with key := Space.txById.key e.key } := by
  obtain ⟨report, hrun, rfl⟩ := openStore_eq_ok_iff.1 hopen
  refine ⟨scans_of_run (b := ⟨s, calls⟩) hdue hrun, Journal.erases_openStore _ _ _, ?_⟩
  -- The journaled run ends in the same way, and its journal is the plan with the last commit.
  obtain ⟨x, state, p₁, s₁, hjournaled, rfl, -, -, -, hjournal⟩ := exists_journaled_of_run hdue hrun
  have hvisits : visits x.journal = toCome start s.view := by
    rw [hjournal, visits_append, visits_plan]
    exact List.append_nil _
  obtain ⟨suffix, rfl⟩ := exists_suffix_of_dueFrom hdue
  refine ⟨x, suffix, ?_, rfl, ?_, rfl, fun pageSize => ?_⟩
  · unfold Journal.openStore
    rw [Access.Journaled.bind_apply, hjournaled]
    rfl
  · rw [hvisits]
    exact Table.ascending_listing ..
  · -- A cursor lists the same entries on pages of any size, without the tags.
    obtain ⟨c, hdrain⟩ := Cursor.runs_drain (.start .txById suffix pageSize) s
    rw [Cursor.pending_start] at hdrain
    exact ⟨_, c, hdrain, hvisits.trans (toCome_eq_map_suffixes suffix s.view)⟩

/-- Two records on pages of one entry: the third page is the first that is not full. -/
theorem visits_of_openStore_smallSteps :
    ∃ r x, Journal.openStore {} Sample.smallSteps 9 Faults.none ⟨⟨Sample.store, {}⟩, []⟩ = .ok r x ∧
      x.backend.calls.store .scan = 3 ∧ (visits x.journal).Pairwise Entry.Before := by
  obtain ⟨r, b, hopen⟩ := exists_openStore_smallSteps
  obtain ⟨hscans, -, x, suffix, hjournaled, rfl, hbefore, -⟩ :=
    visits_of_openStore dueFrom_sample hopen
  have hlength : (toCome (Space.txById.key []) Sample.store.view).length = 2 := by decide +kernel
  rw [hlength] at hscans
  exact ⟨r, x, hjournaled, hscans, hbefore⟩

end Repository

end TxIndex
