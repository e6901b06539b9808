import TxIndex.Backfill.Run
import TxIndex.Proofs.Backfill.Entries

/-!
# Merging page after page

A backfill asks for its records a page at a time, and while it does so it writes to the table it is
reading. Neither can be seen in the result: the pages, one after the other, are the records from
the start on as they stood when the first page was read (`toCome`), each of them once.

* `runs_mergePages`: without faults, the pages are merged as one list.
* `mergeList_of_mergePages`, `mergeList_of_mergePages_error`: with faults, a run that succeeds has
  merged that list, and one that fails has merged a beginning of it.
-/

namespace TxIndex

namespace Backfill

variable {codec : Codec} {config : Config} {s s' : Store} {p p' : Progress} {start : Bytes}
  {t : Table}

/-! ## What merging leaves to come -/

/-- Merging an entry leaves the records to come, for it writes a batch and perhaps the marker. -/
theorem toCome_mergeOne {e : Entry} (h : mergeOne codec config e p s = (.ok p', s')) :
    toCome start s'.view = toCome start s.view := by
  obtain ⟨item, batch?, -, -, -, rfl⟩ := exists_of_mergeOne h
  rw [view_settle]
  split
  · rw [toCome_insert_marker, toCome_extend]
  · rw [toCome_extend]

theorem toCome_mergeList {entries : List Entry}
    (h : mergeList codec config entries p s = (.ok p', s')) :
    toCome start s'.view = toCome start s.view := by
  induction entries generalizing p s with
  | nil =>
    cases h
    rfl
  | cons e entries ih =>
    obtain ⟨p₁, s₁, hone, hrest⟩ := mergeList_cons_eq_ok_iff.1 h
    rw [ih hrest, toCome_mergeOne hone]

/-! ## One page -/

/-- The first records to come, as many as a page takes. -/
def pageOf (config : Config) (start : Bytes) (t : Table) : List Entry :=
  (toCome start t).take config.pageSize

/-- Where the page after this one starts, if it is not the last. -/
def nextStart? (config : Config) (page : List Entry) : Option Bytes :=
  if page.length < config.pageSize then none
  else page.getLast?.map fun e => Key.successor e.key

/-- A scan of the index by id gives the page of the records to come. -/
theorem runs_scan (config : Config) (start : Bytes) (s : Store) :
    Access.Runs (Access.scan start Space.txById.tag config.pageSize) s
      (.ok (pageOf config start s.view)) s := by
  have hscan := Access.Runs.scan start Space.txById.tag config.pageSize s
  rw [Store.scan_eq_take_listing] at hscan
  exact hscan

/-- The program of a page, with the start of the next one by name. -/
theorem mergePage_eq (codec : Codec) (config : Config) (start : Bytes) (p : Progress) :
    mergePage codec config start p = (do
      let page ← Access.scan start Space.txById.tag config.pageSize
      let p' ← page.foldlM (mergeEntry codec config) p
      return (p', nextStart? config page)) := rfl

/-- A page whose records can be merged is merged, and tells where the next one starts. -/
theorem runs_mergePage_ok
    (h : mergeList codec config (pageOf config start s.view) p s = (.ok p', s')) :
    Access.Runs (mergePage codec config start p) s
      (.ok (p', nextStart? config (pageOf config start s.view))) s' := by
  have hfold := runs_foldlM_mergeEntry codec config (pageOf config start s.view) p s
  rw [h] at hfold
  rw [mergePage_eq]
  exact .bind (runs_scan config start s) (.bind hfold (.pure _ s'))

/-- A page with a record that cannot be merged fails there. -/
theorem runs_mergePage_error {cause : Error}
    (h : mergeList codec config (pageOf config start s.view) p s = (.error cause, s')) :
    Access.Runs (mergePage codec config start p) s (.error cause) s' := by
  have hfold := runs_foldlM_mergeEntry codec config (pageOf config start s.view) p s
  rw [h] at hfold
  rw [mergePage_eq]
  exact .bind (runs_scan config start s) (.bind_error hfold)

/-- A page that succeeds has met no fault: a scan is a call like the others. -/
theorem unfaulted_mergePage (codec : Codec) (config : Config) (start : Bytes) (p : Progress) :
    Access.Unfaulted (mergePage codec config start p) :=
  (ofCalls_unfaulted codec _).mergePage (fun _ _ => .callStore _ _) start p

/-- Behind a short page nothing is left, so it holds all that was to come. -/
theorem pageOf_of_nextStart?_eq_none (h : nextStart? config (pageOf config start t) = none) :
    pageOf config start t = toCome start t := by
  have hpos := config.pageSize_pos
  unfold nextStart? at h
  split at h
  · next hshort => exact Table.take_listing_of_short hshort
  · next hfull =>
    -- A page that is not short has a last entry.
    rw [Option.map_eq_none_iff, List.getLast?_eq_none_iff] at h
    rw [h] at hfull
    exact absurd hpos hfull

/-- A full page is followed by what its entries leave to come: the next page starts with the first
key behind the last of them, so nothing is left out and nothing comes twice. -/
theorem toCome_of_nextStart?_eq_some {next : Bytes}
    (h : nextStart? config (pageOf config start t) = some next) :
    toCome start t = pageOf config start t ++ toCome next t ∧ pageOf config start t ≠ [] := by
  unfold nextStart? at h
  split at h
  · cases h
  · obtain ⟨e, he, rfl⟩ := Option.map_eq_some_iff.1 h
    have hnext : toCome (Key.successor e.key) t = (toCome start t).drop config.pageSize :=
      Table.listing_successor_of_last he
    rw [hnext]
    refine ⟨(List.take_append_drop _ _).symm, fun hnil => ?_⟩
    rw [hnil] at he
    cases he

/-! ## All pages -/

/-- The loop over the pages, one round at a time. -/
theorem mergePages_apply (codec : Codec) (config : Config) (start : Bytes) (p : Progress)
    (faults : Faults) (b : Backend) :
    mergePages codec config start p faults b =
      match mergePage codec config start p faults b with
      | .error e b' => .error e b'
      | .ok (p', none) b' => .ok p' b'
      | .ok (p', some next) b' => mergePages codec config next p' faults b' := by
  rw [mergePages]
  split <;> simp_all

theorem runs_mergePages_of_last {p' : Progress}
    (h : Access.Runs (mergePage codec config start p) s (.ok (p', none)) s') :
    Access.Runs (mergePages codec config start p) s (.ok p') s' := by
  intro calls
  obtain ⟨calls', hrun⟩ := h calls
  exact ⟨calls', by rw [mergePages_apply, hrun]; rfl⟩

/-- A full page is followed by the pages from its end on. -/
theorem runs_mergePages_of_full {s₁ : Store} {next : Bytes} {outcome : Except Error Progress}
    (h : Access.Runs (mergePage codec config start p) s (.ok (p', some next)) s₁)
    (hrest : Access.Runs (mergePages codec config next p') s₁ outcome s') :
    Access.Runs (mergePages codec config start p) s outcome s' := by
  intro calls
  obtain ⟨calls₁, hpage⟩ := h calls
  obtain ⟨calls', hrun⟩ := hrest calls₁
  refine ⟨calls', ?_⟩
  rw [mergePages_apply, hpage]
  exact hrun

theorem runs_mergePages_of_error {cause : Error}
    (h : Access.Runs (mergePage codec config start p) s (.error cause) s') :
    Access.Runs (mergePages codec config start p) s (.error cause) s' := by
  intro calls
  obtain ⟨calls', hrun⟩ := h calls
  exact ⟨calls', by rw [mergePages_apply, hrun]; rfl⟩

/-- Without faults the pages are merged as one list, in whatever pages it is read. The store that
the later pages are read from has changed, but not in the index they are read from. -/
theorem runs_mergePages (codec : Codec) (config : Config) (start : Bytes) (p : Progress)
    (s : Store) :
    Access.Runs (mergePages codec config start p) s
      (mergeList codec config (toCome start s.view) p s).1
      (mergeList codec config (toCome start s.view) p s).2 := by
  -- Each full page leaves a shorter list to come.
  induction hn : (toCome start s.view).length using Nat.strongRecOn generalizing start p s with
  | ind n ih =>
    rcases hmerge : mergeList codec config (pageOf config start s.view) p s with ⟨outcome, s₁⟩
    cases hnext : nextStart? config (pageOf config start s.view) with
    | none =>
      rw [← pageOf_of_nextStart?_eq_none hnext, hmerge]
      cases outcome with
      | ok p₁ => exact runs_mergePages_of_last (hnext ▸ runs_mergePage_ok hmerge)
      | error cause => exact runs_mergePages_of_error (runs_mergePage_error hmerge)
    | some next =>
      obtain ⟨hsplit, hne⟩ := toCome_of_nextStart?_eq_some hnext
      rw [hsplit, mergeList_append, hmerge]
      cases outcome with
      | error cause => exact runs_mergePages_of_error (runs_mergePage_error hmerge)
      | ok p₁ =>
        have hcome : toCome next s₁.view = toCome next s.view := toCome_mergeList hmerge
        have hshorter : (toCome next s₁.view).length < n := by
          have hpos := List.length_pos_iff.2 hne
          rw [hcome, ← hn, hsplit, List.length_append]
          omega
        have hrest := ih _ hshorter next p₁ s₁ rfl
        rw [hcome] at hrest
        exact runs_mergePages_of_full (hnext ▸ runs_mergePage_ok hmerge) hrest

/-! ## With faults -/

/-- A page that succeeds under whatever faults is the page without faults. So the entries it has
merged are those of the page, and the key it gives is that of the next one. -/
theorem mergeList_of_mergePage {next? : Option Bytes} {faults : Faults} {b b' : Backend}
    (h : mergePage codec config start p faults b = .ok (p', next?) b') :
    mergeList codec config (pageOf config start b.store.view) p b.store = (.ok p', b'.store) ∧
      nextStart? config (pageOf config start b.store.view) = next? := by
  rcases hmerge : mergeList codec config (pageOf config start b.store.view) p b.store with
    ⟨outcome, s₁⟩
  cases outcome with
  | ok p₁ =>
    -- With faults and without, a success is the same one.
    obtain ⟨hok, hstore⟩ := (runs_mergePage_ok hmerge).of_ok (unfaulted_mergePage _ _ _ _) rfl h
    cases hok
    exact ⟨by rw [hstore], rfl⟩
  | error cause =>
    obtain ⟨hok, -⟩ := (runs_mergePage_error hmerge).of_ok (unfaulted_mergePage _ _ _ _) rfl h
    cases hok

/-- A page that fails has been merged up to one of its entries, and nothing has been committed
since. -/
theorem mergeList_of_mergePage_error {cause : Error} {faults : Faults} {b b' : Backend}
    (h : mergePage codec config start p faults b = .error cause b') :
    ∃ done rest p₁ s₁, toCome start b.store.view = done ++ rest ∧
      mergeList codec config done p b.store = (.ok p₁, s₁) ∧
      b'.store.committed = s₁.committed := by
  rw [mergePage_eq] at h
  rcases Access.bind_eq_error_iff.1 h with hscan | ⟨page, b₁, hscan, h⟩
  · -- The scan has failed, so nothing is merged.
    have hkeep := Access.KeepsFailing.callStore (f := Store.committed) .scan _ _ _ _ _ hscan
    exact ⟨[], _, p, b.store, rfl, rfl, hkeep⟩
  · obtain ⟨hpage, hstore⟩ := (runs_scan config start b.store).of_ok (.callStore _ _) rfl hscan
    cases hpage
    rcases Access.bind_eq_error_iff.1 h with hfold | ⟨p₁, b₂, -, h⟩
    · -- One of the entries has failed. To those of the page behind it come those of the other
      -- pages.
      obtain ⟨done, rest, p₁, s₁, hsplit, hdone, hcommitted⟩ := mergeList_of_foldlM_error hfold
      rw [hstore] at hdone
      refine ⟨done, rest ++ (toCome start b.store.view).drop config.pageSize, p₁, s₁, ?_, hdone,
        hcommitted⟩
      rw [← List.append_assoc, ← hsplit]
      exact (List.take_append_drop _ _).symm
    · cases h

/-- **Pages that succeed have merged one list.** Whatever the page size and the faults, it is the
list of the records to come as it was before the first page, although the pages have been read one
by one and written to in between. -/
theorem mergeList_of_mergePages {faults : Faults} {b b' : Backend}
    (h : mergePages codec config start p faults b = .ok p' b') :
    mergeList codec config (toCome start b.store.view) p b.store = (.ok p', b'.store) := by
  -- The cases are a page that fails, the last page, and a full page with others behind it.
  fun_induction mergePages codec config start p faults b with
  | case1 => cases h
  | case2 start p b p₁ b₁ hpage =>
    cases h
    obtain ⟨hmerge, hnext⟩ := mergeList_of_mergePage hpage
    rw [← pageOf_of_nextStart?_eq_none hnext]
    exact hmerge
  | case3 start p b p₁ next b₁ hpage ih =>
    obtain ⟨hmerge, hnext⟩ := mergeList_of_mergePage hpage
    obtain ⟨hsplit, -⟩ := toCome_of_nextStart?_eq_some hnext
    have hrest := ih h
    rw [toCome_mergeList hmerge] at hrest
    rw [hsplit, mergeList_append_ok hmerge]
    exact hrest

/-- A backfill that fails has merged a beginning of the records, and nothing has been committed
since. -/
theorem mergeList_of_mergePages_error {cause : Error} {faults : Faults} {b b' : Backend}
    (h : mergePages codec config start p faults b = .error cause b') :
    ∃ done rest p₁ s₁, toCome start b.store.view = done ++ rest ∧
      mergeList codec config done p b.store = (.ok p₁, s₁) ∧
      b'.store.committed = s₁.committed := by
  fun_induction mergePages codec config start p faults b with
  | case1 start p b e b₁ hpage =>
    cases h
    exact mergeList_of_mergePage_error hpage
  | case2 => cases h
  | case3 start p b p₁ next b₁ hpage ih =>
    obtain ⟨hmerge, hnext⟩ := mergeList_of_mergePage hpage
    obtain ⟨hsplit, -⟩ := toCome_of_nextStart?_eq_some hnext
    -- The page is merged, and the failure is among the entries behind it.
    obtain ⟨done, rest, p₂, s₂, hcome, hdone, hcommitted⟩ := ih h
    rw [toCome_mergeList hmerge] at hcome
    refine ⟨pageOf config start b.store.view ++ done, rest, p₂, s₂, ?_, ?_, hcommitted⟩
    · rw [hsplit, hcome, List.append_assoc]
    · rw [mergeList_append_ok hmerge]
      exact hdone

end Backfill

end TxIndex
