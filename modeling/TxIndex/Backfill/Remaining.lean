import TxIndex.Backfill.Closed
import TxIndex.Store.Lemmas

/-!
# Why a backfill ends

A backfill reads the index by id page by page and writes to the store between the pages. It ends
because what it writes are batches and the marker, never keys of the index by id
(`keeps_txEntries_mergePage`), so each full page leaves fewer entries to come
(`remaining_lt_of_mergePage`).
-/

namespace TxIndex.Backfill

/-- The entries of the index by id that a handle reads. -/
def txEntries (s : Store) : List Entry :=
  s.view.entries.filter fun e => Space.txById.tag.isPrefixOf e.key

/-- How many of them have a key from `start` on. -/
def remaining (start : Bytes) (s : Store) : Nat :=
  ((txEntries s).filter fun e => !decide (e.key < start)).length

/-! ## What is written -/

/-- A write under another tag leaves the entries by id. -/
theorem txEntries_put_of_not_prefix {s : Store} {key value : Bytes}
    (h : Space.txById.tag.isPrefixOf key = false) : txEntries (s.put key value) = txEntries s := by
  unfold txEntries
  rw [Store.view_put]
  exact Table.filter_entries_insert _ _ _ _ h fun e he => by rw [he, h]

/-- No call of a merge reaches the index by id: the keys that it writes are heights and the marker.
So the records that are still to come do not change while others are merged. -/
theorem ofCalls_keeps_txEntries (codec : Codec) (version : UInt16) :
    OfCalls (fun _ => Access.Keeps txEntries) codec version where
  toClosed := Access.Keeps.closed
  getBatch _ := .get _
  putBatch _ := .put fun _ => txEntries_put_of_not_prefix rfl
  putMarker _ := .put fun _ => txEntries_put_of_not_prefix rfl
  commit := .commit fun _ => rfl

/-- A page of the backfill leaves the index by id as it was. This is why the pages to come can be
counted before they are read. -/
theorem keeps_txEntries_mergePage (codec : Codec) (config : Config) (start : Bytes)
    (p : Progress) : Access.Keeps txEntries (mergePage codec config start p) :=
  (ofCalls_keeps_txEntries codec _).mergePage (fun _ _ => .scan _ _ _) start p

/-! ## What is left to come -/

/-- Behind an entry there is less to come than from the start on: that entry is missing. The keys
behind it are those from its successor on. -/
theorem remaining_successor_lt {s : Store} {start : Bytes} {e : Entry}
    (hmem : e ∈ txEntries s) (hstart : ¬ e.key < start) :
    remaining (Key.successor e.key) s < remaining start s := by
  have hlt : e.key < Key.successor e.key := Bytes.lt_append_cons e.key 0 []
  -- What lies behind the key is part of what lies behind the start, and the key is not in it.
  have hsub : (txEntries s).filter (fun d => !decide (d.key < Key.successor e.key)) =
      ((txEntries s).filter fun d => !decide (d.key < start)).filter
        fun d => !decide (d.key < Key.successor e.key) := by
    rw [List.filter_filter]
    refine List.filter_congr fun d _ => ?_
    by_cases hd : d.key < start
    · have hdlt : d.key < Key.successor e.key :=
        Bytes.lt_trans (Bytes.lt_of_lt_of_not_lt hd hstart) hlt
      simp [hd, hdlt]
    · simp [hd]
  unfold remaining
  rw [hsub, List.length_filter_lt_length_iff_exists]
  exact ⟨e, List.mem_filter.2 ⟨hmem, by simp [hstart]⟩, by simp [hlt]⟩

/-- A full page leaves fewer entries to come. This is why a backfill comes to an end, with whatever
faults: a page that is not full is the last one. -/
theorem remaining_lt_of_mergePage {codec : Codec} {config : Config} {start next : Bytes}
    {p p' : Progress} {faults : Faults} {b b' : Backend}
    (h : mergePage codec config start p faults b = .ok (p', some next) b') :
    remaining next b'.store < remaining start b.store := by
  -- Whatever the page has written, the entries by id are those that were there before.
  have hkeep := keeps_txEntries_mergePage codec config start p faults b
  simp only [Access.after, h] at hkeep
  have hremaining : remaining next b'.store = remaining next b.store :=
    congrArg (fun entries => (entries.filter fun e => !decide (e.key < next)).length) hkeep
  rw [hremaining]
  -- It remains to see that the last key of the page is one of them.
  unfold mergePage at h
  rw [Access.bind_apply] at h
  unfold Access.scan Access.callStore at h
  cases hfault : faults.store .scan (b.calls.store .scan) with
  | some e => simp [hfault] at h
  | none =>
    simp only [hfault] at h
    rw [Access.bind_apply] at h
    split at h
    · next p₁ b₁ _ =>
      simp only [Access.pure_apply, EStateM.Result.ok.injEq, Prod.mk.injEq] at h
      have hnext := h.1.2
      split at hnext
      · cases hnext
      · obtain ⟨e, he, rfl⟩ := Option.map_eq_some_iff.1 hnext
        obtain ⟨⟨value, hentry⟩, hge, hpre⟩ :=
          Store.mem_view_of_mem_scan (List.mem_of_getLast? he)
        refine remaining_successor_lt (e := ⟨e.key, value⟩) ?_ hge
        exact List.mem_filter.2 ⟨hentry, List.isPrefixOf_iff_prefix.2 hpre⟩
    · cases h

end TxIndex.Backfill
