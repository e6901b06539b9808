import TxIndex.Proofs.Backfill.Opening

/-!
# Records that are listed already

A record is listed when the batch of its height has its transaction. A merge lists the records it
merges and keeps those that were listed (`listed_of_mergeAll`, `Listed.mergeAll`), whichever codecs
have been used. A backfill over listed records finds nothing but duplicates, and writes nothing but
markers (`mergeList_of_listed`, `exists_runs_run_of_listed`).
-/

namespace TxIndex

namespace Backfill

/-- Read by one codec, the record holds a transaction that the batch of its height, read by another
codec, has too. -/
def ListedBy (codec codec' : Codec) (t : Table) (e : Entry) : Prop :=
  ∃ item batch, readItem codec e = .ok item ∧ batchAt codec' t item.record.height = .ok batch ∧
    hasId batch item.tx.id = true

/-- By some codec and some codec: the one that had written the record may know other versions than
the one that had written the batch. -/
def Listed (t : Table) (e : Entry) : Prop :=
  ∃ codec codec', ListedBy codec codec' t e

/-- The codec knows the versions of a record and of the batch of its height. -/
structure KnowsVersions (codec : Codec) (t : Table) (e : Entry) : Prop where
  record : ∀ record, Record.decode e.value = .ok record → codec.Knows record.payload
  batch : ∀ record bytes, Record.decode e.value = .ok record →
    t.get? (Key.height record.height) = some bytes → codec.Knows bytes

variable {codec codec' : Codec} {version : UInt16} {t t' : Table} {e : Entry}

/-! ## Batches under two codecs -/

/-- Two codecs that can read a batch read the same transactions from it. The body tells them, and
the codec only decides whether the version in front is known. -/
theorem batchAt_inj {h : Height} {batch batch' : List Transaction}
    (hbatch : batchAt codec t h = .ok batch) (hbatch' : batchAt codec' t h = .ok batch') :
    batch = batch' := by
  unfold batchAt at hbatch hbatch'
  cases hget : t.get? (Key.height h) with
  | none =>
    rw [hget] at hbatch hbatch'
    cases hbatch
    cases hbatch'
    rfl
  | some bytes =>
    simp only [hget, Except.mapError_eq_ok_iff] at hbatch hbatch'
    exact Codec.unmarshal_inj hbatch hbatch'

/-- What one codec has read, another one reads as well if it knows the version. -/
theorem batchAt_of_knows {h : Height} {batch : List Transaction}
    (hbatch : batchAt codec t h = .ok batch)
    (hknows : ∀ bytes, t.get? (Key.height h) = some bytes → codec'.Knows bytes) :
    batchAt codec' t h = .ok batch := by
  unfold batchAt at hbatch ⊢
  cases hget : t.get? (Key.height h) with
  | none =>
    rw [hget] at hbatch
    exact hbatch
  | some bytes =>
    simp only [hget, Except.mapError_eq_ok_iff] at hbatch ⊢
    exact Codec.unmarshal_of_knows hbatch (hknows bytes hget)

/-! ## What keeps a record listed -/

/-- A record is listed by whichever codec knows the versions. It may have been listed by the codec
of an earlier run, and the batch by another one. -/
theorem Listed.listedBy (h : Listed t e) (hknows : KnowsVersions codec t e) :
    ListedBy codec codec t e := by
  obtain ⟨c, c', item, batch, hitem, hbatch, hid⟩ := h
  obtain ⟨hcursor, hrecord, htx⟩ := readItem_eq_ok_iff.1 hitem
  refine ⟨item, batch, readItem_eq_ok_iff.2 ⟨hcursor, hrecord, ?_⟩, ?_, hid⟩
  · exact Codec.unmarshal_of_knows htx (hknows.record _ hrecord)
  · exact batchAt_of_knows hbatch fun bytes hget => hknows.batch _ bytes hrecord hget

/-- Whether a record is listed is told by its batch alone. -/
theorem ListedBy.congr (h : ListedBy codec codec' t e)
    (heq : ∀ height, t'.get? (Key.height height) = t.get? (Key.height height)) :
    ListedBy codec codec' t' e := by
  obtain ⟨item, batch, hitem, hbatch, hid⟩ := h
  exact ⟨item, batch, hitem, batchAt_congr (heq _) ▸ hbatch, hid⟩

theorem ListedBy.insert_marker {value : Bytes} (h : ListedBy codec codec' t e) :
    ListedBy codec codec' (t.insert Key.marker value) e :=
  h.congr fun height => by rw [Table.get?_insert, if_neg (Key.height_ne_marker height).symm]

theorem Listed.insert_marker {value : Bytes} (h : Listed t e) :
    Listed (t.insert Key.marker value) e := by
  obtain ⟨c, c', h⟩ := h
  exact ⟨c, c', h.insert_marker⟩

/-- Batches only grow: a record that is merged keeps what was in the batch of its height, and leaves
the batches of the other heights. -/
theorem Listed.mergeInto {other : Entry} (h : Listed t e)
    (hmerge : mergeInto codec version t other = .ok t') : Listed t' e := by
  obtain ⟨c, c', item, batch, hitem, hbatch, hid⟩ := h
  obtain ⟨item', batch?, -, hext, rfl⟩ := mergeInto_eq_ok_iff.1 hmerge
  obtain ⟨found, hfound, hcase⟩ := extension_eq_ok_iff.1 hext
  split at hcase
  · subst hcase
    exact ⟨c, c', item, batch, hitem, hbatch, hid⟩
  · obtain ⟨bytes, hbytes, rfl⟩ := hcase
    by_cases hh : item.record.height = item'.record.height
    · -- The longer batch is read by the codec that has written it.
      rw [hh] at hbatch
      obtain rfl := batchAt_inj hbatch hfound
      refine ⟨c, codec, item, batch ++ [item'.tx], hitem, ?_, ?_⟩
      · rw [hh]
        exact batchAt_insert_of_marshal hbytes
      · rw [hasId_append, hid, Bool.true_or]
    · refine ⟨c, c', item, batch, hitem, ?_, hid⟩
      rw [batchAt_congr (get?_extend_of_ne fun heq => hh (Key.height_inj.1 heq))]
      exact hbatch

theorem Listed.mergeAll {entries : List Entry} (h : Listed t e)
    (hmerge : mergeAll codec version t entries = .ok t') : Listed t' e :=
  mergeAll_induct (P := (Listed · e)) (fun _ _ _ hu hone => hu.mergeInto hone) h hmerge

/-- A record that has just been merged is listed: its transaction was there, or has been
appended. -/
theorem listed_of_mergeInto (h : mergeInto codec version t e = .ok t') : Listed t' e := by
  obtain ⟨item, batch?, hitem, hext, rfl⟩ := mergeInto_eq_ok_iff.1 h
  obtain ⟨batch, hbatch, hcase⟩ := extension_eq_ok_iff.1 hext
  by_cases hid : hasId batch item.tx.id = true
  · rw [if_pos hid] at hcase
    subst hcase
    exact ⟨codec, codec, item, batch, hitem, hbatch, hid⟩
  · rw [if_neg hid] at hcase
    obtain ⟨bytes, hbytes, rfl⟩ := hcase
    refine ⟨codec, codec, item, _, hitem, batchAt_insert_of_marshal hbytes, ?_⟩
    rw [hasId_append, beq_self_eq_true, Bool.or_true]

/-- A merge leaves all of its records listed: each is listed when it has been merged, and the merge
of the others keeps it so. -/
theorem listed_of_mergeAll {entries : List Entry}
    (h : mergeAll codec version t entries = .ok t') : ∀ e ∈ entries, Listed t' e := by
  induction entries generalizing t with
  | nil => exact fun e he => absurd he List.not_mem_nil
  | cons first entries ih =>
    obtain ⟨t₁, hone, hrest⟩ := mergeAll_cons_eq_ok_iff.1 h
    intro e he
    rcases List.mem_cons.1 he with rfl | he
    · exact (listed_of_mergeInto hone).mergeAll hrest
    · exact ih hrest e he

/-! ## Which records are listed while a table is built -/

/-- All records before a key are listed. -/
def ListedBefore (start : Bytes) (t : Table) : Prop :=
  ∀ e ∈ toCome (Space.txById.key []) t, e.key < start → Listed t e

/-- All records of the table are listed. -/
def AllListed (t : Table) : Prop :=
  ∀ e ∈ toCome (Space.txById.key []) t, Listed t e

/-- The entries to come are the stored records that are not before the start. -/
theorem mem_toCome_iff {start : Bytes} :
    e ∈ toCome start t ↔
      t.get? e.key = some e.value ∧ ¬ e.key < start ∧ Space.txById.tag <+: e.key := by
  unfold toCome
  rw [Table.mem_listing_iff, Table.mem_entries_iff]

/-- The records from the first key on are all there are. -/
theorem mem_toCome_first_iff :
    e ∈ toCome (Space.txById.key []) t ↔
      t.get? e.key = some e.value ∧ Space.txById.tag <+: e.key := by
  rw [mem_toCome_iff]
  refine ⟨fun h => ⟨h.1, h.2.2⟩, fun h => ⟨h.1, ?_, h.2⟩⟩
  rw [Space.key, List.append_nil]
  exact Bytes.not_lt_of_prefix h.2

/-- A record stands before the start, or is still to come. These are the two ways in which it gets
listed: it was merged before, or will be now. -/
theorem lt_or_mem_toCome {start : Bytes} (h : e ∈ toCome (Space.txById.key []) t) :
    e.key < start ∨ e ∈ toCome start t := by
  obtain ⟨hget, htag⟩ := mem_toCome_first_iff.1 h
  by_cases hlt : e.key < start
  · exact .inl hlt
  · exact .inr (mem_toCome_iff.2 ⟨hget, hlt, htag⟩)

theorem listedBefore_first (t : Table) : ListedBefore (Space.txById.key []) t :=
  fun _ he hlt => absurd hlt (mem_toCome_iff.1 he).2.1

/-- At a checkpoint, all records before the cursor are listed. Those before the start were listed,
and those from there up to the cursor have been merged. -/
theorem Checkpointed.listedBefore {start : Bytes} {upto rest : List Entry} {last : Entry}
    {cursor : TxId} {u : Table}
    (h : Checkpointed codec version t start upto last rest cursor u t')
    (hbefore : ListedBefore start t) : ListedBefore (Key.tx cursor) t' := by
  have hcome : toCome (Space.txById.key []) t' = toCome (Space.txById.key []) t := by
    rw [h.marked, markedAt, toCome_insert_marker, toCome_mergeAll h.merged]
  intro e he hlt
  rw [hcome] at he
  rw [h.marked]
  refine Listed.insert_marker ?_
  rcases lt_or_mem_toCome he with hstart | hmem
  · exact (hbefore e he hstart).mergeAll h.merged
  · refine listed_of_mergeAll h.merged e ?_
    have hasc := Table.ascending_listing start Space.txById.tag t
    change (toCome start t).Pairwise _ at hasc
    rw [h.come] at hmem hasc
    rw [List.append_cons, List.mem_append] at hmem
    refine hmem.resolve_right fun hrest => ?_
    -- What stands behind the record of the checkpoint is not before the cursor.
    have hbehind : last.key < e.key :=
      (List.pairwise_cons.1 (List.pairwise_append.1 hasc).2.1).1 e hrest
    rw [h.key] at hbehind
    exact Bytes.lt_asymm hlt hbehind

/-- A merge that has come to its end leaves all records listed: those before the start were, and the
others have been merged. -/
theorem allListed_of_mergeAll {start : Bytes} (hbefore : ListedBefore start t)
    (hmerge : Backfill.mergeAll codec version t (toCome start t) = .ok t') : AllListed t' := by
  intro e he
  rw [toCome_mergeAll hmerge] at he
  rcases lt_or_mem_toCome he with hstart | hmem
  · exact (hbefore e he hstart).mergeAll hmerge
  · exact listed_of_mergeAll hmerge e hmem

theorem AllListed.insert_marker {value : Bytes} (h : AllListed t) :
    AllListed (t.insert Key.marker value) := by
  intro e he
  rw [toCome_insert_marker] at he
  exact (h e he).insert_marker

/-! ## A backfill over listed records -/

variable {s : Store}

theorem extension_of_listed (version : UInt16) (h : ListedBy codec codec t e) :
    ∃ item, readItem codec e = .ok item ∧
      extension codec version t item.record.height item.tx = .ok none := by
  obtain ⟨item, batch, hitem, hbatch, hid⟩ := h
  exact ⟨item, hitem, extension_eq_ok_iff.2 ⟨batch, hbatch, by rw [if_pos hid]⟩⟩

theorem advance_duplicate (config : Config) (item : Item) (p : Progress) :
    (advance config item none p).report.state = p.report.state ∧
      (advance config item none p).report.indexed = p.report.indexed ∧
      (advance config item none p).report.duplicates = p.report.duplicates + 1 := by
  unfold advance
  split <;> exact ⟨rfl, rfl, rfl⟩

/-- A duplicate writes no batch, so the view stays or gets the marker of a checkpoint. -/
theorem view_settle_duplicate (config : Config) (item : Item) (p : Progress) (s : Store) :
    (settle config item none p s).view = s.view ∨
      (settle config item none p s).view =
        s.view.insert Key.marker (Marker.inProgress item.cursor).encode := by
  rw [view_settle]
  split
  · exact .inr rfl
  · exact .inl rfl

/-- Every listed record is a duplicate, and of what the handle reads nothing but the marker
changes. -/
theorem mergeList_of_listed (config : Config) (p : Progress) {entries : List Entry}
    (h : ∀ e ∈ entries, ListedBy codec codec s.view e) :
    ∃ p' s', mergeList codec config entries p s = (.ok p', s') ∧
      p'.report.state = p.report.state ∧ p'.report.indexed = p.report.indexed ∧
      p'.report.duplicates = p.report.duplicates + entries.length ∧
      ∀ value, s'.view.insert Key.marker value = s.view.insert Key.marker value := by
  induction entries generalizing p s with
  | nil => exact ⟨p, s, rfl, rfl, rfl, rfl, fun _ => rfl⟩
  | cons e entries ih =>
    obtain ⟨item, hitem, hext⟩ := extension_of_listed config.codecVersion (h e List.mem_cons_self)
    obtain ⟨hstate, hindexed, hduplicates⟩ := advance_duplicate config item p
    have hview := view_settle_duplicate config item p s
    -- The records behind stay listed, whether a checkpoint is made or not.
    have hrest : ∀ d ∈ entries, ListedBy codec codec (settle config item none p s).view d := by
      intro d hd
      have hlisted := h d (List.mem_cons_of_mem _ hd)
      rcases hview with hview | hview <;> rw [hview]
      · exact hlisted
      · exact hlisted.insert_marker
    -- And another marker on top hides the one of a checkpoint.
    have hsame (value : Bytes) : (settle config item none p s).view.insert Key.marker value =
        s.view.insert Key.marker value := by
      rcases hview with hview | hview <;> rw [hview]
      exact Table.insert_insert ..
    obtain ⟨p', s', hmerge, hstate', hindexed', hduplicates', hview'⟩ := ih _ hrest
    refine ⟨p', s', ?_, hstate'.trans hstate, hindexed'.trans hindexed, ?_, fun value => ?_⟩
    · rw [mergeList_cons, mergeOne_of_extension hitem hext]
      exact hmerge
    · rw [hduplicates', hduplicates, List.length_cons]
      omega
    · rw [hview', hsame]

/-- A backfill that goes on from a cursor behind which all records are listed counts them, and
changes nothing but the marker. -/
theorem exists_runs_run_of_listed {bytes : Bytes} {cursor : TxId} (config : Config)
    (lastAccepted : Height)
    (hget : s.view.get? Key.marker = some bytes)
    (hdecode : Marker.decode bytes = .ok (.inProgress cursor))
    (h : ∀ e ∈ toCome (Key.tx cursor) s.view, ListedBy codec codec s.view e) :
    ∃ report s', Access.Runs (run codec config lastAccepted) s (.ok report) s' ∧
      report.state = .resuming cursor ∧ report.indexed = 0 ∧
      report.duplicates = (toCome (Key.tx cursor) s.view).length ∧ s'.staged = .empty ∧
      s'.committed = s.view.insert Key.marker (Marker.complete lastAccepted).encode := by
  obtain ⟨p', s', hmerge, hstate, hindexed, hduplicates, hview⟩ :=
    mergeList_of_listed config { report := { state := .resuming cursor } } h
  have hruns := runs_run_of_mergeList lastAccepted (runs_readMarker_some hget hdecode) rfl hmerge
  refine ⟨_, _, hruns, hstate, hindexed, ?_, rfl, ?_⟩
  · rw [hduplicates, Nat.zero_add]
  · show (s'.put Key.marker _).view = _
    rw [Store.view_put, hview]

end Backfill

end TxIndex
