import TxIndex.Proofs.Repository.History

/-!
# A visible marker means whole heights

Every height has its transactions, all under ids of their own, and whoever writes the height writes
these. A write stages the records first, the batch behind them and the marker last. So whatever
fails, and even if what a failed write has staged is committed, a batch that can be seen has all of
its records beside it, and a marker that can be seen has its batch (`WholeHeights`).
-/

namespace TxIndex

/-- No id occurs twice, neither in the list of one height nor in those of two. -/
structure DistinctIds (accepted : Height → List Transaction) : Prop where
  within : ∀ height, ((accepted height).map Transaction.id).Nodup
  across : ∀ height height', ∀ tx ∈ accepted height, ∀ tx' ∈ accepted height', tx.id = tx'.id →
    height = height'

/-- The table holds nothing but transactions of their heights; where it has a batch it has all the
records, and where it has a marker it has the batch. -/
structure WholeHeights (codec : Codec) (accepted : Height → List Transaction) (initial : Height)
    (t : Table) : Prop where
  record : ∀ key value, Space.txById.tag <+: key → t.get? key = some value →
    ∃ height, ∃ tx ∈ accepted height, key = Key.tx tx.id ∧ readStored codec value = .ok (tx, height)
  batch : ∀ key value, Space.txsByHeight.tag <+: key → t.get? key = some value →
    ∃ height, key = Key.height height ∧ codec.unmarshal value = .ok (accepted height) ∧
      ∀ tx ∈ accepted height, ∃ stored, t.get? (Key.tx tx.id) = some stored ∧
        readStored codec stored = .ok (tx, height)
  marker : ∃ height, t.get? Key.marker = some (Marker.complete height).encode ∧
    (height = initial ∨ t.get? (Key.height height) ≠ none)

variable {codec : Codec} {accepted : Height → List Transaction} {initial height : Height}
  {t : Table} {value : Bytes}

/-- An id tells its transaction and its height. -/
theorem DistinctIds.eq_of_id_eq {height' : Height} {tx tx' : Transaction}
    (h : DistinctIds accepted) (htx : tx ∈ accepted height) (htx' : tx' ∈ accepted height')
    (hid : tx.id = tx'.id) : tx = tx' ∧ height = height' := by
  obtain rfl := h.across height height' tx htx tx' htx' hid
  exact ⟨List.inj_on_of_nodup_map (h.within height) htx htx' hid, rfl⟩

/-! ## One entry -/

namespace WholeHeights

/-- A record present under the id of a transaction is the record of that transaction. -/
theorem readStored_of_get? {tx : Transaction} (h : WholeHeights codec accepted initial t)
    (hdistinct : DistinctIds accepted) (htx : tx ∈ accepted height)
    (hget : t.get? (Key.tx tx.id) = some value) : readStored codec value = .ok (tx, height) := by
  obtain ⟨height', tx', htx', hkey, hread⟩ := h.record _ value (List.prefix_append ..) hget
  obtain ⟨rfl, rfl⟩ := hdistinct.eq_of_id_eq htx htx' (Key.tx_inj.1 hkey)
  exact hread

/-- A record may be staged at any time. If it comes over one that is there, both are of one
transaction, so a batch that can be seen still has all of its records. -/
theorem insert_record {tx : Transaction} (h : WholeHeights codec accepted initial t)
    (hdistinct : DistinctIds accepted) (htx : tx ∈ accepted height)
    (hread : readStored codec value = .ok (tx, height)) :
    WholeHeights codec accepted initial (t.insert (Key.tx tx.id) value) := by
  refine ⟨fun key found htag hget => ?_, fun key found htag hget => ?_, ?_⟩
  · rw [Table.get?_insert] at hget
    split at hget
    · next hkey =>
      cases hget
      exact ⟨height, tx, htx, hkey.symm, hread⟩
    · exact h.record key found htag hget
  · have hkey : Key.tx tx.id ≠ key := Space.key_ne_of_tagged (by decide) htag
    rw [Table.get?_insert, if_neg hkey] at hget
    obtain ⟨height', rfl, hbatch, hall⟩ := h.batch key found htag hget
    refine ⟨height', rfl, hbatch, fun tx' htx' => ?_⟩
    rw [Table.get?_insert]
    split
    · next hid =>
      -- The record of a batch is put once more: an id belongs to one transaction at one height.
      obtain ⟨rfl, rfl⟩ := hdistinct.eq_of_id_eq htx htx' (Key.tx_inj.1 hid)
      exact ⟨value, rfl, hread⟩
    · exact hall tx' htx'
  · obtain ⟨height', hmarker, hbatch⟩ := h.marker
    refine ⟨height', ?_, ?_⟩
    · rw [Table.get?_insert, if_neg (Key.tx_ne_marker _)]
      exact hmarker
    · rw [Table.get?_insert, if_neg (Key.tx_ne_height _ _)]
      exact hbatch

/-- A batch comes after its records, which are those of the accepted list by then. -/
theorem insert_batch (h : WholeHeights codec accepted initial t) (hdistinct : DistinctIds accepted)
    (hrecords : ∀ tx ∈ accepted height, ∃ stored, t.get? (Key.tx tx.id) = some stored)
    (hread : codec.unmarshal value = .ok (accepted height)) :
    WholeHeights codec accepted initial (t.insert (Key.height height) value) := by
  have hids (id : TxId) : (t.insert (Key.height height) value).get? (Key.tx id) =
      t.get? (Key.tx id) := by
    rw [Table.get?_insert, if_neg (Key.tx_ne_height id height).symm]
  refine ⟨fun key found htag hget => ?_, fun key found htag hget => ?_, ?_⟩
  · have hkey : Key.height height ≠ key := Space.key_ne_of_tagged (by decide) htag
    rw [Table.get?_insert, if_neg hkey] at hget
    exact h.record key found htag hget
  · simp only [hids]
    rw [Table.get?_insert] at hget
    split at hget
    · next hkey =>
      cases hget
      refine ⟨height, hkey.symm, hread, fun tx htx => ?_⟩
      -- Its records are there by hypothesis, and the invariant says what is in them.
      obtain ⟨stored, hstored⟩ := hrecords tx htx
      exact ⟨stored, hstored, h.readStored_of_get? hdistinct htx hstored⟩
    · exact h.batch key found htag hget
  · obtain ⟨height', hmarker, hbatch⟩ := h.marker
    refine ⟨height', ?_, hbatch.imp_right fun hpresent => ?_⟩
    · rw [Table.get?_insert, if_neg (Key.height_ne_marker _)]
      exact hmarker
    · rw [Table.get?_insert]
      split
      · exact Option.some_ne_none _
      · exact hpresent

/-- A marker comes after its batch. -/
theorem insert_marker (h : WholeHeights codec accepted initial t)
    (hbatch : t.get? (Key.height height) ≠ none) :
    WholeHeights codec accepted initial
      (t.insert Key.marker (Marker.complete height).encode) := by
  refine ⟨fun key found htag hget => ?_, fun key found htag hget => ?_, height, ?_, .inr ?_⟩
  · have hkey : Key.marker ≠ key := Space.key_ne_of_tagged (by decide) htag
    rw [Table.get?_insert, if_neg hkey] at hget
    exact h.record key found htag hget
  · have hkey : Key.marker ≠ key := Space.key_ne_of_tagged (by decide) htag
    rw [Table.get?_insert, if_neg hkey] at hget
    simp only [Table.get?_insert, if_neg (Key.tx_ne_marker _).symm]
    exact h.batch key found htag hget
  · exact Table.get?_insert_self ..
  · rw [Table.get?_insert, if_neg (Key.height_ne_marker _).symm]
    exact hbatch

/-! ## A write -/

variable {r : Repository}

theorem insertAll_records {txs : List Transaction} (h : WholeHeights r.codec accepted initial t)
    (hdistinct : DistinctIds accepted) (haccepts : r.Accepts (accepted height))
    (htxs : txs ⊆ accepted height) :
    WholeHeights r.codec accepted initial (t.insertAll (txs.map (r.recordEntry height))) := by
  refine Table.insertAll_induct (fun u e he hu => ?_) h
  obtain ⟨tx, htx, rfl⟩ := List.mem_map.1 he
  refine hu.insert_record hdistinct (htxs htx) ?_
  exact Repository.readStored_recordEntry haccepts.version (haccepts.payloads tx (htxs htx))

/-- However many of its entries a write has staged, what is visible is whole. A beginning of them is
some of the records, all of the records and the batch, or everything, and these are the three steps
above. -/
theorem insertAll_take (h : WholeHeights r.codec accepted initial t)
    (hdistinct : DistinctIds accepted) (haccepts : r.Accepts (accepted height)) (k : Nat) :
    WholeHeights r.codec accepted initial
      (t.insertAll ((r.stagedEntries height (accepted height)).take k)) := by
  have hrecords := h.insertAll_records hdistinct haccepts (List.Subset.refl _)
  have hpresent : ∀ tx ∈ accepted height, ∃ stored,
      (t.insertAll ((accepted height).map (r.recordEntry height))).get? (Key.tx tx.id) =
        some stored :=
    fun tx htx => Table.exists_get?_insertAll ⟨_, List.mem_map_of_mem htx, rfl⟩
  have hbatch : WholeHeights r.codec accepted initial
      ((t.insertAll ((accepted height).map (r.recordEntry height))).insert (Key.height height)
        (r.batchEntry height (accepted height)).value) :=
    hrecords.insert_batch hdistinct hpresent (Repository.unmarshal_batchEntry haccepts)
  have hmarker := hbatch.insert_marker (by rw [Table.get?_insert_self]; exact Option.some_ne_none _)
  -- A beginning ends among the records, behind the batch, or behind the marker.
  rcases r.take_stagedEntries height (accepted height) k with htake | htake | htake
  · rw [htake]
    exact h.insertAll_records hdistinct haccepts (List.take_subset k _)
  · rw [htake, Table.insertAll_append]
    exact hbatch
  · rw [htake, Repository.stagedEntries, Table.insertAll_append]
    exact hmarker

/-- The marker that is visible is a complete one, so opening does nothing to such a table. -/
theorem exists_completeThrough (h : WholeHeights codec accepted initial t) :
    ∃ height, Backfill.CompleteThrough t height := by
  obtain ⟨height, hmarker, -⟩ := h.marker
  exact ⟨height, _, hmarker, Marker.decode_encode _⟩

/-- At first there is the marker of the first opening, and nothing else. -/
theorem insert_marker_empty (codec : Codec) (accepted : Height → List Transaction)
    (initial : Height) :
    WholeHeights codec accepted initial
      (Table.empty.insert Key.marker (Marker.complete initial).encode) := by
  refine ⟨fun key found htag hget => ?_, fun key found htag hget => ?_, initial,
    Table.get?_insert_self .., .inl rfl⟩
  · rw [Repository.get?_insert_marker_empty _ (by decide) htag] at hget
    cases hget
  · rw [Repository.get?_insert_marker_empty _ (by decide) htag] at hget
    cases hget

end WholeHeights

/-! ## Histories -/

/-- Writes are of the transactions of their heights, repositories are opened with the one codec, and
nobody else commits. -/
def Event.Follows (codec : Codec) (accepted : Height → List Transaction) : Event → Prop
  | .write height txs => txs = accepted height
  | .opening codec' _ _ => codec' = codec
  | .foreign _ => False
  | .commit | .abort | .crash => True

/-- Every event keeps heights whole. A write does so however far it has come, which is
`insertAll_take`; the others stage nothing. -/
theorem Event.keeps_wholeHeights {event : Event} (hdistinct : DistinctIds accepted)
    (h : event.Follows codec accepted) :
    event.Keeps (fun r => r.codec = codec) (WholeHeights codec accepted initial) := by
  cases event with
  | write height txs =>
    intro r hr haccepts k t ht
    subst hr h
    exact ht.insertAll_take hdistinct haccepts k
  | opening codec' config lastAccepted => exact fun _ => h
  | foreign staged => exact absurd h id
  | commit | abort | crash => trivial

namespace Repository

/-- **A visible marker means whole heights.** A repository has been opened on an empty store, and
from then on every height is written with its own transactions, which have ids of their own. Then at
every moment, whichever calls fail and whether or not failed writes are committed, both what the
handle reads and what is committed consist of whole heights. -/
theorem wholeHeights_of_run {config : Config} {faults faults' : Faults} {calls : Calls}
    {r : Repository} {b : Backend} {events : List Event} (hdistinct : DistinctIds accepted)
    (hopen : openStore codec config initial faults ⟨{}, calls⟩ = .ok r b)
    (hevents : ∀ event ∈ events, event.Follows codec accepted) :
    (Service.run faults' events ⟨some r, b⟩).store.Throughout
      (WholeHeights codec accepted initial) := by
  obtain ⟨hstaged, hcommitted⟩ := committed_of_openStore_empty hopen
  obtain ⟨report, -, hr⟩ := openStore_eq_ok_iff.1 hopen
  -- Behind the opening there is just a marker, at the height the index began with.
  have hstart : (Service.mk (some r) b).Holds (fun r => r.codec = codec)
      (WholeHeights codec accepted initial) := by
    refine ⟨fun r' heq => ?_, .of_staged_empty hstaged ?_⟩
    · cases heq
      rw [hr]
    · show WholeHeights codec accepted initial b.store.committed
      rw [hcommitted]
      exact .insert_marker_empty codec accepted initial
  exact (hstart.run (fun _ h => h.exists_completeThrough)
    fun event hmem => Event.keeps_wholeHeights hdistinct (hevents event hmem)).store

/-- The put of a batch fails, the records staged before it are committed without it, and after a
crash the height is written again. -/
theorem wholeHeights_of_run_after_retry :
    ∃ r b, openStore {} {} 9 Faults.none ⟨{}, {}⟩ = .ok r b ∧
      (Service.run
        { store := fun call n => if call = .put ∧ n = 3 then some (.io "full") else none }
        [.write 5 [Sample.tx 1, Sample.tx 2], .commit, .crash, .opening {} {} 1,
          .write 5 [Sample.tx 1, Sample.tx 2], .commit, .write 7 [], .abort]
        ⟨some r, b⟩).store.Throughout
          (WholeHeights {} (fun h => if h = 5 then [Sample.tx 1, Sample.tx 2] else []) 9) := by
  obtain ⟨report, b, hopen⟩ := exists_openStore_empty {} {} 9 {}
  refine ⟨_, b, hopen, wholeHeights_of_run ⟨fun height => ?_, fun height height' => ?_⟩ hopen ?_⟩
  · -- No list has an id twice, and only one of the lists has any.
    split
    · decide +kernel
    · exact List.nodup_nil
  · split <;> split
    · next h h' => exact fun _ _ _ _ _ => h.trans h'.symm
    all_goals simp
  · simp [Event.Follows]

end Repository

end TxIndex
