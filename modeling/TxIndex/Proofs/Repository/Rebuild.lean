import TxIndex.Proofs.Backfill.Newcomers
import TxIndex.Proofs.Repository.Answers

/-!
# Rebuilding the index by height from the records

A write puts the list of a height as a whole, a backfill appends one transaction after the other as
the records come in the order of their ids. Where no height and no id is written twice, both build
the same index up to the order within a height: what a backfill of the records alone has at a height
is the written list, sorted by id. Only heights with nothing in them are lost.
-/

namespace TxIndex

/-! ## Sorted by id -/

section Sorting

variable {α : Type} {f : α → TxId} {l l' : List α}

/-- The list in the order of the ids that `f` gives. -/
def sortBy (f : α → TxId) (l : List α) : List α :=
  l.mergeSort fun a b => !decide ((f b).val < (f a).val)

theorem mem_sortBy {a : α} : a ∈ sortBy f l ↔ a ∈ l :=
  List.mem_mergeSort

/-- Where no two have one id, sorting by id puts them in strictly ascending order. The sorting
itself gives ascending order, and equal neighbours would have the same id. -/
theorem ascending_sortBy (h : (l.map f).Nodup) :
    (sortBy f l).Pairwise fun a b => (f a).val < (f b).val := by
  have hsorted : (sortBy f l).Pairwise fun a b => (!decide ((f b).val < (f a).val)) = true := by
    -- The sort takes a Boolean order that is transitive and total.
    refine List.pairwise_mergeSort (fun a b c hab hbc => ?_) (fun a b => ?_) l
    · simp only [Bool.not_eq_true', decide_eq_false_iff_not] at hab hbc ⊢
      exact fun hca => hbc (Bytes.lt_of_lt_of_not_lt hca hab)
    · simp only [Bool.or_eq_true, Bool.not_eq_true', decide_eq_false_iff_not]
      exact or_iff_not_imp_left.2 fun hlt => Bytes.lt_asymm (not_not.1 hlt)
  -- It keeps the ids apart, so none of them is equal to the next.
  have hdistinct : (sortBy f l).Pairwise fun a b => f a ≠ f b := by
    have hperm : ((sortBy f l).map f).Perm (l.map f) := (List.mergeSort_perm l _).map f
    exact List.pairwise_map.1 (hperm.nodup_iff.2 h)
  refine hsorted.imp₂ (fun a b hle hne => ?_) hdistinct
  simp only [Bool.not_eq_true', decide_eq_false_iff_not] at hle
  by_contra hlt
  exact hne (Subtype.ext (Bytes.eq_of_not_lt hlt hle))

/-- Lists that ascend and have the same members are equal. -/
theorem eq_of_ascending (h : l.Pairwise fun a b => (f a).val < (f b).val)
    (h' : l'.Pairwise fun a b => (f a).val < (f b).val) (hmem : ∀ a, a ∈ l ↔ a ∈ l') : l = l' := by
  have hirrefl : Std.Irrefl fun a b : α => (f a).val < (f b).val := ⟨fun _ => Bytes.lt_irrefl _⟩
  have hantisymm : Std.Antisymm fun a b : α => (f a).val < (f b).val :=
    ⟨fun _ _ hlt hgt => absurd hgt (Bytes.lt_asymm hlt)⟩
  exact h.eq_of_mem_iff h' hmem

theorem nodup_of_ascending (h : l.Pairwise fun a b => (f a).val < (f b).val) :
    (l.map f).Nodup := by
  rw [List.nodup_iff_pairwise_ne, List.pairwise_map]
  exact h.imp fun hlt heq => Bytes.ne_of_lt hlt (congrArg Subtype.val heq)

end Sorting

namespace Repository

open Backfill

/-! ## Writes of distinct heights and ids -/

/-- Each transaction that is written, with its height. -/
def eachWritten (writes : List (Height × List Transaction)) : List (Height × Transaction) :=
  writes.flatMap fun w => w.2.map fun tx => (w.1, tx)

/-- No height is written twice, and no id, neither in the list of one height nor in those of two. -/
structure DistinctWrites (writes : List (Height × List Transaction)) : Prop where
  heights : (writes.map Prod.fst).Nodup
  ids : (writes.flatMap fun w => w.2.map Transaction.id).Nodup

/-- The repository has written the lists one after the other, and every write has succeeded. In
between it may have committed. -/
inductive Written (r : Repository) (s : Store) :
    List (Height × List Transaction) → Store → Prop where
  | nothing : Written r s [] s
  | write {s' : Store} {writes : List (Height × List Transaction)} {height : Height}
      {txs : List Transaction} {faults : Faults} {calls : Calls} {b : Backend}
      (h : Written r s writes s') (hwrite : r.write height txs faults ⟨s', calls⟩ = .ok () b) :
      Written r s (writes ++ [(height, txs)]) b.store
  | commit {s' : Store} {writes : List (Height × List Transaction)} (h : Written r s writes s') :
      Written r s writes s'.commit

variable {r : Repository} {s s' : Store} {writes : List (Height × List Transaction)} {t : Table}
  {height : Height} {txs : List Transaction}

theorem mem_eachWritten_iff {tx : Transaction} :
    (height, tx) ∈ eachWritten writes ↔ ∃ txs, (height, txs) ∈ writes ∧ tx ∈ txs := by
  unfold eachWritten
  simp only [List.mem_flatMap, List.mem_map, Prod.mk.injEq, Prod.exists]
  refine ⟨fun h => ?_, fun h => ?_⟩
  · obtain ⟨height, txs, hw, tx, htx, rfl, rfl⟩ := h
    exact ⟨txs, hw, htx⟩
  · obtain ⟨txs, hw, htx⟩ := h
    exact ⟨height, txs, hw, tx, htx, rfl, rfl⟩

theorem eachWritten_concat :
    eachWritten (writes ++ [(height, txs)]) =
      eachWritten writes ++ txs.map fun tx => (height, tx) := by
  simp [eachWritten]

theorem map_id_eachWritten (writes : List (Height × List Transaction)) :
    (eachWritten writes).map (fun p => p.2.id) =
      writes.flatMap fun w => w.2.map Transaction.id := by
  unfold eachWritten
  simp [List.map_flatMap, Function.comp_def]

namespace DistinctWrites

theorem nodup_each (h : DistinctWrites writes) :
    ((eachWritten writes).map fun p => p.2.id).Nodup :=
  map_id_eachWritten writes ▸ h.ids

theorem nodup_ids (h : DistinctWrites writes) (hw : (height, txs) ∈ writes) :
    (txs.map Transaction.id).Nodup :=
  (List.nodup_flatMap.1 h.ids).1 _ hw

/-- Only one list is written at a height. -/
theorem eq_of_mem {txs' : List Transaction} (h : DistinctWrites writes)
    (hw : (height, txs) ∈ writes) (hw' : (height, txs') ∈ writes) : txs = txs' :=
  (Prod.ext_iff.1 (List.inj_on_of_nodup_map h.heights hw hw' rfl)).2

end DistinctWrites

/-- All lists that have been written were acceptable. -/
theorem Written.accepts (h : Written r s writes s') : ∀ w ∈ writes, r.Accepts w.2 := by
  induction h with
  | nothing => exact fun w hw => absurd hw List.not_mem_nil
  | write _ hwrite ih =>
    intro w hw
    rcases List.mem_append.1 hw with hold | hnew
    · exact ih w hold
    · obtain rfl := List.mem_singleton.1 hnew
      exact (write_eq_ok hwrite).1
  | commit _ ih => exact ih

/-- The records that are stored are those of what has been written. By induction on the writes,
where the last one leaves the records of the others, for its ids are new. -/
theorem Written.get?_iff {e : Entry} (h : Written r s writes s')
    (hnone : ∀ key, Space.txById.tag <+: key → s.view.get? key = none)
    (hids : ((eachWritten writes).map fun p => p.2.id).Nodup) (htag : Space.txById.tag <+: e.key) :
    s'.view.get? e.key = some e.value ↔
      ∃ p ∈ eachWritten writes, r.recordEntry p.1 p.2 = e := by
  induction h with
  | nothing => simp [eachWritten, hnone e.key htag]
  | commit _ ih => exact ih hids
  | @write _ writes height txs _ _ _ _ hwrite ih =>
    obtain ⟨-, hstore⟩ := write_eq_ok hwrite
    rw [eachWritten_concat, List.map_append, List.map_map, List.nodup_append] at hids
    obtain ⟨hbefore, hnow, hcross⟩ := hids
    rw [hstore, Store.view_putAll, eachWritten_concat]
    refine ⟨fun hget => ?_, fun hp => ?_⟩
    · rcases record_or_get?_of_insertAll hget htag with ⟨tx, htx, rfl⟩ | hold
      · exact ⟨(height, tx), List.mem_append_right _ (List.mem_map_of_mem htx), rfl⟩
      · obtain ⟨p, hp, heq⟩ := (ih hbefore).1 hold
        exact ⟨p, List.mem_append_left _ hp, heq⟩
    · obtain ⟨p, hp, rfl⟩ := hp
      rcases List.mem_append.1 hp with hold | hnew
      · -- The write has not come over it, for its ids are others.
        have hne : ∀ tx ∈ txs, tx.id ≠ p.2.id := fun tx htx heq =>
          hcross p.2.id (List.mem_map_of_mem hold) tx.id (List.mem_map_of_mem htx) heq.symm
        show Table.get? _ (Key.tx p.2.id) = _
        rw [get?_tx_insertAll_of_ne hne]
        exact (ih hbefore).2 ⟨p, hold, rfl⟩
      · obtain ⟨tx, htx, rfl⟩ := List.mem_map.1 hnew
        exact get?_tx_insertAll hnow htx _

/-! ## The records alone -/

/-- The table of the records that have been written, in the order of their ids. Both sides ascend
and have the same members, so no more has to be known of how the table has come about. -/
theorem entries_filter_records (hids : ((eachWritten writes).map fun p => p.2.id).Nodup)
    (hget : ∀ e : Entry, Space.txById.tag <+: e.key → (t.get? e.key = some e.value ↔
      ∃ p ∈ eachWritten writes, r.recordEntry p.1 p.2 = e)) :
    (t.filter Space.txById.tag.isPrefixOf).entries =
      (sortBy (fun p => p.2.id) (eachWritten writes)).map fun p => r.recordEntry p.1 p.2 := by
  have hascending : ((sortBy (fun p => p.2.id) (eachWritten writes)).map
      fun p => r.recordEntry p.1 p.2).Pairwise Entry.Before := by
    rw [List.pairwise_map]
    exact (ascending_sortBy hids).imp fun hlt => Space.key_lt_key_iff.2 hlt
  -- Two ascending lists with the same members are equal.
  refine (t.filter _).ascending.eq_of_mem_iff hascending fun e => ?_
  rw [Table.mem_entries_filter, List.isPrefixOf_iff_prefix, List.mem_map, Table.mem_entries_iff]
  simp only [mem_sortBy]
  refine ⟨fun h => (hget e h.2).1 h.1, fun h => ?_⟩
  have htag : Space.txById.tag <+: e.key := by
    obtain ⟨p, -, rfl⟩ := h
    exact List.prefix_append ..
  exact ⟨(hget e htag).2 h, htag⟩

/-- In a table of records alone all entries are to come. -/
theorem toCome_filter_records (t : Table) :
    toCome (Space.txById.key []) (t.filter Space.txById.tag.isPrefixOf) =
      (t.filter Space.txById.tag.isPrefixOf).entries := by
  refine List.filter_eq_self.2 fun e he => ?_
  have htag : Space.txById.tag.isPrefixOf e.key = true := (Table.mem_entries_filter.1 he).2
  have hge : ¬ e.key < Space.txById.key [] := by
    rw [Space.key, List.append_nil]
    exact Bytes.not_lt_of_prefix (List.isPrefixOf_iff_prefix.1 htag)
  simp [Table.inRange, htag, hge]

/-- Without the other entries there is nothing in the other spaces. -/
theorem get?_filter_records_of_foreign {space : Space} {suffix : Bytes} (hne : space ≠ .txById)
    (t : Table) : (t.filter Space.txById.tag.isPrefixOf).get? (space.key suffix) = none := by
  rw [Table.get?_filter, if_neg]
  rw [List.isPrefixOf_iff_prefix, Space.tag_prefix_key_iff]
  exact hne.symm

/-! ## What a backfill makes of them -/

/-- The items of all records, in the order of their ids. -/
def itemsOf (r : Repository) (writes : List (Height × List Transaction)) : List Item :=
  (sortBy (fun p => p.2.id) (eachWritten writes)).map fun p => r.recordItem p.1 p.2

theorem mem_txsAt_itemsOf_iff {tx : Transaction} :
    tx ∈ txsAt (r.itemsOf writes) height ↔ (height, tx) ∈ eachWritten writes := by
  unfold txsAt itemsOf recordItem
  simp [mem_sortBy]

/-- At each height the transactions come in the order of their ids, as they do in all. -/
theorem ascending_txsAt_itemsOf (hids : ((eachWritten writes).map fun p => p.2.id).Nodup) :
    (txsAt (r.itemsOf writes) height).Pairwise fun a b => a.id.val < b.id.val := by
  unfold txsAt itemsOf
  rw [List.pairwise_map]
  refine List.Pairwise.filter _ ?_
  rw [List.pairwise_map]
  exact ascending_sortBy hids

/-- At a height stand the transactions written there, sorted by id. The order in which they were
written is lost; the records are read in the order of their keys. -/
theorem txsAt_itemsOf (hdistinct : DistinctWrites writes) (hw : (height, txs) ∈ writes) :
    txsAt (r.itemsOf writes) height = sortBy Transaction.id txs := by
  refine eq_of_ascending (ascending_txsAt_itemsOf hdistinct.nodup_each)
    (ascending_sortBy (hdistinct.nodup_ids hw)) fun tx => ?_
  rw [mem_txsAt_itemsOf_iff, mem_eachWritten_iff, mem_sortBy]
  refine ⟨fun h => ?_, fun h => ⟨txs, hw, h⟩⟩
  obtain ⟨txs', hw', htx⟩ := h
  rwa [hdistinct.eq_of_mem hw hw']

theorem txsAt_itemsOf_eq_nil (hnothing : ∀ txs, (height, txs) ∈ writes → txs = []) :
    txsAt (r.itemsOf writes) height = [] := by
  refine List.eq_nil_iff_forall_not_mem.2 fun tx htx => ?_
  obtain ⟨txs, hw, htx⟩ := mem_eachWritten_iff.1 (mem_txsAt_itemsOf_iff.1 htx)
  rw [hnothing txs hw] at htx
  exact List.not_mem_nil htx

theorem batchOf_filter_records (codec : Codec) (t : Table) (height : Height) :
    batchOf codec (t.filter Space.txById.tag.isPrefixOf) height = [] := by
  unfold batchOf batchAt Key.height
  rw [get?_filter_records_of_foreign (by decide)]
  rfl

/-- Nothing is at a height yet, so all that was written there arrives, and no id stands in the way
of another one. -/
theorem arrivals_itemsOf (hids : ((eachWritten writes).map fun p => p.2.id).Nodup) (codec : Codec)
    (t : Table) (height : Height) :
    arrivals codec (t.filter Space.txById.tag.isPrefixOf) (r.itemsOf writes) height =
      txsAt (r.itemsOf writes) height := by
  unfold arrivals
  rw [batchOf_filter_records]
  exact newcomers_eq_self (nodup_of_ascending (ascending_txsAt_itemsOf hids)) fun tx _ => by
    simp [hasId]

/-- No height gets more transactions than its length can tell, since it gets those of one list, and
that list has been written as a batch before. -/
theorem length_txsAt_itemsOf_lt (haccepts : ∀ w ∈ writes, r.Accepts w.2)
    (hdistinct : DistinctWrites writes) (height : Height) :
    (txsAt (r.itemsOf writes) height).length < capacity 8 := by
  by_cases hwritten : ∃ txs, (height, txs) ∈ writes
  · obtain ⟨txs, hw⟩ := hwritten
    rw [txsAt_itemsOf hdistinct hw, sortBy, List.length_mergeSort]
    exact (haccepts _ hw).length
  · rw [txsAt_itemsOf_eq_nil fun txs hw => absurd ⟨txs, hw⟩ hwritten]
    decide

/-- **The records alone can be merged.** They are all well-formed, since they have been written by a
repository; no batch is in the way; and there is room for the lengths. -/
theorem exists_mergeAll_records (haccepts : ∀ w ∈ writes, r.Accepts w.2)
    (hdistinct : DistinctWrites writes)
    (hentries : (t.filter Space.txById.tag.isPrefixOf).entries =
      (sortBy (fun p => p.2.id) (eachWritten writes)).map fun p => r.recordEntry p.1 p.2) :
    ∃ t', mergeAll r.codec r.config.codecVersion (t.filter Space.txById.tag.isPrefixOf)
        (toCome (Space.txById.key []) (t.filter Space.txById.tag.isPrefixOf)) = .ok t' ∧
      Merged r.codec r.config.codecVersion (t.filter Space.txById.tag.isPrefixOf)
        (r.itemsOf writes) t' := by
  have hitems : (toCome (Space.txById.key []) (t.filter Space.txById.tag.isPrefixOf)).mapM
      (readItem r.codec) = .ok (r.itemsOf writes) := by
    rw [toCome_filter_records, hentries]
    refine Except.mapM_map_eq_ok fun p hp => ?_
    obtain ⟨txs, hw, htx⟩ := mem_eachWritten_iff.1 (mem_sortBy.1 hp)
    exact readItem_recordEntry (haccepts _ hw).version ((haccepts _ hw).payloads _ htx)
  have hmerge : ∃ t', mergeAll r.codec r.config.codecVersion
      (t.filter Space.txById.tag.isPrefixOf)
      (toCome (Space.txById.key []) (t.filter Space.txById.tag.isPrefixOf)) = .ok t' := by
    cases writes with
    | nil =>
      -- Without records the version is never used, and need not be known.
      have hnil : sortBy (fun p => p.2.id) (eachWritten []) = [] := List.mergeSort_nil
      rw [toCome_filter_records, hentries, hnil]
      exact ⟨_, rfl⟩
    | cons w rest =>
      refine exists_mergeAll hitems (fun item _ => ⟨[], ?_⟩) (haccepts w List.mem_cons_self).version
        fun height => ?_
      · unfold batchAt Key.height
        rw [get?_filter_records_of_foreign (by decide)]
      · rw [batchOf_filter_records, List.nil_append, arrivals_itemsOf hdistinct.nodup_each]
        exact length_txsAt_itemsOf_lt haccepts hdistinct height
  obtain ⟨t', hmerge⟩ := hmerge
  exact ⟨t', hmerge, merged_of_mergeAll hitems hmerge⟩

/-- **Writing and rebuilding come to the same.** On a store without records a repository has written
lists, each at a height of its own and with ids of their own. Only the records are put into another
store, and a repository is opened on it with the same codec and version. Then every list that is not
empty is found at its height, sorted by id; no other height is found; and every id is answered as
before. -/
theorem openStore_of_written {s₁ : Store} {config : Config} (hwritten : Written r s writes s')
    (hnone : ∀ key, Space.txById.tag <+: key → s.view.get? key = none)
    (hdistinct : DistinctWrites writes)
    (hrecords : s₁.view = s'.view.filter Space.txById.tag.isPrefixOf)
    (hversion : config.codecVersion = r.config.codecVersion) (lastAccepted : Height)
    (calls : Calls) :
    ∃ r' b, openStore r.codec config lastAccepted Faults.none ⟨s₁, calls⟩ = .ok r' b ∧
      (∀ height txs, (height, txs) ∈ writes → txs ≠ [] →
        Access.Runs (r'.getByHeight height) b.store (.ok (sortBy Transaction.id txs)) b.store) ∧
      (∀ height, (∀ txs, (height, txs) ∈ writes → txs = []) →
        Access.Runs (r'.getByHeight height) b.store (.error (.heightNotFound height)) b.store) ∧
      ∀ id, ∃ answer, Access.Runs (r.getByTxId id) s' answer s' ∧
        Access.Runs (r'.getByTxId id) b.store answer b.store := by
  have hids := hdistinct.nodup_each
  obtain ⟨t, hmerge, hmerged⟩ := exists_mergeAll_records hwritten.accepts hdistinct
    (entries_filter_records hids fun e htag => hwritten.get?_iff hnone hids htag)
  have hdue : dueFrom s₁.view = some (Space.txById.key []) := by
    unfold dueFrom Key.marker
    rw [hrecords, get?_filter_records_of_foreign (by decide)]
  rw [← hrecords, ← hversion] at hmerge
  -- Behind the opening the handle reads what the merge has made of the records, and a marker.
  obtain ⟨report, b, hopen, hstaged, hcommitted⟩ :=
    exists_openStore_of_mergeAll lastAccepted calls hdue hmerge
  have hview (key : Bytes) (hne : Key.marker ≠ key) : b.store.view.get? key = t.get? key := by
    rw [Store.view_of_staged_empty hstaged, hcommitted, Table.get?_insert, if_neg hne]
  refine ⟨_, b, hopen, fun height txs hw hne => ?_, fun height hnothing => ?_, fun id => ?_⟩
  · have harrive : arrivals r.codec (s'.view.filter Space.txById.tag.isPrefixOf)
        (r.itemsOf writes) height = sortBy Transaction.id txs := by
      rw [arrivals_itemsOf hids, txsAt_itemsOf hdistinct hw]
    have hsome : sortBy Transaction.id txs ≠ [] := by
      obtain ⟨tx, htx⟩ := List.exists_mem_of_ne_nil txs hne
      exact List.ne_nil_of_mem (mem_sortBy.2 htx)
    -- No batch was there, so this one has grown by the whole list, sorted by id.
    obtain ⟨bytes, hbytes, hstored⟩ := hmerged.grown height (harrive ▸ hsome)
    rw [batchOf_filter_records, List.nil_append, harrive] at hbytes
    have hruns := runs_getByHeight ⟨r.codec, config, report⟩ height b.store
    rw [hview _ (Key.height_ne_marker height).symm, hstored, lookedUp_some,
      answerBatch, Codec.unmarshal_of_marshal_batch hbytes] at hruns
    exact hruns
  · -- At such a height nothing arrives, and no batch has been copied, so there is none.
    have harrive : arrivals r.codec (s'.view.filter Space.txById.tag.isPrefixOf)
        (r.itemsOf writes) height = [] := by
      rw [arrivals_itemsOf hids, txsAt_itemsOf_eq_nil hnothing]
    have hruns := runs_getByHeight ⟨r.codec, config, report⟩ height b.store
    rw [hview _ (Key.height_ne_marker height).symm, hmerged.kept height harrive, Key.height,
      get?_filter_records_of_foreign (by decide)] at hruns
    exact hruns
  · -- The record is one of those copied, and neither the merge nor the marker has touched it.
    have hsame : b.store.view.get? (Key.tx id) = s'.view.get? (Key.tx id) := by
      have htag : Space.txById.tag.isPrefixOf (Key.tx id) = true :=
        List.isPrefixOf_iff_prefix.2 (List.prefix_append ..)
      rw [hview _ (Key.tx_ne_marker id).symm, hmerged.frame _ (Key.tx_ne_height id),
        Table.get?_filter, if_pos htag]
    refine ⟨_, runs_getByTxId r id s', ?_⟩
    rw [← hsame]
    exact runs_getByTxId _ id b.store

/-- Three transactions are written at one height, none at the next and one at the one after it. -/
theorem openStore_of_written_with_empty_height :
    ∃ r b b₁ b₂ b₃, openStore {} {} 9 Faults.none ⟨{}, {}⟩ = .ok r b ∧
      r.write 5 [Sample.tx 1, Sample.tx 2, Sample.tx 3] Faults.none b = .ok () b₁ ∧
      r.write 6 [] Faults.none b₁ = .ok () b₂ ∧
      r.write 7 [Sample.tx 4] Faults.none b₂ = .ok () b₃ ∧
      ∃ r' b', openStore {} Sample.smallSteps 1 Faults.none
          ⟨{ committed := b₃.store.view.filter Space.txById.tag.isPrefixOf }, {}⟩ = .ok r' b' ∧
        (∀ height txs, (height, txs) ∈ [((5 : Height), [Sample.tx 1, Sample.tx 2, Sample.tx 3]),
            (6, []), (7, [Sample.tx 4])] → txs ≠ [] →
          Access.Runs (r'.getByHeight height) b'.store (.ok (sortBy Transaction.id txs))
            b'.store) ∧
        (∀ height, (∀ txs, (height, txs) ∈ [((5 : Height), [Sample.tx 1, Sample.tx 2, Sample.tx 3]),
            (6, []), (7, [Sample.tx 4])] → txs = []) →
          Access.Runs (r'.getByHeight height) b'.store (.error (.heightNotFound height))
            b'.store) ∧
        ∀ id, ∃ answer, Access.Runs (r.getByTxId id) b₃.store answer b₃.store ∧
          Access.Runs (r'.getByTxId id) b'.store answer b'.store := by
  obtain ⟨report, b, hopen⟩ := exists_openStore_empty {} {} 9 {}
  obtain ⟨hempty, hcommitted⟩ := committed_of_openStore_empty hopen
  -- Each of the lists can be encoded, so each of the writes succeeds.
  have hfirst : Accepts { codec := {}, config := {}, lastBackfill := report }
    [Sample.tx 1, Sample.tx 2, Sample.tx 3] := accepts_of_lengths (by decide) (by decide +kernel)
  have hsecond : Accepts { codec := {}, config := {}, lastBackfill := report } [] :=
    accepts_of_lengths (by decide) (by decide)
  have hthird : Accepts { codec := {}, config := {}, lastBackfill := report } [Sample.tx 4] :=
    accepts_of_lengths (by decide) (by decide +kernel)
  obtain ⟨b₁, hwrite₁, -⟩ := (runs_write_ok 5 b.store hfirst).eq_ending b.calls
  obtain ⟨b₂, hwrite₂, -⟩ := (runs_write_ok 6 b₁.store hsecond).eq_ending b₁.calls
  obtain ⟨b₃, hwrite₃, -⟩ := (runs_write_ok 7 b₂.store hthird).eq_ending b₂.calls
  have hnone : ∀ key, Space.txById.tag <+: key → b.store.view.get? key = none := by
    intro key htag
    rw [Store.view_of_staged_empty hempty, hcommitted]
    exact get?_insert_marker_empty _ (by decide) htag
  have hrecords : Store.view { committed := b₃.store.view.filter Space.txById.tag.isPrefixOf } =
      b₃.store.view.filter Space.txById.tag.isPrefixOf := Store.view_of_staged_empty rfl
  refine ⟨_, b, b₁, b₂, b₃, hopen, hwrite₁, hwrite₂, hwrite₃, ?_⟩
  have hwritten : Written _ b.store [(5, [Sample.tx 1, Sample.tx 2, Sample.tx 3]), (6, []),
      (7, [Sample.tx 4])] b₃.store :=
    ((Written.nothing.write hwrite₁).write hwrite₂).write hwrite₃
  have hversion : Sample.smallSteps.codecVersion = 0 := rfl
  exact openStore_of_written hwritten hnone ⟨by decide, by decide +kernel⟩ hrecords hversion 1 {}

end Repository

end TxIndex
