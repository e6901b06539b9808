import Mathlib.Algebra.Order.BigOperators.Group.List
import Mathlib.Algebra.Order.Group.Nat
import Mathlib.Algebra.Ring.Nat
import TxIndex.Proofs.Backfill.Newcomers
import TxIndex.Proofs.Codec.Exact
import TxIndex.Proofs.Record

/-!
# What is wrong with an entry

Whether an entry of the index by id can be merged, and if not why, is told here from the entry and
from the batch that its height had before anything was merged (`Flaw`, and `verdict` to compute it).
Merging entries one after the other changes the batches, but not the verdicts
(`mergeInto_eq_verdict`): a batch that has been written is read again, it has the ids that it had
and those of transactions that were new, and it could only be written under a version that the
codec knows. So a merge of many entries fails with the first flaw there is, and only for a flaw
(`mergeAll_toCome_eq_verdicts`), in a table that has fewer bytes than a length can tell (`weight`).
-/

namespace TxIndex

/-! ## Why an entry cannot be read -/

/-- A key with the tag of the records is refused if what follows is not as long as an id. -/
theorem Key.txId_eq_error_iff {key : Bytes} {defect : Defect} (htag : Space.txById.tag <+: key) :
    Key.txId key = .error defect ↔
      (∃ suffix, key = Space.txById.key suffix ∧ suffix.length ≠ 32) ∧ defect = .txKey key := by
  obtain ⟨suffix, hkey⟩ := htag
  change Space.txById.key suffix = key at hkey
  unfold Key.txId
  rw [Space.strip?_eq_some_iff.2 hkey.symm, Option.bind_some]
  cases hfixed : FixedBytes.ofBytes? 32 suffix with
  | some id =>
    -- The suffix is an id, and the key has no other suffix that could be refused.
    refine ⟨fun h => (nomatch h), fun h => ?_⟩
    obtain ⟨⟨suffix', hkey', hwidth⟩, -⟩ := h
    rw [← hkey, Space.key_inj] at hkey'
    subst hkey'
    rw [FixedBytes.ofBytes?_eq_none_iff.2 hwidth] at hfixed
    cases hfixed
  | none =>
    have hwidth : suffix.length ≠ 32 := FixedBytes.ofBytes?_eq_none_iff.1 hfixed
    exact ⟨fun h => ⟨⟨suffix, hkey.symm, hwidth⟩, (Except.error.inj h).symm⟩,
      fun h => congrArg Except.error h.2.symm⟩

/-- A version is refused if it is unknown, and the error names it. -/
theorem Codec.check_eq_error_iff {codec : Codec} {v : UInt16} {cause : CodecError} :
    codec.check v = .error cause ↔ v ∉ codec.supported ∧ cause = .unknownVersion v := by
  by_cases hv : v ∈ codec.supported
  · rw [check_eq_ok_iff.2 hv]
    exact ⟨fun h => (nomatch h), fun h => absurd hv h.1⟩
  · rw [check_of_unknown hv]
    exact ⟨fun h => ⟨hv, (Except.error.inj h).symm⟩, fun h => congrArg Except.error h.2.symm⟩

namespace Backfill

/-- A reason for which an entry of the index by id cannot be merged, with the error that tells it.
An entry may have the later ones only if it has none of those before. -/
inductive Flaw (codec : Codec) (version : UInt16) (t : Table) (e : Entry) : Error → Prop where
  /-- What follows the tag in the key is no id. -/
  | key {suffix : Bytes} (hkey : e.key = Space.txById.key suffix) (hwidth : suffix.length ≠ 32) :
    Flaw codec version t e (.corruption (.txKey e.key))
  /-- The value is shorter than the header of a record. -/
  | short {id : TxId} (hkey : e.key = Key.tx id) (hshort : e.value.length < 12) :
    Flaw codec version t e (.corruption (.recordTooShort e.value.length))
  /-- The header announces another length than follows. -/
  | length {id : TxId} {declared : Nat} (hkey : e.key = Key.tx id) (hlong : 12 ≤ e.value.length)
    (hdeclared : declared = ofBigEndian ((e.value.drop 8).take 4))
    (hdiffer : declared ≠ e.value.length - 12) :
    Flaw codec version t e (.corruption (.recordLength declared (e.value.length - 12)))
  /-- The codec refuses the payload: by its length, by its version or by its body. -/
  | payload {id : TxId} {record : Record} {cause : CodecError} (hkey : e.key = Key.tx id)
    (hrecord : Record.decode e.value = .ok record)
    (hpayload : (codec.unmarshal record.payload : Except CodecError Transaction) = .error cause) :
    Flaw codec version t e (.corruption (.transaction cause))
  /-- The codec refuses the batch that the table has at the height of the record. -/
  | batch {item : Item} {bytes : Bytes} {cause : CodecError} (hitem : readItem codec e = .ok item)
    (hbytes : t.get? (Key.height item.record.height) = some bytes)
    (hbatch : (codec.unmarshal bytes : Except CodecError (List Transaction)) = .error cause) :
    Flaw codec version t e (.corruption (.batch cause))
  /-- The transaction is not in that batch, and cannot be written under an unknown version. -/
  | version {item : Item} {batch : List Transaction} (hitem : readItem codec e = .ok item)
    (hbatch : batchAt codec t item.record.height = .ok batch)
    (hnew : ∀ other ∈ batch, other.id ≠ item.tx.id) (hversion : version ∉ codec.supported) :
    Flaw codec version t e (.codec (.unknownVersion version))

/-- The first flaw of an entry, if it has one. -/
def verdict (codec : Codec) (version : UInt16) (t : Table) (e : Entry) : Except Error Unit := do
  let item ← readItem codec e
  let batch ← batchAt codec t item.record.height
  if hasId batch item.tx.id then
    return ()
  else
    (codec.check version).mapError .codec

variable {codec : Codec} {version : UInt16} {t t' u : Table} {e : Entry} {cause : Error}

/-! ## The verdict on an entry -/

/-- An entry cannot be read for its key, for the form of its value, or for its payload, and these
are looked at in this order. -/
theorem readItem_eq_error_iff :
    readItem codec e = .error cause ↔
      (∃ defect, Key.txId e.key = .error defect ∧ .corruption defect = cause) ∨
      ∃ id, Key.txId e.key = .ok id ∧
        ((∃ defect, Record.decode e.value = .error defect ∧ .corruption defect = cause) ∨
        ∃ record, Record.decode e.value = .ok record ∧
          ∃ refusal, (codec.unmarshal record.payload : Except CodecError Transaction) =
            .error refusal ∧ .corruption (.transaction refusal) = cause) := by
  unfold readItem
  simp only [Except.bind_eq_error_iff, Except.mapError_eq_error_iff, Except.mapError_eq_ok_iff,
    pure, Except.pure, reduceCtorEq, and_false, exists_false, or_false]

/-- A batch cannot be read only if there is one that the codec refuses. -/
theorem batchAt_eq_error_iff {h : Height} :
    batchAt codec t h = .error cause ↔
      ∃ bytes, t.get? (Key.height h) = some bytes ∧
        ∃ refusal, (codec.unmarshal bytes : Except CodecError (List Transaction)) =
          .error refusal ∧ .corruption (.batch refusal) = cause := by
  unfold batchAt
  cases t.get? (Key.height h) with
  | none => simp
  | some bytes => simp [Except.mapError_eq_error_iff]

/-- An id is new if no transaction of the batch has it. -/
theorem hasId_eq_false_iff {batch : List Transaction} {id : TxId} :
    ¬ hasId batch id = true ↔ ∀ other ∈ batch, other.id ≠ id := by
  simp only [hasId, List.any_eq_true, beq_iff_eq, not_exists, not_and]

/-- **The verdict is the flaw that the entry has.** The checks of `verdict` come one after the
other; an entry that fails one of them has passed those before, and these are what the case of
`Flaw` assumes. -/
theorem verdict_eq_error_iff (htag : Space.txById.tag <+: e.key) :
    verdict codec version t e = .error cause ↔ Flaw codec version t e cause := by
  unfold verdict
  rw [Except.bind_eq_error_iff, readItem_eq_error_iff]
  refine ⟨fun h => ?_, fun h => ?_⟩
  · -- The first check that fails is one of the key, of the record, of the batch or of the version.
    rcases h with (⟨defect, hkey, rfl⟩ | ⟨id, hkey, hvalue⟩) | ⟨item, hitem, h⟩
    · obtain ⟨⟨suffix, hsuffix, hwidth⟩, rfl⟩ := (Key.txId_eq_error_iff htag).1 hkey
      exact .key hsuffix hwidth
    · rw [Key.txId_eq_ok_iff] at hkey
      rcases hvalue with ⟨defect, hrecord, rfl⟩ | ⟨record, hrecord, refusal, hpayload, rfl⟩
      · rcases Record.decode_eq_error_iff.1 hrecord with
          ⟨hshort, rfl⟩ | ⟨hlong, declared, hdeclared, hdiffer, rfl⟩
        · exact .short hkey hshort
        · exact .length hkey hlong hdeclared hdiffer
      · exact .payload hkey hrecord hpayload
    · rcases Except.bind_eq_error_iff.1 h with hbatch | ⟨batch, hbatch, h⟩
      · obtain ⟨bytes, hbytes, refusal, hrefusal, rfl⟩ := batchAt_eq_error_iff.1 hbatch
        exact .batch hitem hbytes hrefusal
      · by_cases hid : hasId batch item.tx.id = true
        · rw [if_pos hid] at h
          cases h
        · rw [if_neg hid, Except.mapError_eq_error_iff] at h
          obtain ⟨refusal, hcheck, rfl⟩ := h
          obtain ⟨hversion, rfl⟩ := Codec.check_eq_error_iff.1 hcheck
          exact .version hitem hbatch (hasId_eq_false_iff.1 hid) hversion
  · -- A flaw is found by the check that it belongs to, since those before are passed.
    cases h with
    | key hkey hwidth =>
      exact .inl (.inl ⟨_, (Key.txId_eq_error_iff htag).2 ⟨⟨_, hkey, hwidth⟩, rfl⟩, rfl⟩)
    | short hkey hshort =>
      refine .inl (.inr ⟨_, Key.txId_eq_ok_iff.2 hkey, .inl ⟨_, ?_, rfl⟩⟩)
      exact Record.decode_eq_error_iff.2 (.inl ⟨hshort, rfl⟩)
    | length hkey hlong hdeclared hdiffer =>
      refine .inl (.inr ⟨_, Key.txId_eq_ok_iff.2 hkey, .inl ⟨_, ?_, rfl⟩⟩)
      exact Record.decode_eq_error_iff.2 (.inr ⟨hlong, _, hdeclared, hdiffer, rfl⟩)
    | payload hkey hrecord hpayload =>
      exact .inl (.inr ⟨_, Key.txId_eq_ok_iff.2 hkey, .inr ⟨_, hrecord, _, hpayload, rfl⟩⟩)
    | batch hitem hbytes hbatch =>
      refine .inr ⟨_, hitem, Except.bind_eq_error_iff.2 (.inl ?_)⟩
      exact batchAt_eq_error_iff.2 ⟨_, hbytes, _, hbatch, rfl⟩
    | version hitem hbatch hnew hversion =>
      refine .inr ⟨_, hitem, Except.bind_eq_error_iff.2 (.inr ⟨_, hbatch, ?_⟩)⟩
      rw [if_neg (hasId_eq_false_iff.2 hnew), Except.mapError_eq_error_iff]
      exact ⟨_, Codec.check_eq_error_iff.2 ⟨hversion, rfl⟩, rfl⟩

theorem verdict_eq_ok_iff (htag : Space.txById.tag <+: e.key) :
    verdict codec version t e = .ok () ↔ ∀ cause, ¬ Flaw codec version t e cause := by
  simp only [← verdict_eq_error_iff htag]
  cases verdict codec version t e with
  | ok done => exact ⟨fun _ cause h => (nomatch h), fun _ => rfl⟩
  | error cause => exact ⟨fun h => (nomatch h), fun h => absurd rfl (h cause)⟩

theorem verdicts_eq_ok_iff {entries : List Entry}
    (htag : ∀ e ∈ entries, Space.txById.tag <+: e.key) :
    entries.forM (verdict codec version t) = .ok () ↔
      ∀ e ∈ entries, ∀ cause, ¬ Flaw codec version t e cause := by
  rw [Except.forM_eq_ok_iff]
  exact forall₂_congr fun e he => verdict_eq_ok_iff (htag e he)

/-- Checked one after the other, entries fail with the flaw of the first one that has any, and those
before it have none. -/
theorem verdicts_eq_error_iff {entries : List Entry}
    (htag : ∀ e ∈ entries, Space.txById.tag <+: e.key) :
    entries.forM (verdict codec version t) = .error cause ↔
      ∃ upto e rest, entries = upto ++ e :: rest ∧
        (∀ d ∈ upto, ∀ other, ¬ Flaw codec version t d other) ∧ Flaw codec version t e cause := by
  rw [Except.forM_eq_error_iff]
  refine exists_congr fun upto => exists_congr fun e => exists_congr fun rest => ?_
  refine and_congr_right fun hsplit => and_congr ?_ ?_
  · refine forall₂_congr fun d hd => verdict_eq_ok_iff (htag d ?_)
    exact hsplit ▸ List.mem_append_left _ hd
  · refine verdict_eq_error_iff (htag e ?_)
    exact hsplit ▸ List.mem_append_right _ List.mem_cons_self

/-! ## The verdicts while entries are merged -/

theorem length_newcomers_le (batch txs : List Transaction) :
    (newcomers batch txs).length ≤ txs.length := by
  induction txs generalizing batch with
  | nil => exact Nat.le_refl 0
  | cons tx txs ih =>
    by_cases hid : hasId batch tx.id = true
    · rw [newcomers_cons_of_hasId hid]
      exact Nat.le_succ_of_le (ih batch)
    · rw [newcomers_cons_of_not_hasId hid]
      exact Nat.succ_le_succ (ih (batch ++ [tx]))

/-- No more transactions arrive at a height than there are records, so the number of entries bounds
how long a batch can get. -/
theorem length_arrivals_le (codec : Codec) (t : Table) (items : List Item) (h : Height) :
    (arrivals codec t items h).length ≤ items.length := by
  have htxs : (txsAt items h).length ≤ items.length := by
    unfold txsAt
    rw [List.length_map]
    exact List.length_filter_le ..
  exact (length_newcomers_le _ _).trans htxs

/-- A batch that could be read before records have been merged is read with what has arrived. Where
something has arrived, it has been written by the codec and so is read back. -/
theorem Merged.batchAt_ok {items : List Item} {h : Height} {batch : List Transaction}
    (hmerged : Merged codec version t items u) (hbatch : batchAt codec t h = .ok batch) :
    batchAt codec u h = .ok (batch ++ arrivals codec t items h) := by
  by_cases hnone : arrivals codec t items h = []
  · rw [hnone, List.append_nil, batchAt_congr (hmerged.kept h hnone)]
    exact hbatch
  · obtain ⟨bytes, hbytes, hget⟩ := hmerged.grown h hnone
    rw [batchOf_eq hbatch] at hbytes
    unfold batchAt
    rw [hget]
    show (codec.unmarshal bytes).mapError _ = _
    rw [Codec.unmarshal_of_marshal_batch hbytes]
    rfl

/-- A batch that could not be read before a merge still cannot, since no record that was merged
names its height. -/
theorem Merged.batchAt_error {items : List Item} {h : Height}
    (hmerged : Merged codec version t items u) (hbatch : batchAt codec t h = .error cause) :
    batchAt codec u h = .error cause := by
  have hitems : ∀ item ∈ items, item.record.height ≠ h := by
    rintro item hitem rfl
    obtain ⟨batch, hread⟩ := hmerged.readable item hitem
    rw [hbatch] at hread
    cases hread
  -- So nothing arrives at the height, and its bytes are kept.
  have htxs : txsAt items h = [] := by
    unfold txsAt
    rw [List.filter_eq_nil_iff.2 fun item hitem => by simp [hitems item hitem]]
    rfl
  have hnone : arrivals codec t items h = [] := by
    unfold arrivals
    rw [htxs]
    rfl
  rw [batchAt_congr (hmerged.kept h hnone)]
  exact hbatch

/-- A batch with room for one more transaction is extended if the version is known, and left alone
if it has the transaction already. -/
theorem extension_eq_check {h : Height} {batch : List Transaction} {tx : Transaction}
    (hbatch : batchAt codec t h = .ok batch) (hroom : batch.length + 1 < capacity 8) :
    (extension codec version t h tx).map (fun _ => ()) =
      if hasId batch tx.id then .ok () else (codec.check version).mapError .codec := by
  unfold extension
  rw [hbatch]
  show Except.map _ (if hasId batch tx.id then Except.ok none
    else some <$> (codec.marshal version (batch ++ [tx])).mapError Error.codec) = _
  by_cases hid : hasId batch tx.id = true
  · rw [if_pos hid, if_pos hid]
    rfl
  · rw [if_neg hid, if_neg hid]
    -- With the room there is, only the version can be refused.
    by_cases hversion : version ∈ codec.supported
    · have hlen : (batch ++ [tx]).length < capacity 8 := by
        rw [List.length_append]
        exact hroom
      obtain ⟨bytes, hbytes⟩ := Codec.exists_marshal_batch hversion hlen
      rw [hbytes, Codec.check_eq_ok_iff.2 hversion]
      rfl
    · unfold Codec.marshal
      rw [Codec.check_of_unknown hversion]
      rfl

/-- A transaction that was new and is there after a merge has arrived in it. So a batch has been
written, and the version is known. -/
theorem hasId_append_of_version {items : List Item} {h : Height} {batch : List Transaction}
    {id : TxId} (hmerged : Merged codec version t items u)
    (hid : hasId (batch ++ arrivals codec t items h) id = true) (hnew : ¬ hasId batch id = true) :
    version ∈ codec.supported := by
  have harrived : arrivals codec t items h ≠ [] := by
    intro hnone
    rw [hnone, List.append_nil] at hid
    exact hnew hid
  obtain ⟨bytes, hbytes, -⟩ := hmerged.grown h harrived
  exact (Codec.marshal_batch_iff.1 hbytes).1

/-- Merging one more entry fails with the flaw that the entry had at first. Until then its batch has
been left alone or has grown by arrivals, and neither changes what is wrong with the entry. -/
theorem mergeInto_eq_verdict {items : List Item} (hmerged : Merged codec version t items u)
    (hroom : ∀ h batch, batchAt codec t h = .ok batch →
      batch.length + items.length + 1 < capacity 8) (e : Entry) :
    (mergeInto codec version u e).map (fun _ => ()) = verdict codec version t e := by
  have hmap : (mergeInto codec version u e).map (fun _ => ()) = (do
      let item ← readItem codec e
      (extension codec version u item.record.height item.tx).map fun _ => ()) := by
    unfold mergeInto
    cases readItem codec e with
    | error cause => rfl
    | ok item =>
      show Except.map _ (extension codec version u item.record.height item.tx >>= _) =
        (extension codec version u item.record.height item.tx).map _
      cases extension codec version u item.record.height item.tx <;> rfl
  -- Reading the entry is the same; what differs is the table that the batch is read from.
  rw [hmap]
  unfold verdict
  refine bind_congr fun item => ?_
  cases hbatch : batchAt codec t item.record.height with
  | error cause =>
    unfold extension
    rw [hmerged.batchAt_error hbatch]
    rfl
  | ok batch =>
    have hlen : (batch ++ arrivals codec t items item.record.height).length + 1 < capacity 8 := by
      have hmany := length_arrivals_le codec t items item.record.height
      have hfits := hroom _ batch hbatch
      rw [List.length_append]
      omega
    rw [extension_eq_check (hmerged.batchAt_ok hbatch) hlen]
    show _ = if hasId batch item.tx.id then Except.ok ()
      else (codec.check version).mapError Error.codec
    by_cases hid : hasId batch item.tx.id = true
    · have hlater : hasId (batch ++ arrivals codec t items item.record.height) item.tx.id = true := by
        unfold hasId at hid ⊢
        rw [List.any_append, hid, Bool.true_or]
      rw [if_pos hid, if_pos hlater]
    · rw [if_neg hid]
      split
      · next hlater =>
        -- The transaction has arrived in the meantime, so the version is known.
        have hversion := hasId_append_of_version hmerged hlater hid
        rw [Codec.check_eq_ok_iff.2 hversion]
        rfl
      · rfl

/-- A merge of many entries fails with the first flaw there is. The induction is on the entries that
are left; those that are done say what the table has become. -/
theorem mergeAll_eq_verdicts {done entries : List Entry}
    (hdone : mergeAll codec version t done = .ok u)
    (hroom : ∀ h batch, batchAt codec t h = .ok batch →
      batch.length + (done ++ entries).length < capacity 8) :
    (mergeAll codec version u entries).map (fun _ => ()) = entries.forM (verdict codec version t) := by
  induction entries generalizing done u with
  | nil => rfl
  | cons e entries ih =>
    obtain ⟨items, hitems⟩ := exists_items_of_mergeAll hdone
    have hcount : items.length = done.length := Except.length_of_mapM_eq_ok hitems
    -- Merging this entry into what has come about fails just as it would on the table before.
    have hone := mergeInto_eq_verdict (merged_of_mergeAll hitems hdone) (e := e)
      fun h batch hbatch => by
        have hfits := hroom h batch hbatch
        rw [List.length_append, List.length_cons] at hfits
        omega
    rw [mergeAll_cons]
    show _ = (verdict codec version t e >>= fun _ => entries.forM (verdict codec version t))
    rw [← hone]
    cases hmerge : mergeInto codec version u e with
    | error cause => rfl
    | ok u' =>
      refine ih (mergeAll_concat hdone hmerge) fun h batch hbatch => ?_
      rw [List.append_assoc]
      exact hroom h batch hbatch

/-! ## Room for the lengths of batches -/

/-- How many bytes all keys and values of a table have. The length in front of a batch counts its
transactions, and none of them can be encoded in no bytes, so this bounds it. -/
def weight (t : Table) : Nat :=
  (t.entries.map fun e => e.key.length + e.value.length).sum

theorem length_body_pos (tx : Transaction) : 1 ≤ tx.body.length := by
  have hchain := tx.sourceChain.property
  unfold Transaction.body
  simp only [List.length_append]
  omega

/-- A batch has at least as many bytes as transactions. This is how the size of a store bounds the
lengths of its batches. -/
theorem length_le_of_unmarshal {txs : List Transaction} {bytes : Bytes}
    (h : codec.unmarshal bytes = .ok txs) : txs.length ≤ bytes.length := by
  obtain ⟨-, v, -, rest, rfl⟩ := Codec.unmarshal_batch_iff.1 h
  -- Each transaction has at least one byte of the batch to itself.
  have hbodies : txs.length ≤ ((txs.map Transaction.body).map List.length).sum := by
    have hcount := List.length_le_sum_of_one_le ((txs.map Transaction.body).map List.length)
      fun n hn => by
        obtain ⟨body, hbody, rfl⟩ := List.mem_map.1 hn
        obtain ⟨tx, -, rfl⟩ := List.mem_map.1 hbody
        exact length_body_pos tx
    rw [List.length_map, List.length_map] at hcount
    exact hcount
  unfold batchBody
  simp only [List.length_append, List.length_flatten]
  omega

/-- A batch and the entries to come lie in different entries of the table, so together they have no
more members than the table has bytes. -/
theorem length_add_length_toCome_le {h : Height} {batch : List Transaction} {start : Bytes}
    (hbatch : batchAt codec t h = .ok batch) : batch.length + (toCome start t).length ≤ weight t := by
  let size : Entry → Nat := fun e => e.key.length + e.value.length
  let inside : Entry → Bool := fun e => Table.inRange start Space.txById.tag e.key
  let others := t.entries.filter fun e => !inside e
  -- The weight is that of the entries to come and that of the others.
  have hsplit : ((toCome start t).map size).sum + (others.map size).sum = weight t := by
    have hperm := List.filter_append_perm inside t.entries
    rw [← List.sum_append, ← List.map_append]
    exact (hperm.map size).sum_nat
  -- Each of those to come has a key, and a key has bytes.
  have hcome : (toCome start t).length ≤ ((toCome start t).map size).sum := by
    have hcount := List.length_le_sum_of_one_le ((toCome start t).map size) fun n hn => by
      obtain ⟨e, he, rfl⟩ := List.mem_map.1 hn
      obtain ⟨-, -, htag⟩ := Table.mem_listing_iff.1 he
      exact (htag.length_le.trans (Nat.le_add_right _ _)).trans' (by decide)
    rw [List.length_map] at hcount
    exact hcount
  -- The batch is among the others, for its key has another tag.
  have hheight : batch.length ≤ (others.map size).sum := by
    unfold batchAt at hbatch
    cases hget : t.get? (Key.height h) with
    | none =>
      rw [hget] at hbatch
      cases hbatch
      exact Nat.zero_le _
    | some bytes =>
      rw [hget] at hbatch
      have hlen := length_le_of_unmarshal (Except.mapError_eq_ok_iff.1 hbatch)
      have hentry : (⟨Key.height h, bytes⟩ : Entry) ∈ others := by
        refine List.mem_filter.2 ⟨Table.mem_entries_iff.2 hget, ?_⟩
        have htag : Space.txById.tag.isPrefixOf (Key.height h) = false := rfl
        simp [inside, Table.inRange, htag]
      have hsize : bytes.length ≤ size ⟨Key.height h, bytes⟩ := Nat.le_add_left ..
      exact hlen.trans (hsize.trans (List.le_sum_of_mem (List.mem_map_of_mem hentry)))
  omega

/-- Where the store as a whole has fewer bytes than a length can tell, every batch has room for all
that is to come. -/
theorem mergeAll_toCome_eq_verdicts (codec : Codec) (version : UInt16) (start : Bytes)
    (hroom : weight t < capacity 8) :
    (mergeAll codec version t (toCome start t)).map (fun _ => ()) =
      (toCome start t).forM (verdict codec version t) := by
  have hnone : mergeAll codec version t [] = .ok t := rfl
  refine mergeAll_eq_verdicts hnone fun h batch hbatch => ?_
  exact Nat.lt_of_le_of_lt (length_add_length_toCome_le hbatch) hroom

end Backfill

end TxIndex
