import TxIndex.Backfill.Remaining
import TxIndex.Proofs.Codec.RoundTrip
import TxIndex.Proofs.Space
import TxIndex.Proofs.Store.Scan

/-!
# Merging records, as a function on tables

What a backfill does to the index by height, without the store, the checkpoints and the faults: an
entry of the index by id is read (`readItem`), the batch of its height is read and extended
(`extension`), and the table gets the longer batch (`mergeInto`, `mergeAll`).

The merge looks at nothing but the batches, and writes nothing but batches
(`mergeAll_insert_marker`, `toCome_mergeAll`). A record that has just been merged is found again:
merging it a second time changes nothing (`mergeInto_of_mergeInto`).
-/

namespace TxIndex

namespace Backfill

/-- A record of the index by id, with the id it is stored under and the transaction it holds. -/
structure Item where
  cursor : TxId
  record : Record
  tx : Transaction
  deriving DecidableEq

/-- The record that an entry holds. Its key is looked at first, then its header, then its
payload. -/
def readItem (codec : Codec) (e : Entry) : Except Error Item := do
  let cursor ← (Key.txId e.key).mapError .corruption
  let record ← (Record.decode e.value).mapError .corruption
  let tx ← (codec.unmarshal record.payload).mapError fun cause => .corruption (.transaction cause)
  return { cursor, record, tx }

/-- The batch of a height as the table holds it; a height without one has the empty batch. Bytes
that are no batch are corrupted. -/
def batchAt (codec : Codec) (t : Table) (h : Height) : Except Error (List Transaction) :=
  match t.get? (Key.height h) with
  | some bytes => (codec.unmarshal bytes).mapError fun cause => .corruption (.batch cause)
  | none => .ok []

/-- The batch has a transaction of this id. -/
def hasId (batch : List Transaction) (id : TxId) : Bool :=
  batch.any fun other => other.id == id

/-- The encoded batch of a height with one transaction more, or nothing if the transaction is there
already. -/
def extension (codec : Codec) (version : UInt16) (t : Table) (h : Height) (tx : Transaction) :
    Except Error (Option Bytes) := do
  let batch ← batchAt codec t h
  if hasId batch tx.id then
    return none
  else
    some <$> (codec.marshal version (batch ++ [tx])).mapError .codec

/-- The table with the batch of a height replaced, if there is another one. -/
def extend (t : Table) (h : Height) : Option Bytes → Table
  | some bytes => t.insert (Key.height h) bytes
  | none => t

/-- The table with one record merged into the index by height. -/
def mergeInto (codec : Codec) (version : UInt16) (t : Table) (e : Entry) : Except Error Table := do
  let item ← readItem codec e
  let batch? ← extension codec version t item.record.height item.tx
  return extend t item.record.height batch?

/-- The table with records merged one after the other, up to the first that cannot be. -/
def mergeAll (codec : Codec) (version : UInt16) (t : Table) (entries : List Entry) :
    Except Error Table :=
  entries.foldlM (mergeInto codec version) t

/-- The entries of the index by id from a key on. -/
def toCome (start : Bytes) (t : Table) : List Entry :=
  t.listing start Space.txById.tag

variable {codec : Codec} {version : UInt16} {t t' : Table}

/-! ## One record at a time -/

/-- An entry can be read just if its key, its header and its payload can, one by one. -/
theorem readItem_eq_ok_iff {e : Entry} {item : Item} :
    readItem codec e = .ok item ↔
      Key.txId e.key = .ok item.cursor ∧ Record.decode e.value = .ok item.record ∧
        codec.unmarshal item.record.payload = .ok item.tx := by
  unfold readItem
  simp only [Except.bind_eq_ok_iff, Except.mapError_eq_ok_iff]
  refine ⟨fun h => ?_, fun h => ?_⟩
  · obtain ⟨cursor, hcursor, record, hrecord, tx, htx, h⟩ := h
    cases h
    exact ⟨hcursor, hrecord, htx⟩
  · obtain ⟨hcursor, hrecord, htx⟩ := h
    exact ⟨item.cursor, hcursor, item.record, hrecord, item.tx, htx, rfl⟩

/-- What a single merge does when it succeeds, guards included: the entry is read, its batch is read
and extended, and the table has the longer batch. All that is said of merges below is read off
this. -/
theorem mergeInto_eq_ok_iff {e : Entry} :
    mergeInto codec version t e = .ok t' ↔
      ∃ item batch?, readItem codec e = .ok item ∧
        extension codec version t item.record.height item.tx = .ok batch? ∧
        t' = extend t item.record.height batch? := by
  unfold mergeInto
  simp only [Except.bind_eq_ok_iff]
  refine ⟨fun h => ?_, fun h => ?_⟩
  · obtain ⟨item, hitem, batch?, hext, h⟩ := h
    cases h
    exact ⟨item, batch?, hitem, hext, rfl⟩
  · obtain ⟨item, batch?, hitem, hext, rfl⟩ := h
    exact ⟨item, hitem, batch?, hext, rfl⟩

theorem mergeAll_cons {e : Entry} {entries : List Entry} :
    mergeAll codec version t (e :: entries) =
      mergeInto codec version t e >>= fun t' => mergeAll codec version t' entries :=
  List.foldlM_cons

/-- A merge may be interrupted anywhere: what comes behind goes on with the table that is there. -/
theorem mergeAll_append {first second : List Entry} :
    mergeAll codec version t (first ++ second) =
      mergeAll codec version t first >>= fun t' => mergeAll codec version t' second :=
  List.foldlM_append

/-- A merge succeeds just if the first entry is merged and then the others, with the table in
between by name. -/
theorem mergeAll_cons_eq_ok_iff {e : Entry} {entries : List Entry} :
    mergeAll codec version t (e :: entries) = .ok t' ↔
      ∃ t₁, mergeInto codec version t e = .ok t₁ ∧ mergeAll codec version t₁ entries = .ok t' := by
  rw [mergeAll_cons, Except.bind_eq_ok_iff]

/-- A merge of two lists succeeds just if one does behind the other. This is how a merge up to a
checkpoint and the merge behind it are told apart. -/
theorem mergeAll_append_eq_ok_iff {first second : List Entry} :
    mergeAll codec version t (first ++ second) = .ok t' ↔
      ∃ t₁, mergeAll codec version t first = .ok t₁ ∧ mergeAll codec version t₁ second = .ok t' := by
  rw [mergeAll_append, Except.bind_eq_ok_iff]

/-- One record more, behind those that have been merged. -/
theorem mergeAll_concat {u : Table} {done : List Entry} {e : Entry}
    (hdone : mergeAll codec version t done = .ok u) (hone : mergeInto codec version u e = .ok t') :
    mergeAll codec version t (done ++ [e]) = .ok t' :=
  mergeAll_append_eq_ok_iff.2 ⟨u, hdone, mergeAll_cons_eq_ok_iff.2 ⟨t', hone, rfl⟩⟩

/-- What every step keeps, a merge of many records keeps. The invariants of a merge are proved with
this, so each of them looks at one record. -/
theorem mergeAll_induct {P : Table → Prop} {entries : List Entry}
    (hstep : ∀ t e t', P t → mergeInto codec version t e = .ok t' → P t') (ht : P t)
    (h : mergeAll codec version t entries = .ok t') : P t' := by
  induction entries generalizing t with
  | nil =>
    cases h
    exact ht
  | cons e entries ih =>
    obtain ⟨t₁, hone, hrest⟩ := mergeAll_cons_eq_ok_iff.1 h
    exact ih (hstep t e t₁ ht hone) hrest

/-! ## What a merge looks at and what it leaves alone -/

/-- A new batch shows under the key of its height and nowhere else. -/
theorem get?_extend_of_ne {h : Height} {batch? : Option Bytes} {key : Bytes}
    (hne : key ≠ Key.height h) : (extend t h batch?).get? key = t.get? key := by
  cases batch? with
  | none => rfl
  | some bytes =>
    unfold extend
    rw [Table.get?_insert, if_neg (Ne.symm hne)]

/-- A merge leaves every key that is no height: the records it reads, and the marker. Only the index
by height is built. -/
theorem get?_mergeAll_of_ne {entries : List Entry} {key : Bytes}
    (h : mergeAll codec version t entries = .ok t') (hne : ∀ h, key ≠ Key.height h) :
    t'.get? key = t.get? key := by
  refine mergeAll_induct (P := fun u => u.get? key = t.get? key) ?_ rfl h
  intro u e u' hu hmerge
  obtain ⟨item, batch?, -, -, rfl⟩ := mergeInto_eq_ok_iff.1 hmerge
  rw [get?_extend_of_ne (hne _), hu]

/-- What is written outside the index by id leaves the records to come. -/
theorem toCome_insert_foreign {start key value : Bytes}
    (h : Space.txById.tag.isPrefixOf key = false) :
    toCome start (t.insert key value) = toCome start t := by
  unfold toCome
  refine Table.filter_entries_insert t key value _ ?_ fun e he => ?_
  · simp [Table.inRange, h]
  · simp [Table.inRange, he, h]

theorem toCome_insert_marker {start value : Bytes} :
    toCome start (t.insert Key.marker value) = toCome start t :=
  toCome_insert_foreign rfl

theorem toCome_extend {start : Bytes} {h : Height} {batch? : Option Bytes} :
    toCome start (extend t h batch?) = toCome start t := by
  cases batch? with
  | none => rfl
  | some bytes => exact toCome_insert_foreign rfl

/-- A merge of any records leaves the records to come, from whatever key on. So it makes no
difference whether they are read before it or while it goes on. -/
theorem toCome_mergeAll {entries : List Entry} {start : Bytes}
    (h : mergeAll codec version t entries = .ok t') : toCome start t' = toCome start t := by
  refine mergeAll_induct (P := fun u => toCome start u = toCome start t) ?_ rfl h
  intro u e u' hu hmerge
  obtain ⟨item, batch?, -, -, rfl⟩ := mergeInto_eq_ok_iff.1 hmerge
  rw [toCome_extend, hu]

/-- The batch of a height is told by what is stored under that height. -/
theorem batchAt_congr {u : Table} {h : Height}
    (heq : u.get? (Key.height h) = t.get? (Key.height h)) :
    batchAt codec u h = batchAt codec t h := by
  unfold batchAt
  rw [heq]

/-- A merge does not look at the marker, and the marker that was there is there afterwards. The
marker and the batch have different keys, so it does not matter which is written first. -/
theorem mergeInto_insert_marker {e : Entry} {value : Bytes} :
    mergeInto codec version (t.insert Key.marker value) e =
      (mergeInto codec version t e).map fun u => u.insert Key.marker value := by
  have hget : ∀ h, (t.insert Key.marker value).get? (Key.height h) = t.get? (Key.height h) := by
    intro h
    rw [Table.get?_insert, if_neg (Key.height_ne_marker h).symm]
  unfold mergeInto
  cases readItem codec e with
  | error cause => rfl
  | ok item =>
    have hext : extension codec version (t.insert Key.marker value) item.record.height item.tx =
        extension codec version t item.record.height item.tx := by
      unfold extension
      rw [batchAt_congr (hget _)]
    show (extension codec version (t.insert Key.marker value) item.record.height item.tx >>= _) =
      Except.map _ (extension codec version t item.record.height item.tx >>= _)
    rw [hext]
    cases extension codec version t item.record.height item.tx with
    | error cause => rfl
    | ok batch? =>
      cases batch? with
      | none => rfl
      | some bytes =>
        exact congrArg Except.ok (Table.insert_comm t (Key.height_ne_marker _).symm)

/-- A marker written before a merge is the same as one written after it: no record is merged by
looking at the marker, and none writes one. -/
theorem mergeAll_insert_marker {entries : List Entry} {value : Bytes} :
    mergeAll codec version (t.insert Key.marker value) entries =
      (mergeAll codec version t entries).map fun u => u.insert Key.marker value := by
  induction entries generalizing t with
  | nil => rfl
  | cons e entries ih =>
    rw [mergeAll_cons, mergeAll_cons, mergeInto_insert_marker]
    cases mergeInto codec version t e with
    | error cause => rfl
    | ok u => exact ih

/-! ## Merging a record again

The batch that a merge has written is read back as what was encoded, and the transaction is at its
end. -/

/-- When a batch can be extended, and by what: the batch can be read, and unless it has a
transaction of this id the longer one can be encoded. -/
theorem extension_eq_ok_iff {h : Height} {tx : Transaction} {batch? : Option Bytes} :
    extension codec version t h tx = .ok batch? ↔
      ∃ batch, batchAt codec t h = .ok batch ∧
        if hasId batch tx.id then batch? = none
        else ∃ bytes, codec.marshal version (batch ++ [tx]) = .ok bytes ∧ batch? = some bytes := by
  unfold extension
  rw [Except.bind_eq_ok_iff]
  refine exists_congr fun batch => and_congr_right fun _ => ?_
  by_cases hid : hasId batch tx.id = true
  · rw [if_pos hid, if_pos hid]
    exact ⟨fun h => (Except.ok.inj h).symm, fun h => congrArg Except.ok h.symm⟩
  · rw [if_neg hid, if_neg hid]
    show ((codec.marshal version (batch ++ [tx])).mapError Error.codec).map some = .ok batch? ↔ _
    simp only [Except.map_eq_ok_iff, Except.mapError_eq_ok_iff]
    exact exists_congr fun bytes => and_congr_right fun _ => eq_comm

/-- What the codec has encoded is the batch that is found. -/
theorem batchAt_insert_of_marshal {h : Height} {txs : List Transaction} {bytes : Bytes}
    (hbytes : codec.marshal version txs = .ok bytes) :
    batchAt codec (t.insert (Key.height h) bytes) h = .ok txs := by
  unfold batchAt
  rw [Table.get?_insert_self]
  show (codec.unmarshal bytes).mapError _ = _
  rw [Codec.unmarshal_of_marshal_batch hbytes]
  rfl

/-- A transaction that is appended is found by its id, and hides no other. -/
theorem hasId_append (batch : List Transaction) (tx : Transaction) (id : TxId) :
    hasId (batch ++ [tx]) id = (hasId batch id || tx.id == id) := by
  simp [hasId]

/-- **A record that has just been merged is found again.** Merging it a second time changes nothing,
since the batch that was written is read as what was encoded, with the transaction at its end. This
is what lets an interrupted backfill take up with the record of its last checkpoint. -/
theorem mergeInto_of_mergeInto {e : Entry} (h : mergeInto codec version t e = .ok t') :
    mergeInto codec version t' e = .ok t' := by
  obtain ⟨item, batch?, hitem, hext, rfl⟩ := mergeInto_eq_ok_iff.1 h
  obtain ⟨batch, hbatch, hcase⟩ := extension_eq_ok_iff.1 hext
  refine mergeInto_eq_ok_iff.2 ⟨item, none, hitem, extension_eq_ok_iff.2 ?_, rfl⟩
  -- The first merge has found the transaction, or it has appended it.
  by_cases hid : hasId batch item.tx.id = true
  · rw [if_pos hid] at hcase
    subst hcase
    exact ⟨batch, hbatch, by rw [if_pos hid]⟩
  · rw [if_neg hid] at hcase
    obtain ⟨bytes, hbytes, rfl⟩ := hcase
    refine ⟨batch ++ [item.tx], batchAt_insert_of_marshal hbytes, ?_⟩
    rw [if_pos (by rw [hasId_append, beq_self_eq_true, Bool.or_true])]

end Backfill

end TxIndex
