import TxIndex.Proofs.Access.Invariants
import TxIndex.Proofs.Backfill.Acceptance
import TxIndex.Proofs.Backfill.Calls
import TxIndex.Proofs.Codec.Cuts
import TxIndex.Proofs.Repository.Lookups
import TxIndex.Proofs.Repository.Write

/-!
# Stored values that have lost their end

What a write or a backfill stores under an id is a whole record, and what it stores under a height
is a whole batch (`OwnValue`). A proper beginning of either is never taken for a value: a look-up
reports corruption, and so does a backfill that comes to the record, or to a record whose height has
the batch (`RefusedRecord`, `RefusedBatch`).

The backfill is looked at twice: a single merge under any faults, and a whole opening. Whatever the
entries before have done, they have left the damaged batch as it is, for a record of its height
could not have been merged (`get?_of_mergeAll`).
-/

namespace TxIndex

open Access (Maintains)

/-! ## What is stored -/

/-- Some run of the program leaves this value under the key, and has not found it there. (A run that
stores a value again does not show it here, but the same run on another store does.) -/
def Stores (program : Access α) (key value : Bytes) : Prop :=
  ∃ faults b, (Access.after program faults b).store.view.get? key = some value ∧
    b.store.view.get? key ≠ some value

/-- The value is stored under the key by a write, or by the backfill that opening runs. -/
inductive OwnValue (key value : Bytes) : Prop where
  | write {r : Repository} {height : Height} {txs : List Transaction}
      (hstores : Stores (r.write height txs) key value)
  | backfill {codec : Codec} {config : Config} {lastAccepted : Height}
      (hstores : Stores (Repository.openStore codec config lastAccepted) key value)

namespace Backfill

variable {codec : Codec} {config : Config} {version : UInt16} {t t₀ u : Table} {s : Store}
  {start short : Bytes}

/-- What is found was there at first, or is a marker or an encoded batch. -/
def OnlyBatches (codec : Codec) (version : UInt16) (t₀ : Table) (s : Store) : Prop :=
  ∀ key value, s.view.get? key = some value →
    t₀.get? key = some value ∨ key = Key.marker ∨
      ∃ h, ∃ txs : List Transaction, key = Key.height h ∧ codec.marshal version txs = .ok value

theorem OnlyBatches.put_marker (h : OnlyBatches codec version t₀ s) (value : Bytes) :
    OnlyBatches codec version t₀ (s.put Key.marker value) := by
  intro key value' hget
  rw [Store.view_put, Table.get?_insert] at hget
  split at hget
  · next hkey => exact .inr (.inl hkey.symm)
  · exact h key value' hget

/-- A batch that the codec has encoded adds nothing that is not expected. -/
theorem OnlyBatches.put_height {txs : List Transaction} {bytes : Bytes}
    (h : OnlyBatches codec version t₀ s) (height : Height)
    (hbytes : codec.marshal version txs = .ok bytes) :
    OnlyBatches codec version t₀ (s.put (Key.height height) bytes) := by
  intro key value hget
  rw [Store.view_put, Table.get?_insert] at hget
  split at hget
  · next hkey =>
    cases hget
    exact .inr (.inr ⟨height, txs, hkey.symm, hbytes⟩)
  · exact h key value hget

/-- What a merge puts is a marker, or a batch that the codec has encoded. -/
theorem ofCalls_maintains (codec : Codec) (version : UInt16) (t₀ : Table) :
    OfCalls (fun _ => Maintains (OnlyBatches codec version t₀)) codec version where
  toClosed := Maintains.closed
  getBatch _ := .of_keeps (.get _)
  putBatch hbytes := .put fun _ hs => hs.put_height _ hbytes
  putMarker _ := .put fun _ hs => hs.put_marker _
  commit := .commit fun _ hs => hs

/-- All that a backfill puts is markers and encoded batches, whatever fails in it. -/
theorem maintains_run (codec : Codec) (config : Config) (lastAccepted : Height) :
    Maintains (OnlyBatches codec config.codecVersion t₀) (run codec config lastAccepted) :=
  (ofCalls_maintains codec config.codecVersion t₀).run Maintains.isLocal
    (fun _ _ => .of_keeps (.scan _ _ _)) (Maintains.closed.readMarker (.of_keeps (.get _)))
    lastAccepted

end Backfill

/-- **What a write or a backfill stores is a marker, a whole record, or a whole batch.** A write may
have been interrupted, but each of its puts is of a whole value; a backfill stores what it has
encoded. -/
theorem OwnValue.cases {key value : Bytes} (h : OwnValue key value) :
    key = Key.marker ∨
    (∃ id, ∃ record : Record, key = Key.tx id ∧ record.encode = .ok value) ∨
    ∃ height, ∃ codec : Codec, ∃ v, ∃ txs : List Transaction,
      key = Key.height height ∧ codec.marshal v txs = .ok value := by
  cases h with
  -- What was not there before is one of the entries that the write has staged.
  | @write r height txs hstores =>
    obtain ⟨faults, b, hstored, hnew⟩ := hstores
    rcases Repository.store_after_write r height txs faults b with hsame | ⟨haccepts, k, hstaged⟩
    · rw [hsame] at hstored
      exact absurd hstored hnew
    · rw [hstaged, Store.view_putAll] at hstored
      have hmem := (Table.mem_or_get?_of_get?_insertAll hstored).resolve_right hnew
      rcases Repository.mem_stagedEntries_iff.1 (List.mem_of_mem_take hmem) with
        ⟨tx, htx, heq⟩ | heq | heq
      · cases heq
        exact .inr (.inl ⟨tx.id, ⟨height, r.payload tx⟩, rfl, if_pos (haccepts.payloads tx htx)⟩)
      · cases heq
        exact .inr (.inr ⟨height, r.codec, _, txs, rfl,
          Codec.marshal_batch_iff.2 ⟨haccepts.version, haccepts.length, rfl⟩⟩)
      · cases heq
        exact .inl rfl
  -- At first nothing has been put, so what was not there is a marker or a batch.
  | @backfill codec config lastAccepted hstores =>
    obtain ⟨faults, b, hstored, hnew⟩ := hstores
    have hmaintains : Maintains (Backfill.OnlyBatches codec config.codecVersion b.store.view)
        (Repository.openStore codec config lastAccepted) :=
      Maintains.closed.bind (Backfill.maintains_run codec config lastAccepted) fun _ =>
        Maintains.closed.pure _
    rcases hmaintains faults b (fun _ _ hget => .inl hget) key value hstored with
      hold | hmarker | ⟨height, txs, hkey, hbytes⟩
    · exact absurd hold hnew
    · exact .inl hmarker
    · exact .inr (.inr ⟨height, codec, _, txs, hkey, hbytes⟩)

/-- Under an id, what is stored is a record. -/
theorem OwnValue.exists_encode {id : TxId} {value : Bytes} (h : OwnValue (Key.tx id) value) :
    ∃ record : Record, record.encode = .ok value := by
  rcases h.cases with hkey | ⟨-, record, -, hencode⟩ | ⟨height, -, -, -, hkey, -⟩
  · exact absurd hkey (Key.tx_ne_marker id)
  · exact ⟨record, hencode⟩
  · exact absurd hkey (Key.tx_ne_height id height)

/-- Under a height it is a batch, encoded by some codec under some version. -/
theorem OwnValue.exists_marshal {height : Height} {value : Bytes}
    (h : OwnValue (Key.height height) value) :
    ∃ codec : Codec, ∃ v, ∃ txs : List Transaction, codec.marshal v txs = .ok value := by
  rcases h.cases with hkey | ⟨id, -, hkey, -⟩ | ⟨-, codec, v, txs, -, hmarshal⟩
  · exact absurd hkey (Key.height_ne_marker height)
  · exact absurd hkey.symm (Key.tx_ne_height id height)
  · exact ⟨codec, v, txs, hmarshal⟩

/-! ## Reading what is damaged -/

namespace Access

variable {codec : Codec} {faults : Faults} {b : Backend}

/-- A record is read, or else its transaction is found to be corrupted. A call of the codec that
fails is taken for corruption, too, so there is no third outcome. -/
theorem exists_readRecord_of_decode (codec : Codec) (faults : Faults) (b : Backend) {stored : Bytes}
    {record : Record} (h : Record.decode stored = .ok record) :
    (∃ tx, readRecord codec stored faults b =
      .ok (tx, record) { b with calls := b.calls.addCodec .unmarshalTx }) ∨
    ∃ defect b', readRecord codec stored faults b = .error (.corruption defect) b' := by
  have hread : readRecord codec stored =
      (fun tx => (tx, record)) <$> unmarshalTx codec record.payload := by
    unfold readRecord
    rw [h]
    rfl
  rw [hread, map_apply, unmarshalTx, callCodec_eq_ending]
  -- A fault of the codec and a payload that it refuses end in the same kind of defect.
  cases answered (faults.codec .unmarshalTx (b.calls.codec .unmarshalTx))
    (codec.unmarshal record.payload : Except CodecError Transaction) with
  | ok tx => exact .inl ⟨tx, rfl⟩
  | error refusal => exact .inr ⟨.transaction refusal, _, rfl⟩

/-- A batch that the codec refuses is found to be corrupted, unless it cannot be read at all. -/
theorem exists_readBatch_of_error {h : Height} {short : Bytes} {cause : CodecError}
    (hget : b.store.view.get? (Key.height h) = some short)
    (hshort : (codec.unmarshal short : Except CodecError (List Transaction)) = .error cause)
    (hread : faults.store .get (b.calls.store .get) = none) :
    ∃ defect b', readBatch codec h faults b = .error (.corruption defect) b' := by
  unfold readBatch
  rw [bind_apply, get_eq_ending, hread, hget]
  show ∃ defect b', (some <$> unmarshalBatch codec short) faults _ = .error (.corruption defect) b'
  rw [map_apply, unmarshalBatch, callCodec_eq_ending, hshort]
  -- A fault of the call is handed on as corruption, too.
  cases faults.codec .unmarshalBatch _ with
  | none => exact ⟨.batch cause, _, rfl⟩
  | some refusal => exact ⟨.batch refusal, _, rfl⟩

end Access

/-! ## Merging a damaged entry -/

namespace Backfill

variable {codec : Codec} {config : Config} {version : UInt16} {t u : Table} {s : Store}
  {start short : Bytes} {p : Progress} {e : Entry} {faults : Faults} {b : Backend}

/-- A damaged record is found to be corrupted before any call is made. So no fault can come before
it, and there is no hypothesis about the calls. -/
theorem mergeEntry_of_record_error {id : TxId} {defect : Defect} (hkey : e.key = Key.tx id)
    (hrecord : Record.decode e.value = .error defect) :
    mergeEntry codec config p e faults b = .error (.corruption defect) b := by
  unfold mergeEntry Access.readRecord
  rw [Access.bind_apply, Key.txId_eq_ok_iff.2 hkey]
  show (Access.ofStored (Record.decode e.value) >>= _ >>= _) faults b = _
  rw [Access.bind_apply, Access.bind_apply, hrecord]
  rfl

theorem exists_append_of_batch_error {h : Height} {tx : Transaction} {cause : CodecError}
    (hget : b.store.view.get? (Key.height h) = some short)
    (hshort : (codec.unmarshal short : Except CodecError (List Transaction)) = .error cause)
    (hread : faults.store .get (b.calls.store .get) = none) :
    ∃ defect b', append codec version h tx faults b = .error (.corruption defect) b' := by
  obtain ⟨defect, b', hbatch⟩ := Access.exists_readBatch_of_error hget hshort hread
  refine ⟨defect, b', ?_⟩
  unfold append
  rw [Access.bind_apply, hbatch]

/-- Under any faults but one of the read of the batch, a damaged batch is found to be corrupted, if
nothing else has been before. -/
theorem exists_mergeEntry_of_batch_error {record : Record} {cause : CodecError}
    (hrecord : Record.decode e.value = .ok record)
    (hget : b.store.view.get? (Key.height record.height) = some short)
    (hshort : (codec.unmarshal short : Except CodecError (List Transaction)) = .error cause)
    (hread : faults.store .get (b.calls.store .get) = none) :
    ∃ defect b', mergeEntry codec config p e faults b = .error (.corruption defect) b' := by
  unfold mergeEntry
  rw [Access.bind_apply]
  cases Key.txId e.key with
  | error defect => exact ⟨defect, b, rfl⟩
  | ok cursor =>
    show ∃ defect b', (Access.readRecord codec e.value >>= _) faults b = .error (.corruption defect) b'
    rw [Access.bind_apply]
    rcases Access.exists_readRecord_of_decode codec faults b hrecord with
      ⟨tx, hwhole⟩ | ⟨defect, b', hrefused⟩
    · -- The transaction is whole, so the batch is read next.
      rw [hwhole]
      have happend : ∃ defect b', append codec config.codecVersion record.height tx faults
          { b with calls := b.calls.addCodec .unmarshalTx } = .error (.corruption defect) b' :=
        exists_append_of_batch_error hget hshort hread
      obtain ⟨defect, b', happend⟩ := happend
      refine ⟨defect, b', ?_⟩
      show (append codec config.codecVersion record.height tx >>= _) faults _ = _
      rw [Access.bind_apply, happend]
    · rw [hrefused]
      exact ⟨defect, b', rfl⟩

/-! ## Merging up to it -/

theorem mergeInto_of_record_error {id : TxId} {defect : Defect} (hkey : e.key = Key.tx id)
    (hrecord : Record.decode e.value = .error defect) :
    mergeInto codec version t e = .error (.corruption defect) := by
  have hitem : readItem codec e = .error (.corruption defect) :=
    readItem_eq_error_iff.2
      (.inr ⟨id, Key.txId_eq_ok_iff.2 hkey, .inl ⟨defect, hrecord, rfl⟩⟩)
  unfold mergeInto
  rw [hitem]
  rfl

/-- A record whose batch is damaged cannot be merged. Should the record itself be damaged as well,
that is found first, and is corruption too. -/
theorem exists_mergeInto_of_batch_error {record : Record} {cause : CodecError}
    (hrecord : Record.decode e.value = .ok record)
    (hget : t.get? (Key.height record.height) = some short)
    (hshort : (codec.unmarshal short : Except CodecError (List Transaction)) = .error cause) :
    ∃ defect, mergeInto codec version t e = .error (.corruption defect) := by
  unfold mergeInto
  cases hitem : readItem codec e with
  | error other =>
    -- The record cannot be read, and each of the reasons is a corruption.
    rcases readItem_eq_error_iff.1 hitem with
      ⟨defect, -, rfl⟩ | ⟨id, -, ⟨defect, -, rfl⟩ | ⟨record', -, refusal, -, rfl⟩⟩
    · exact ⟨defect, rfl⟩
    · exact ⟨defect, rfl⟩
    · exact ⟨.transaction refusal, rfl⟩
  | ok item =>
    -- The record is read, and its height is that of the damaged batch.
    have hsame : item.record = record :=
      Except.ok.inj ((readItem_eq_ok_iff.1 hitem).2.1.symm.trans hrecord)
    have hbatch : batchAt codec t item.record.height = .error (.corruption (.batch cause)) :=
      batchAt_eq_error_iff.2 ⟨short, hsame ▸ hget, cause, hshort, rfl⟩
    refine ⟨.batch cause, ?_⟩
    show (extension codec version t item.record.height item.tx >>= _) = _
    unfold extension
    rw [hbatch]
    rfl

/-- A merge that succeeds has left every batch that cannot be read, for a record of that height
would have made it fail. -/
theorem get?_of_mergeAll {h : Height} {cause : CodecError} {entries : List Entry}
    (hget : t.get? (Key.height h) = some short)
    (hshort : (codec.unmarshal short : Except CodecError (List Transaction)) = .error cause)
    (hmerge : mergeAll codec version t entries = .ok u) :
    u.get? (Key.height h) = some short := by
  refine mergeAll_induct (P := fun u => u.get? (Key.height h) = some short) ?_ hget hmerge
  intro t₁ e t₂ ht₁ hone
  obtain ⟨item, batch?, hitem, -, rfl⟩ := mergeInto_eq_ok_iff.1 hone
  -- The damaged batch is untouched if the record that is merged names another height.
  rw [get?_extend_of_ne]
  · exact ht₁
  · intro heq
    rw [heq] at ht₁
    have hrefused : ∃ defect, mergeInto codec version t₁ e = .error (.corruption defect) :=
      exists_mergeInto_of_batch_error (readItem_eq_ok_iff.1 hitem).2.1 ht₁ hshort
    obtain ⟨defect, hrefused⟩ := hrefused
    rw [hrefused] at hone
    cases hone

/-- A merge fails at the first record that cannot be merged into what those before it have made. -/
theorem mergeAll_of_reached {upto rest : List Entry} {cause : Error}
    (hupto : mergeAll codec version t upto = .ok u)
    (hone : mergeInto codec version u e = .error cause) :
    mergeAll codec version t (upto ++ e :: rest) = .error cause := by
  rw [mergeAll_append, hupto]
  show mergeAll codec version u (e :: rest) = _
  rw [mergeAll_cons, hone]
  rfl

end Backfill

namespace Repository

open Backfill

variable {codec : Codec} {config : Config} {lastAccepted : Height} {s : Store} {start : Bytes}
  {upto rest : List Entry} {e : Entry}

/-- Opening the store does not get past the entries `upto`: it never succeeds, and without faults it
reports corruption once these are merged. -/
structure Blocked (codec : Codec) (config : Config) (lastAccepted : Height) (s : Store)
    (upto : List Entry) : Prop where
  never : ∀ faults calls r b, openStore codec config lastAccepted faults ⟨s, calls⟩ ≠ .ok r b
  corrupted : ∀ calls u, mergeAll codec config.codecVersion s.view upto = .ok u →
    ∃ defect b, openStore codec config lastAccepted Faults.none ⟨s, calls⟩ =
      .error (.corruption defect) b

/-- Without faults, opening fails as the merge of the entries does, and with the same error. -/
theorem exists_openStore_of_mergeAll_error (lastAccepted : Height) (calls : Calls) {cause : Error}
    (hdue : dueFrom s.view = some start)
    (hmerge : mergeAll codec config.codecVersion s.view (toCome start s.view) = .error cause) :
    ∃ b, openStore codec config lastAccepted Faults.none ⟨s, calls⟩ = .error cause b := by
  obtain ⟨outcome, s', hruns, houtcome⟩ :=
    exists_runs_openStore_of_mergeAll codec config lastAccepted hdue
  rw [hmerge] at houtcome
  obtain ⟨b, hopen, -⟩ := hruns.eq_ending calls
  cases outcome with
  | ok r => cases houtcome
  | error other =>
    cases houtcome
    exact ⟨b, hopen⟩

/-- **An entry that cannot be merged blocks the opening.** With faults it may fail before, but it
never succeeds, since a success would have merged the entry; without faults it gets to the entry, if
those before it can be merged. -/
theorem blocked_of_mergeInto_error (hdue : dueFrom s.view = some start)
    (hcome : toCome start s.view = upto ++ e :: rest)
    (hone : ∀ u, mergeAll codec config.codecVersion s.view upto = .ok u →
      ∃ defect, mergeInto codec config.codecVersion u e = .error (.corruption defect)) :
    Blocked codec config lastAccepted s upto where
  never faults calls r b hopen := by
    obtain ⟨report, hrun, -⟩ := openStore_eq_ok_iff.1 hopen
    obtain ⟨t, hmerge, -, -⟩ := exists_mergeAll_of_run hrun hdue
    change mergeAll codec config.codecVersion s.view (toCome start s.view) = .ok t at hmerge
    rw [hcome] at hmerge
    -- A success would have merged the entry behind those before it.
    obtain ⟨u, hupto, hrest⟩ := mergeAll_append_eq_ok_iff.1 hmerge
    obtain ⟨defect, hrefused⟩ := hone u hupto
    obtain ⟨u', hok, -⟩ := mergeAll_cons_eq_ok_iff.1 hrest
    rw [hrefused] at hok
    cases hok
  corrupted calls u hupto := by
    obtain ⟨defect, hrefused⟩ := hone u hupto
    have hmerge : mergeAll codec config.codecVersion s.view (toCome start s.view) =
        .error (.corruption defect) := by
      rw [hcome]
      exact mergeAll_of_reached hupto hrefused
    exact ⟨defect, exists_openStore_of_mergeAll_error lastAccepted calls hdue hmerge⟩

/-! ## What is never taken for a value -/

/-- A look-up that fails because of what it finds, unless it cannot read at all. -/
structure Unread (fault? : Option StoreError) (result : Access.Result α) : Prop where
  corrupted : fault? = none → ∃ defect b, result = .error (.corruption defect) b
  unavailable : ∀ cause, fault? = some cause → ∃ b, result = .error (.store cause) b

/-- A look-up that finds what cannot be answered for fails for it, unless its read fails before. -/
theorem unread_of_lookedUp {fault? : Option StoreError} {missing : Error} {bytes : Bytes}
    {answer : Bytes → Except Error α} {b : Backend} {result : Access.Result α}
    (hanswer : ∃ defect, answer bytes = .error (.corruption defect))
    (hresult : result = Access.ending (lookedUp fault? (some bytes) missing answer) b) :
    Unread fault? result where
  corrupted hclear := by
    subst hclear
    obtain ⟨defect, hanswer⟩ := hanswer
    refine ⟨defect, b, hresult.trans ?_⟩
    show Access.ending (answer bytes) b = _
    rw [hanswer]
    rfl
  unavailable cause hfault := by
    subst hfault
    exact ⟨b, hresult⟩

/-- Under the id, nothing takes the bytes for a record. -/
structure RefusedRecord (id : TxId) (short : Bytes) : Prop where
  lookup : ∀ (r : Repository) faults b, b.store.view.get? (Key.tx id) = some short →
    Unread (faults.store .get (b.calls.store .get)) (r.getByTxId id faults b)
  merge : ∀ codec config p faults b, ∃ defect,
    mergeEntry codec config p ⟨Key.tx id, short⟩ faults b = .error (.corruption defect) b
  opening : ∀ codec config lastAccepted s start upto rest, dueFrom s.view = some start →
    toCome start s.view = upto ++ ⟨Key.tx id, short⟩ :: rest →
      Blocked codec config lastAccepted s upto

/-- Under the height, nothing takes the bytes for a batch. -/
structure RefusedBatch (height : Height) (short : Bytes) : Prop where
  lookup : ∀ (r : Repository) faults b, b.store.view.get? (Key.height height) = some short →
    Unread (faults.store .get (b.calls.store .get)) (r.getByHeight height faults b)
  merge : ∀ codec config p faults b e record, Record.decode e.value = .ok record →
    record.height = height → b.store.view.get? (Key.height height) = some short →
      faults.store .get (b.calls.store .get) = none →
        ∃ defect b', mergeEntry codec config p e faults b = .error (.corruption defect) b'
  opening : ∀ codec config lastAccepted s start upto e rest record,
    s.view.get? (Key.height height) = some short → dueFrom s.view = some start →
      toCome start s.view = upto ++ e :: rest → Record.decode e.value = .ok record →
        record.height = height → Blocked codec config lastAccepted s upto

/-- What is no stored record is refused in all three places: they decode it before they do anything
else. -/
theorem refusedRecord_of_decode (id : TxId) {short : Bytes} {defect : Defect}
    (h : Record.decode short = .error defect) : RefusedRecord id short where
  lookup r faults b hget := by
    obtain ⟨b', hresult, -⟩ := getByTxId_eq_ending r id faults b
    rw [hget] at hresult
    refine unread_of_lookedUp ⟨defect, ?_⟩ hresult
    unfold answerRecord
    rw [h]
    rfl
  merge codec config p faults b := ⟨defect, mergeEntry_of_record_error rfl h⟩
  opening codec config lastAccepted s start upto rest hdue hcome :=
    blocked_of_mergeInto_error hdue hcome fun u _ => ⟨defect, mergeInto_of_record_error rfl h⟩

/-- What no codec reads is refused wherever a batch is read. By the time that an opening comes to
the entry, the batch is what it was at first (`get?_of_mergeAll`). -/
theorem refusedBatch_of_unmarshal (height : Height) {short : Bytes}
    (h : ∀ codec : Codec, ∃ cause,
      (codec.unmarshal short : Except CodecError (List Transaction)) = .error cause) :
    RefusedBatch height short where
  lookup r faults b hget := by
    obtain ⟨cause, hcause⟩ := h r.codec
    obtain ⟨b', hresult, -⟩ := getByHeight_eq_ending r height faults b
    rw [hget] at hresult
    refine unread_of_lookedUp ?_ hresult
    unfold answerBatch
    simp only [hcause]
    -- The call of the codec may fail as well, and that is answered as corruption, too.
    cases faults.codec .unmarshalBatch _ with
    | some refusal => exact ⟨.batch refusal, rfl⟩
    | none => exact ⟨.batch cause, rfl⟩
  merge codec config p faults b e record hrecord hheight hget hread := by
    obtain ⟨cause, hcause⟩ := h codec
    subst hheight
    exact exists_mergeEntry_of_batch_error hrecord hget hcause hread
  opening codec config lastAccepted s start upto e rest record hget hdue hcome hrecord hheight := by
    obtain ⟨cause, hcause⟩ := h codec
    subst hheight
    exact blocked_of_mergeInto_error hdue hcome fun u hupto =>
      exists_mergeInto_of_batch_error hrecord (get?_of_mergeAll hget hcause hupto) hcause

/-- **A stored value that has lost its end is detected.** Encoded transactions and batches are not
the beginnings of one another, and no codec reads a proper beginning. So what a write or a backfill
has stored under an id or under a height is refused when any part of its end is missing: by
look-ups, whatever else fails, and by a backfill that comes to that record or to a record of that
height. -/
theorem cut_values_detected :
    (∀ codec : Codec,
      Codec.RefusesCuts Transaction codec ∧ Codec.RefusesCuts (List Transaction) codec) ∧
    (∀ id value short, OwnValue (Key.tx id) value → Cut short value → RefusedRecord id short) ∧
    ∀ height value short, OwnValue (Key.height height) value → Cut short value →
      RefusedBatch height short := by
  refine ⟨fun codec => ⟨codec.refusesCuts_transactions, codec.refusesCuts_batches⟩,
    fun id value short hvalue hcut => ?_, fun height value short hvalue hcut => ?_⟩
  · -- A record tells its length, so a cut of it is no record.
    obtain ⟨record, hencode⟩ := hvalue.exists_encode
    obtain ⟨defect, hdecode⟩ := Record.exists_decode_of_cut hencode hcut
    exact refusedRecord_of_decode id hdecode
  · -- A batch is read to its end, so a cut of it ends too early for every codec.
    obtain ⟨codec, v, txs, hmarshal⟩ := hvalue.exists_marshal
    exact refusedBatch_of_unmarshal height fun codec' =>
      Codec.formatted_batches.exists_unmarshal_of_cut hmarshal hcut codec'

/-- The batch of two transactions that a backfill stores, cut between the two: neither is read. -/
theorem cut_values_detected_second_lost :
    let whole := Sample.batch [Sample.tx 1, Sample.tx 2]
    let short := whole.take (10 + (Sample.tx 1).body.length)
    let s := Sample.store.put (Key.height 5) short
    OwnValue (Key.height 5) whole ∧ Cut short whole ∧
      (∀ r : Repository, ∃ defect b,
        r.getByHeight 5 Faults.none ⟨s, {}⟩ = .error (.corruption defect) b) ∧
      ∃ defect b, openStore {} Sample.smallSteps 9 Faults.none ⟨s, {}⟩ =
        .error (.corruption defect) b := by
  intro whole short s
  -- The whole batch is what a backfill of the sample stores.
  have hstores : Stores (openStore {} Sample.smallSteps 9) (Key.height 5) whole :=
    ⟨Faults.none, ⟨Sample.store, {}⟩, by decide +kernel, by decide +kernel⟩
  have hvalue : OwnValue (Key.height 5) whole := .backfill hstores
  have hcut : Cut short whole := ⟨List.take_prefix _ _, by decide +kernel⟩
  have hrefused := cut_values_detected.2.2 5 whole short hvalue hcut
  have hget : s.view.get? (Key.height 5) = some short := by
    rw [Store.view_put, Table.get?_insert_self]
  refine ⟨hvalue, hcut, fun r => ?_, ?_⟩
  · exact (hrefused.lookup r Faults.none ⟨s, {}⟩ hget).corrupted rfl
  · -- The first record has the height.
    have hrecord : Record.decode (Sample.record 5 (Sample.tx 1)) =
        .ok ⟨5, bigEndian 2 0 ++ (Sample.tx 1).body⟩ := by decide +kernel
    have hblocked := hrefused.opening {} Sample.smallSteps 9 s (Space.txById.key []) []
      ⟨Key.tx (Sample.id 1), Sample.record 5 (Sample.tx 1)⟩
      [⟨Key.tx (Sample.id 2), Sample.record 5 (Sample.tx 2)⟩] _ hget (by decide +kernel)
      (by decide +kernel) hrecord rfl
    exact hblocked.corrupted {} _ rfl

end Repository

end TxIndex
