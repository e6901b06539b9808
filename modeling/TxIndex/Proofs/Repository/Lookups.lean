import TxIndex.Proofs.Access.Runs
import TxIndex.Proofs.Backfill.Verdicts
import TxIndex.Repository

/-!
# How look-ups end

A look-up reads one value and decodes it. What it comes to is told by three things alone: whether
the read fails, what is stored under the key, and how the codec answers for the bytes that it is
given, which is its fault or else its verdict on them (`Codec.Answer`).

* `Lookup` lists the ways in which a look-up ends, with the error of each; `RecordAnswer` and
  `BatchAnswer` do so for a value that is there.
* `getByTxId_eq_ending`, `getByHeight_eq_ending`: the look-ups under any faults, as functions of
  those three things.
* `lookups_classified`: the list is complete, and no two entries of it overlap.
-/

namespace TxIndex

/-! ## One call of the codec -/

/-- What a call comes to that may fail. -/
def Access.answered {ε : Type} (fault? : Option ε) (outcome : Except ε α) : Except ε α :=
  match fault? with
  | some e => .error e
  | none => outcome

/-- How the codec answers for bytes that it is to decode: with the fault of the call, if it has one,
and else with the verdict. -/
inductive Codec.Answer (codec : Codec) (fault? : Option CodecError) (Fits : α → Prop)
    (format : α → Bytes) (bytes : Bytes) : Except CodecError α → Prop where
  | fault {cause : CodecError} (hfault : fault? = some cause) :
      Answer codec fault? Fits format bytes (.error cause)
  | verdict {outcome : Except CodecError α} (hclear : fault? = none)
      (hverdict : Verdict codec Fits format bytes outcome) :
      Answer codec fault? Fits format bytes outcome

namespace Codec

variable [Readable α] [Writable α] {codec : Codec} {Fits : α → Prop} {format : α → Bytes}

/-- Where the codec is exact, its answer can be told from the bytes: it is the fault of the call, or
the verdict on them. -/
theorem answered_iff (h : Exact codec Fits format) (fault? : Option CodecError) (bytes : Bytes)
    (outcome : Except CodecError α) :
    Access.answered fault? (codec.unmarshal bytes) = outcome ↔
      Answer codec fault? Fits format bytes outcome := by
  cases fault? with
  | none =>
    refine ⟨fun heq => .verdict rfl ((h.unmarshal_iff bytes outcome).1 heq), fun hanswer => ?_⟩
    cases hanswer with
    | fault hfault => cases hfault
    | verdict _ hverdict => exact (h.unmarshal_iff bytes outcome).2 hverdict
  | some cause =>
    refine ⟨fun heq => ?_, fun hanswer => ?_⟩
    · subst heq
      exact .fault rfl
    · cases hanswer with
      | fault hfault =>
        cases hfault
        rfl
      | verdict hclear _ => cases hclear

end Codec

namespace Access

/-- A call of the codec comes to its answer. It is counted whether it fails or not. -/
theorem callCodec_eq_ending (call : CodecCall) (outcome : Except CodecError α)
    (fail : CodecError → Error) (faults : Faults) (b : Backend) :
    callCodec call outcome fail faults b =
      ending ((answered (faults.codec call (b.calls.codec call)) outcome).mapError fail)
        { b with calls := b.calls.addCodec call } := by
  unfold callCodec answered
  cases faults.codec call (b.calls.codec call) with
  | some cause => rfl
  | none => cases outcome <;> rfl

/-- A read of the store comes to the value under the key, or to its fault. -/
theorem get_eq_ending (key : Bytes) (faults : Faults) (b : Backend) :
    get key faults b =
      ending ((answered (faults.store .get (b.calls.store .get))
        (.ok (b.store.view.get? key))).mapError .store)
        { b with calls := b.calls.addStore .get } := by
  rw [Store.get?_view]
  unfold get callStore answered
  cases faults.store .get (b.calls.store .get) <;> rfl

theorem ofStored_eq_ending (outcome : Except Defect α) (faults : Faults) (b : Backend) :
    ofStored outcome faults b = ending (outcome.mapError .corruption) b := by
  cases outcome <;> rfl

/-- Where neither step changes the store, the program comes to what the steps come to. The calls
that have been made are left open, since no outcome is told by them. -/
theorem exists_ending_bind {program : Access α} {rest : α → Access β} {faults : Faults}
    {b b₁ : Backend} {first : Except Error α} {next : α → Except Error β}
    (hfirst : program faults b = ending first b₁) (hstore : b₁.store = b.store)
    (hrest : ∀ value, ∃ b', rest value faults b₁ = ending (next value) b' ∧ b'.store = b₁.store) :
    ∃ b', (program >>= rest) faults b = ending (first >>= next) b' ∧ b'.store = b.store := by
  rw [bind_apply, hfirst]
  cases first with
  | error e => exact ⟨b₁, rfl, hstore⟩
  | ok value =>
    obtain ⟨b', hrun, hsame⟩ := hrest value
    exact ⟨b', hrun, hsame.trans hstore⟩

end Access

namespace Repository

/-! ## The ways in which a look-up ends -/

/-- What is answered for a value of the index by id, where the codec answers for a payload as
`Answers` tells. -/
inductive RecordAnswer (Answers : Bytes → Except CodecError Transaction → Prop) :
    Bytes → Except Error (Transaction × Height) → Prop where
  /-- The height, the length of the payload in four bytes, and a payload that is decoded. -/
  | found {height : Height} {payload : Bytes} {tx : Transaction}
      (hlength : payload.length < capacity 4) (hpayload : Answers payload (.ok tx)) :
      RecordAnswer Answers (height.pack ++ bigEndian 4 payload.length ++ payload) (.ok (tx, height))
  | refused {height : Height} {payload : Bytes} {cause : CodecError}
      (hlength : payload.length < capacity 4) (hpayload : Answers payload (.error cause)) :
      RecordAnswer Answers (height.pack ++ bigEndian 4 payload.length ++ payload)
        (.error (.corruption (.transaction cause)))
  | short {bytes : Bytes} (hshort : bytes.length < 12) :
      RecordAnswer Answers bytes (.error (.corruption (.recordTooShort bytes.length)))
  /-- Another number of bytes follows the header than it announces. -/
  | mismatch {height : Height} {declared : Nat} {rest : Bytes} (hdeclared : declared < capacity 4)
      (hdiffer : declared ≠ rest.length) :
      RecordAnswer Answers (height.pack ++ bigEndian 4 declared ++ rest)
        (.error (.corruption (.recordLength declared rest.length)))

/-- What is answered for a value of the index by height. -/
inductive BatchAnswer (Answers : Bytes → Except CodecError (List Transaction) → Prop)
    (bytes : Bytes) : Except Error (List Transaction) → Prop where
  | found {txs : List Transaction} (hbytes : Answers bytes (.ok txs)) :
      BatchAnswer Answers bytes (.ok txs)
  | refused {cause : CodecError} (hbytes : Answers bytes (.error cause)) :
      BatchAnswer Answers bytes (.error (.corruption (.batch cause)))

/-- How a look-up ends, by the fault of its read, by what is stored under the key, by the error that
tells that nothing is, and by what is answered for a value. -/
inductive Lookup (fault? : Option StoreError) (stored? : Option Bytes) (missing : Error)
    (Answers : Bytes → Except Error α → Prop) : Except Error α → Prop where
  | unavailable {cause : StoreError} (hfault : fault? = some cause) :
      Lookup fault? stored? missing Answers (.error (.store cause))
  | absent (hclear : fault? = none) (hnone : stored? = none) :
      Lookup fault? stored? missing Answers (.error missing)
  | present {bytes : Bytes} {outcome : Except Error α} (hclear : fault? = none)
      (hsome : stored? = some bytes) (hanswer : Answers bytes outcome) :
      Lookup fault? stored? missing Answers outcome

/-- What a look-up comes to. -/
def lookedUp (fault? : Option StoreError) (stored? : Option Bytes) (missing : Error)
    (answer : Bytes → Except Error α) : Except Error α := do
  match ← (Access.answered fault? (.ok stored?)).mapError .store with
  | some bytes => answer bytes
  | none => .error missing

theorem lookedUp_some (bytes : Bytes) (missing : Error)
    (answer : Bytes → Except Error α) :
    lookedUp none (some bytes) missing answer = answer bytes := rfl

theorem lookedUp_none (missing : Error) (answer : Bytes → Except Error α) :
    lookedUp none none missing answer = .error missing := rfl

/-- The transaction and the height that a value of the index by id holds. -/
def answerRecord (answer : Bytes → Except CodecError Transaction) (bytes : Bytes) :
    Except Error (Transaction × Height) := do
  let record ← (Record.decode bytes).mapError .corruption
  let tx ← (answer record.payload).mapError fun cause => .corruption (.transaction cause)
  return (tx, record.height)

/-- The transactions that a value of the index by height holds. -/
def answerBatch (answer : Bytes → Except CodecError (List Transaction)) (bytes : Bytes) :
    Except Error (List Transaction) :=
  (answer bytes).mapError fun cause => .corruption (.batch cause)

/-- A look-up comes to what `Lookup` lists, where the answers for a value are those that are listed
for it. The three cases of the list are those of the read: it fails, finds nothing, or finds
something. -/
theorem lookedUp_iff {fault? : Option StoreError} {stored? : Option Bytes} {missing : Error}
    {answer : Bytes → Except Error α} {Answers : Bytes → Except Error α → Prop}
    (h : ∀ bytes outcome, answer bytes = outcome ↔ Answers bytes outcome)
    (outcome : Except Error α) :
    lookedUp fault? stored? missing answer = outcome ↔
      Lookup fault? stored? missing Answers outcome := by
  refine ⟨fun heq => ?_, fun hlookup => ?_⟩
  · subst heq
    -- A fault comes before the value, and the value before its decoding.
    cases fault? with
    | some cause => exact .unavailable rfl
    | none =>
      cases stored? with
      | none => exact .absent rfl rfl
      | some bytes => exact .present rfl rfl ((h bytes _).1 rfl)
  · cases hlookup with
    | unavailable hfault =>
      subst hfault
      rfl
    | absent hclear hnone =>
      subst hclear hnone
      rfl
    | present hclear hsome hanswer =>
      subst hclear hsome
      exact (h _ _).2 hanswer

theorem answerBatch_iff {answer : Bytes → Except CodecError (List Transaction)}
    {Answers : Bytes → Except CodecError (List Transaction) → Prop}
    (h : ∀ bytes outcome, answer bytes = outcome ↔ Answers bytes outcome) (bytes : Bytes)
    (outcome : Except Error (List Transaction)) :
    answerBatch answer bytes = outcome ↔ BatchAnswer Answers bytes outcome := by
  unfold answerBatch
  refine ⟨fun heq => ?_, fun hanswer => ?_⟩
  · subst heq
    cases hbytes : answer bytes with
    | ok txs => exact .found ((h _ _).1 hbytes)
    | error cause => exact .refused ((h _ _).1 hbytes)
  · cases hanswer with
    | found hbytes => rw [(h _ _).2 hbytes]; rfl
    | refused hbytes => rw [(h _ _).2 hbytes]; rfl

/-- The answers for a record are those that are listed for it. The list looks at the fields of the
header, the program at their positions; `Record.decode_eq_error_iff_header` goes between the two. -/
theorem answerRecord_iff {answer : Bytes → Except CodecError Transaction}
    {Answers : Bytes → Except CodecError Transaction → Prop}
    (h : ∀ bytes outcome, answer bytes = outcome ↔ Answers bytes outcome) (bytes : Bytes)
    (outcome : Except Error (Transaction × Height)) :
    answerRecord answer bytes = outcome ↔ RecordAnswer Answers bytes outcome := by
  have hwhole {height : Height} {payload : Bytes} (hlength : payload.length < capacity 4) :
      Record.decode (height.pack ++ bigEndian 4 payload.length ++ payload) =
        .ok { height, payload } :=
    Record.decode_of_encode (if_pos hlength)
  unfold answerRecord
  refine ⟨fun heq => ?_, fun hanswer => ?_⟩
  · subst heq
    cases hrecord : Record.decode bytes with
    | error defect =>
      rcases Record.decode_eq_error_iff_header.1 hrecord with
        ⟨hshort, rfl⟩ | ⟨height, declared, rest, rfl, hdeclared, hdiffer, rfl⟩
      · exact .short hshort
      · exact .mismatch hdeclared hdiffer
    | ok record =>
      -- What is read has that stored form.
      obtain ⟨hlength, rfl⟩ := Record.encode_eq_ok_iff.1 (Record.encode_of_decode hrecord)
      show RecordAnswer Answers _ ((answer record.payload).mapError _ >>= fun tx => _)
      cases hpayload : answer record.payload with
      | ok tx => exact .found hlength ((h _ _).1 hpayload)
      | error cause => exact .refused hlength ((h _ _).1 hpayload)
  · cases hanswer with
    | found hlength hpayload =>
      rw [hwhole hlength]
      show ((answer _).mapError _ >>= fun tx => _) = _
      rw [(h _ _).2 hpayload]
      rfl
    | refused hlength hpayload =>
      rw [hwhole hlength]
      show ((answer _).mapError _ >>= fun tx => _) = _
      rw [(h _ _).2 hpayload]
      rfl
    | short hshort =>
      rw [Record.decode_eq_error_iff_header.2 (.inl ⟨hshort, rfl⟩)]
      rfl
    | mismatch hdeclared hdiffer =>
      rw [Record.decode_of_mismatch hdeclared hdiffer]
      rfl

/-! ## The look-ups -/

variable {r : Repository} {faults : Faults} {b : Backend}

/-- **The look-up of a transaction, under any faults.** It reads the value, decodes the record and
then the payload in it, one after the other, and none of the three changes the store. -/
theorem getByTxId_eq_ending (r : Repository) (id : TxId) (faults : Faults) (b : Backend) :
    ∃ b', r.getByTxId id faults b =
        Access.ending (lookedUp (faults.store .get (b.calls.store .get))
          (b.store.view.get? (Key.tx id)) (.txNotFound id)
          (answerRecord fun payload => Access.answered
            (faults.codec .unmarshalTx (b.calls.codec .unmarshalTx))
            (r.codec.unmarshal payload))) b' ∧
      b'.store = b.store := by
  refine Access.exists_ending_bind (Access.get_eq_ending (Key.tx id) faults b) rfl fun stored? => ?_
  cases stored? with
  | none => exact ⟨_, rfl, rfl⟩
  | some stored =>
    -- What is left are the two decodings, and neither calls the store.
    unfold Access.readRecord
    simp only [bind_assoc, pure_bind]
    refine Access.exists_ending_bind (Access.ofStored_eq_ending _ _ _) rfl fun record => ?_
    exact Access.exists_ending_bind (Access.callCodec_eq_ending _ _ _ _ _) rfl fun tx =>
      ⟨_, rfl, rfl⟩

/-- **The look-up of a height, under any faults.** The value is the batch itself, so the codec is
asked for the bytes as they are stored. -/
theorem getByHeight_eq_ending (r : Repository) (height : Height) (faults : Faults) (b : Backend) :
    ∃ b', r.getByHeight height faults b =
        Access.ending (lookedUp (faults.store .get (b.calls.store .get))
          (b.store.view.get? (Key.height height)) (.heightNotFound height)
          (answerBatch fun bytes => Access.answered
            (faults.codec .unmarshalBatch (b.calls.codec .unmarshalBatch))
            (r.codec.unmarshal bytes))) b' ∧
      b'.store = b.store := by
  unfold getByHeight Access.readBatch
  rw [bind_assoc]
  refine Access.exists_ending_bind (Access.get_eq_ending (Key.height height) faults b) rfl
    fun stored? => ?_
  cases stored? with
  | none => exact ⟨_, rfl, rfl⟩
  | some stored =>
    -- The batch that was found is handed on as it is, so the call of the codec is the end.
    show ∃ b', ((Access.unmarshalBatch r.codec stored >>= fun txs => pure (some txs)) >>= _)
      faults _ = _ ∧ _
    simp only [bind_assoc, pure_bind, bind_pure]
    exact ⟨_, Access.callCodec_eq_ending _ _ _ _ _, rfl⟩

/-- The outcome is one of those that `Lookup` lists, and it is clear which: a missing value is never
taken for a corrupted one, nor the other way round, and no error is one of encoding. -/
structure Classified (fault? : Option StoreError) (stored? : Option Bytes) (missing : Error)
    (Answers : Bytes → Except Error α → Prop) (outcome : Except Error α) : Prop where
  lookup_iff : ∀ o, outcome = o ↔ Lookup fault? stored? missing Answers o
  /-- What is stored and cannot be decoded is corrupted, whatever the reason. -/
  corruption : fault? = none → ∀ bytes, stored? = some bytes →
    (∀ value, ¬ Answers bytes (.ok value)) → ∃ defect, outcome = .error (.corruption defect)
  ne_codec : ∀ cause, outcome ≠ .error (.codec cause)
  absent_of_notFound : ∀ e, outcome = .error e → e.isNotFound = true → stored? = none
  present_of_ok : ∀ value, outcome = .ok value → stored? ≠ none

/-- A value is decoded, or it is corrupted. -/
def Sound (Answers : Bytes → Except Error α → Prop) : Prop :=
  ∀ bytes outcome, Answers bytes outcome →
    (∃ value, outcome = .ok value) ∨ ∃ defect, outcome = .error (.corruption defect)

/-- What is stored under an id is answered with a transaction, or it is corrupted. -/
theorem sound_recordAnswer (Answers : Bytes → Except CodecError Transaction → Prop) :
    Sound (RecordAnswer Answers) := by
  intro bytes outcome h
  cases h with
  | found => exact .inl ⟨_, rfl⟩
  | refused => exact .inr ⟨_, rfl⟩
  | short => exact .inr ⟨_, rfl⟩
  | mismatch => exact .inr ⟨_, rfl⟩

theorem sound_batchAnswer (Answers : Bytes → Except CodecError (List Transaction) → Prop) :
    Sound (BatchAnswer Answers) := by
  intro bytes outcome h
  cases h with
  | found => exact .inl ⟨_, rfl⟩
  | refused => exact .inr ⟨_, rfl⟩

/-- A look-up is classified if its answers are listed and sound. Each of the four laws is read off
the list: an error of a kind belongs to one entry of it. -/
theorem classified_lookedUp {fault? : Option StoreError} {stored? : Option Bytes} {missing : Error}
    {answer : Bytes → Except Error α} {Answers : Bytes → Except Error α → Prop}
    (hmissing : missing.isNotFound = true)
    (h : ∀ bytes outcome, answer bytes = outcome ↔ Answers bytes outcome) (hsound : Sound Answers) :
    Classified fault? stored? missing Answers (lookedUp fault? stored? missing answer) := by
  have hiff (o : Except Error α) :
      lookedUp fault? stored? missing answer = o ↔ Lookup fault? stored? missing Answers o :=
    lookedUp_iff h o
  refine ⟨hiff, fun hclear bytes hsome hnone => ?_, fun cause heq => ?_, fun e heq hnot => ?_,
    fun value heq => ?_⟩
  · -- A sound answer that is no value can only be a defect.
    subst hclear hsome
    have hanswer := (h bytes _).1 rfl
    rcases hsound bytes _ hanswer with ⟨value, heq⟩ | hdefect
    · exact absurd (heq ▸ hanswer) (hnone value)
    · exact hdefect
  · -- The errors of an answer are defects, and the one for a missing value is none of encoding.
    cases (hiff _).1 heq with
    | absent => cases hmissing
    | present _ _ hanswer =>
      rcases hsound _ _ hanswer with ⟨value, h⟩ | ⟨defect, h⟩
      · cases h
      · cases h
  · -- Neither a fault of the store nor a defect says that something is not found.
    cases (hiff _).1 heq with
    | unavailable => cases hnot
    | absent _ hnone => exact hnone
    | present _ _ hanswer =>
      rcases hsound _ _ hanswer with ⟨value, h⟩ | ⟨defect, h⟩
      · cases h
      · cases h
        cases hnot
  · cases (hiff _).1 heq with
    | present _ hsome _ =>
      rw [hsome]
      exact Option.some_ne_none _

/-- **Look-ups are classified exactly.** Whatever is stored and whatever fails: a look-up ends in
the one way that the fault of its read, the value under its key and the answer of the codec tell,
and leaves the store as it is. A transaction is found just if the value is a height, the length of a
payload in four bytes and that payload, and the codec decodes the payload; a batch is found just if
the codec decodes the value. The codec decodes bytes if its call does not fail and they begin with a
known version and an encoded value; everything else that is stored is corrupted. -/
theorem lookups_classified (r : Repository) (faults : Faults) (b : Backend) :
    (∀ id, ∃ outcome b', r.getByTxId id faults b = Access.ending outcome b' ∧ b'.store = b.store ∧
      Classified (faults.store .get (b.calls.store .get)) (b.store.view.get? (Key.tx id))
        (.txNotFound id)
        (RecordAnswer (r.codec.Answer (faults.codec .unmarshalTx (b.calls.codec .unmarshalTx))
          (fun _ => True) txFormat)) outcome) ∧
    ∀ height, ∃ outcome b', r.getByHeight height faults b = Access.ending outcome b' ∧
      b'.store = b.store ∧
      Classified (faults.store .get (b.calls.store .get)) (b.store.view.get? (Key.height height))
        (.heightNotFound height)
        (BatchAnswer (r.codec.Answer
          (faults.codec .unmarshalBatch (b.calls.codec .unmarshalBatch))
          (fun txs => txs.length < capacity 8) batchFormat)) outcome := by
  refine ⟨fun id => ?_, fun height => ?_⟩
  · -- Under any faults the look-up is one equation, and the codec's part of it is exact.
    obtain ⟨b', hrun, hstore⟩ := getByTxId_eq_ending r id faults b
    have hcodec := Codec.answered_iff (Codec.formatted_transactions.exact r.codec)
      (faults.codec .unmarshalTx (b.calls.codec .unmarshalTx))
    exact ⟨_, b', hrun, hstore, classified_lookedUp rfl (answerRecord_iff hcodec)
      (sound_recordAnswer _)⟩
  · obtain ⟨b', hrun, hstore⟩ := getByHeight_eq_ending r height faults b
    have hcodec := Codec.answered_iff (Codec.formatted_batches.exact r.codec)
      (faults.codec .unmarshalBatch (b.calls.codec .unmarshalBatch))
    exact ⟨_, b', hrun, hstore, classified_lookedUp rfl (answerBatch_iff hcodec)
      (sound_batchAnswer _)⟩

end Repository

end TxIndex
