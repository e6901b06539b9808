import TxIndex.Codec.Basic
import TxIndex.Error
import TxIndex.Marker
import TxIndex.Record
import TxIndex.Space
import TxIndex.Store.Basic

/-!
# Programs over a store and a codec

The operations of the repository are programs of type `Access α`: they call a store and a codec,
and every call may fail. What fails is fixed from outside by `Faults`, which look at the operation
and at how often it has been called before. So a statement about all `Faults` is a statement about
failures at any moment.

* A call is counted whether or not it fails, and a call that fails does not reach the store.
* A program that fails leaves the store as it is at that moment: nothing is rolled back.
-/

namespace TxIndex

/-- The operations of a store that can fail. An abort is not among them. -/
inductive StoreCall where
  | get | put | scan | commit
  deriving DecidableEq, Repr

/-- The operations of a codec, told apart by what is encoded. -/
inductive CodecCall where
  | marshalTx | unmarshalTx | marshalBatch | unmarshalBatch
  deriving DecidableEq, Repr

/-- How often each call has been made. -/
structure Calls where
  store : StoreCall → Nat := fun _ => 0
  codec : CodecCall → Nat := fun _ => 0

namespace Calls

/-- One more call of the store, of this operation. -/
def addStore (calls : Calls) (call : StoreCall) : Calls :=
  { calls with store := fun c => if c = call then calls.store c + 1 else calls.store c }

/-- One more call of the codec, of this operation. -/
def addCodec (calls : Calls) (call : CodecCall) : Calls :=
  { calls with codec := fun c => if c = call then calls.codec c + 1 else calls.codec c }

end Calls

/-- What fails: the error of the call that has been made `n` times before, if it has one. -/
structure Faults where
  store : StoreCall → Nat → Option StoreError := fun _ _ => none
  codec : CodecCall → Nat → Option CodecError := fun _ _ => none

namespace Faults

/-- Nothing fails. -/
def none : Faults := {}

/-- A call of the store fails from the moment on at which it has been made `n` times. -/
def limitStore (faults : Faults) (call : StoreCall) (n : Nat) (error : StoreError) : Faults :=
  { faults with store := fun c k => if c = call ∧ n ≤ k then some error else faults.store c k }

/-- A call of the codec fails from the moment on at which it has been made `n` times. -/
def limitCodec (faults : Faults) (call : CodecCall) (n : Nat) (error : CodecError) : Faults :=
  { faults with codec := fun c k => if c = call ∧ n ≤ k then some error else faults.codec c k }

end Faults

/-- The store that a program works on, and the calls made so far. -/
structure Backend where
  store : Store
  calls : Calls := {}

/-- A program over a store and a codec. Its failures keep the store. -/
abbrev Access := ReaderT Faults (EStateM Error Backend)

namespace Access

/-- How a program ends, with what it leaves behind. -/
abbrev Result (α : Type) := EStateM.Result Error Backend α

/-- What a program leaves behind, however it ends. -/
def after (program : Access α) (faults : Faults) (b : Backend) : Backend :=
  match program faults b with
  | .ok _ b' => b'
  | .error _ b' => b'

/-- Fails with the defect, if there is one. -/
def ofStored : Except Defect α → Access α
  | .ok value => pure value
  | .error defect => throw (.corruption defect)

/-- Runs a program and hands its failure over as a value. -/
def attempt (program : Access α) : Access (Except Error α) := fun faults b =>
  match program faults b with
  | .ok value b => .ok (.ok value) b
  | .error e b => .ok (.error e) b

/-! ## Calls of the store -/

/-- Makes a call of the store: counts it, and unless it fails applies `act`. -/
def callStore (call : StoreCall) (act : Store → α × Store) : Access α := fun faults b =>
  let calls := b.calls.addStore call
  match faults.store call (b.calls.store call) with
  | some e => .error (.store e) { b with calls }
  | none =>
    let (value, store) := act b.store
    .ok value { store, calls }

/-- The value of a key, if it has one. -/
def get (key : Bytes) : Access (Option Bytes) :=
  callStore .get fun s => (s.get? key, s)

/-- Stages a write. -/
def put (key value : Bytes) : Access Unit :=
  callStore .put fun s => ((), s.put key value)

/-- The first `limit` entries from `start` on whose keys begin with `pre`. -/
def scan (start pre : Bytes) (limit : Nat) : Access (List Entry) :=
  callStore .scan fun s => (s.scan start pre limit, s)

/-- Makes the staged writes durable. -/
def commit : Access Unit :=
  callStore .commit fun s => ((), s.commit)

/-- Forgets the staged writes. This cannot fail. -/
def abort : Access Unit :=
  modify fun b => { b with store := b.store.abort }

/-! ## Calls of the codec -/

/-- Makes a call of the codec: counts it, and fails with `fail` of the fault or of the codec's own
error. -/
def callCodec (call : CodecCall) (outcome : Except CodecError α) (fail : CodecError → Error) :
    Access α := fun faults b =>
  let b' := { b with calls := b.calls.addCodec call }
  match faults.codec call (b.calls.codec call) with
  | some e => .error (fail e) b'
  | none =>
    match outcome with
    | .ok value => .ok value b'
    | .error e => .error (fail e) b'

/-- The encoded form of a transaction. A value that has none is a failure of the codec and no
corruption. -/
def marshalTx (codec : Codec) (version : UInt16) (tx : Transaction) : Access Bytes :=
  callCodec .marshalTx (codec.marshal version tx) .codec

/-- The encoded form of a batch. -/
def marshalBatch (codec : Codec) (version : UInt16) (txs : List Transaction) : Access Bytes :=
  callCodec .marshalBatch (codec.marshal version txs) .codec

/-- The transaction that stored bytes encode; other bytes are a defect of what is stored. -/
def unmarshalTx (codec : Codec) (bytes : Bytes) : Access Transaction :=
  callCodec .unmarshalTx (codec.unmarshal bytes) fun e => .corruption (.transaction e)

/-- The batch that stored bytes encode; other bytes are a defect of what is stored. -/
def unmarshalBatch (codec : Codec) (bytes : Bytes) : Access (List Transaction) :=
  callCodec .unmarshalBatch (codec.unmarshal bytes) fun e => .corruption (.batch e)

/-! ## What is stored -/

/-- How far the index by height has been built, if there is a marker. One that is stored and cannot
be read is a defect, and never taken for a missing one. -/
def readMarker : Access (Option Marker) := do
  match ← get Key.marker with
  | some bytes => some <$> ofStored (Marker.decode bytes)
  | none => return none

/-- Stages a marker in its tagged form, over whatever form is there. -/
def putMarker (marker : Marker) : Access Unit :=
  put Key.marker marker.encode

/-- The batch of a height, if the height has one. -/
def readBatch (codec : Codec) (height : Height) : Access (Option (List Transaction)) := do
  match ← get (Key.height height) with
  | some bytes => some <$> unmarshalBatch codec bytes
  | none => return none

/-- The transaction that a record of the index by id holds, with its height. -/
def readRecord (codec : Codec) (stored : Bytes) : Access (Transaction × Record) := do
  let record ← ofStored (Record.decode stored)
  let tx ← unmarshalTx codec record.payload
  return (tx, record)

end Access

end TxIndex
