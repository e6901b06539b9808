import TxIndex.Access.Closed
import TxIndex.Backfill.Merge

/-!
# Properties of the calls of a merge

A merge reads a batch, writes a batch or the marker, commits, and makes no other call of the store.
So a property that is proved along the text of a program holds of a merge as soon as it holds of
these calls (`OfCalls`); which calls those are is said here once, for all such properties.
-/

namespace TxIndex

open Backfill

/-- Appending to a batch reads the batch and writes what the codec makes of the longer one. So the
put has to keep the property for encoded batches only, and not for any bytes. -/
theorem Access.Closed.append {P : ∀ α : Type, Access α → Prop} (h : Access.Closed P)
    {codec : Codec} {version : UInt16} {height : Height}
    (hget : P _ (Access.get (Key.height height)))
    (hput : ∀ {txs : List Transaction} {value}, codec.marshal version txs = .ok value →
      P _ (Access.put (Key.height height) value))
    (tx : Transaction) : P Bool (append codec version height tx) := by
  refine h.bind (h.readBatch codec hget) fun batch? => ?_
  refine Access.Closed.ite (h.pure false) ?_
  refine h.callCodec_bind (fun _ _ heq => nomatch heq) fun value hvalue => ?_
  exact h.bind (hput hvalue) fun _ => h.pure true

namespace Backfill

/-- `P` can be proved along the text of a program, and holds of each call of the store by which
batches of this codec and version are merged. -/
structure OfCalls (P : ∀ α : Type, Access α → Prop) (codec : Codec) (version : UInt16) : Prop
    extends Access.Closed P where
  getBatch : ∀ height, P _ (Access.get (Key.height height))
  putBatch : ∀ {height} {txs : List Transaction} {value}, codec.marshal version txs = .ok value →
    P _ (Access.put (Key.height height) value)
  putMarker : ∀ marker, P _ (Access.putMarker marker)
  commit : P _ Access.commit

namespace OfCalls

variable {P : ∀ α : Type, Access α → Prop} {codec : Codec} {config : Config}

/-- A checkpoint is a put and a commit. -/
theorem checkpoint {version : UInt16} (h : OfCalls P codec version) (cursor : TxId) :
    P Unit (checkpoint cursor) :=
  h.bind (h.putMarker _) fun _ => h.commit

/-- The steps of a merge, in the order of its text: the key, the record, the batch, and a checkpoint
where one is due. -/
theorem mergeEntry (h : OfCalls P codec config.codecVersion) (p : Progress) (e : Entry) :
    P Progress (mergeEntry codec config p e) := by
  refine h.bind (h.ofStored _) fun cursor => ?_
  refine h.bind (h.readRecord codec e.value) fun read => ?_
  refine h.bind (h.append (h.getBatch _) h.putBatch _) fun appended => ?_
  exact Access.Closed.ite (h.bind (h.checkpoint cursor) fun _ => h.pure _) (h.pure _)

/-- A page is a scan and a merge for each of its entries. The scan is asked for separately, since it
is the one call of a backfill that goes through many keys. -/
theorem mergePage (h : OfCalls P codec config.codecVersion)
    (hscan : ∀ start limit, P _ (Access.scan start Space.txById.tag limit)) (start : Bytes)
    (p : Progress) : P (Progress × Option Bytes) (mergePage codec config start p) :=
  h.bind (hscan start config.pageSize) fun page =>
    h.bind (h.foldlM h.mergeEntry page p) fun _ => h.pure _

end OfCalls

end Backfill

end TxIndex
