import TxIndex.Marker

/-!
# States and reports of a backfill

A backfill starts in the state that the progress marker tells, and reports what it has done.
-/

namespace TxIndex.Backfill

/-- Where a backfill starts. -/
inductive State where
  /-- No marker: the whole index by height is to be built. -/
  | fresh
  /-- An interrupted backfill: go on with `cursor`, which is merged once more. -/
  | resuming (cursor : TxId)
  /-- The index by height is complete through `height`. -/
  | done (height : Height)
  deriving DecidableEq

/-- The state that a marker tells; where there is none, everything is to be built. -/
def State.ofMarker : Option Marker → State
  | none => .fresh
  | some (.inProgress cursor) => .resuming cursor
  | some (.complete height) => .done height

/-- What a backfill has done, from the state it started in. -/
structure Report where
  state : State
  /-- Transactions appended to the index by height. -/
  indexed : Nat := 0
  /-- Transactions that were at their height already. -/
  duplicates : Nat := 0
  /-- Commits before the last one. -/
  checkpoints : Nat := 0
  /-- Bytes of the encoded transactions that were read. -/
  bytesProcessed : Nat := 0
  deriving DecidableEq

/-- The index was complete and nothing was done. -/
def Report.wasNoop (r : Report) : Bool :=
  match r.state with
  | .done _ => true
  | _ => false

end TxIndex.Backfill
