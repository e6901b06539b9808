import TxIndex.Backfill.Remaining

/-!
# The backfill

Opening a repository runs the backfill once. It reads the progress marker, and unless the index by
height is complete it merges every record of the index by id from the marker's position on and then
marks the index complete.

A backfill that fails keeps what its last checkpoint committed. The next one goes on from there,
and merges the record of the checkpoint once more.
-/

namespace TxIndex.Backfill

/-- The first key to merge, unless there is nothing to do. -/
def State.start? : State → Option Bytes
  | .fresh => some (Space.txById.key [])
  | .resuming cursor => some (Key.tx cursor)
  | .done _ => none

/-- Merges page after page from `start` on, up to a short page. -/
def mergePages (codec : Codec) (config : Config) (start : Bytes) (p : Progress)
    (faults : Faults) (b : Backend) : Access.Result Progress :=
  match _h : mergePage codec config start p faults b with
  | .error e b' => .error e b'
  | .ok (p', none) b' => .ok p' b'
  | .ok (p', some next) b' => mergePages codec config next p' faults b'
termination_by remaining start b.store
decreasing_by exact remaining_lt_of_mergePage _h

/-- Builds the index by height, if that is not done, and marks it complete through
`lastAccepted`. -/
def run (codec : Codec) (config : Config) (lastAccepted : Height) : Access Report := do
  let state := State.ofMarker (← Access.readMarker)
  match state.start? with
  | none => return { state }
  | some start =>
    let p ← (mergePages codec config start { report := { state } } : Access Progress)
    Access.putMarker (.complete lastAccepted)
    Access.commit
    return p.report

end TxIndex.Backfill
