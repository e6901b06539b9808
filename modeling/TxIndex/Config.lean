/-!
# Configuration

The settings of a repository and of the backfill that opening it may run.
-/

namespace TxIndex

/-- How a repository encodes, reads page by page, and how often a backfill commits. -/
structure Config where
  /-- A backfill makes a checkpoint as soon as the payloads since the last one exceed this many
  bytes. -/
  commitSizeCap : Nat := 10 * 1024 * 1024
  /-- The least time between two progress notices of a backfill, in milliseconds. -/
  progressIntervalMs : Nat := 15000
  /-- How many entries one scan of the store asks for; zero is used as one. -/
  scanPageSize : Nat := 1024
  /-- The most transactions that one height may carry. -/
  maxTxsPerHeight : Option Nat := none
  /-- The version under which transactions and batches are encoded. -/
  codecVersion : UInt16 := 0
  deriving DecidableEq, Repr

namespace Config

/-- Sets how many bytes may be merged between two checkpoints. -/
def withCommitSizeCap (bytes : Nat) (c : Config) : Config :=
  { c with commitSizeCap := bytes }

def withProgressIntervalMs (ms : Nat) (c : Config) : Config :=
  { c with progressIntervalMs := ms }

/-- Sets the page size; zero becomes one. -/
def withScanPageSize (size : Nat) (c : Config) : Config :=
  { c with scanPageSize := max 1 size }

/-- Refuses heights that carry more than `max` transactions. -/
def withMaxTxsPerHeight (max : Nat) (c : Config) : Config :=
  { c with maxTxsPerHeight := some max }

/-- Sets the version to encode with. A version that the codec does not know is refused when it is
used. -/
def withCodecVersion (version : UInt16) (c : Config) : Config :=
  { c with codecVersion := version }

/-- The page size in use. -/
def pageSize (c : Config) : Nat :=
  max 1 c.scanPageSize

/-- A page is never empty, so page by page one always gets on. -/
theorem pageSize_pos (c : Config) : 0 < c.pageSize :=
  Nat.le_max_left 1 c.scanPageSize

end Config

end TxIndex
