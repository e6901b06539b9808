import TxIndex.Table.Basic

/-!
# The versioned store

A store holds committed data and the writes that one handle has staged over it. Reads answer from
the staged writes first. A commit makes all staged writes part of the committed data at once; an
abort forgets them.

What is committed outlives the handle and may be shared with other handles (`Store.Family`), so
reopening keeps it and nothing else.
-/

namespace TxIndex

/-- What belongs to one handle alone. -/
structure Handle where
  /-- The writes since the last commit or abort, the latest one of each key. -/
  staged : Table := .empty
  /-- How many commits the handle has made. -/
  commits : Nat := 0
  deriving DecidableEq

/-- A handle with the committed data it stands on. -/
structure Store extends Handle where
  committed : Table := .empty
  deriving DecidableEq

namespace Store

/-- What the handle reads: the staged writes over the committed data. -/
def view (s : Store) : Table :=
  s.committed.overlay s.staged

/-- The value of a key, staged or else committed. -/
def get? (s : Store) (key : Bytes) : Option Bytes :=
  (s.staged.get? key).or (s.committed.get? key)

/-- Stages a write. A later one of the same key takes its place. -/
def put (s : Store) (key value : Bytes) : Store :=
  { s with staged := s.staged.insert key value }

/-- The first `limit` entries of the view whose keys begin with `pre` and are not before `start`.

They are among the first `limit` of the committed data and the first `limit` of the staged writes,
so only these are read and merged. -/
def scan (s : Store) (start pre : Bytes) (limit : Nat) : List Entry :=
  let lower := if start < pre then pre else start
  let page := (s.committed.range lower pre limit).overlay (s.staged.range lower pre limit)
  page.entries.take limit

/-- Makes the staged writes part of the committed data. -/
def commit (s : Store) : Store :=
  { staged := .empty, commits := s.commits + 1, committed := s.view }

/-- Forgets the staged writes; what is committed stays. -/
def abort (s : Store) : Store :=
  { s with staged := .empty }

/-- A new handle on the committed data. -/
def reopen (s : Store) : Store :=
  { committed := s.committed }

/-- How many keys have staged writes. -/
def pendingWrites (s : Store) : Nat :=
  s.staged.size

end Store

end TxIndex
