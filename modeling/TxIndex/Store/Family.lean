import TxIndex.Store.Basic

/-!
# Handles on one committed table

Several handles may stand on the same committed data. Each stages its own writes; a commit of one
of them is seen by all, at once and as a whole. Handles are numbered in the order in which they
came into being, and the number of a handle that is gone is not used again.
-/

namespace TxIndex

/-- The handles on one committed table; `none` is a handle that is gone. -/
structure Family where
  committed : Table := .empty
  handles : List (Option Handle) := [some {}]
  deriving DecidableEq

namespace Family

/-- What is done with the handles of a family. -/
inductive Step where
  | put (handle : Nat) (key value : Bytes)
  | commit (handle : Nat)
  | abort (handle : Nat)
  /-- Makes a new handle beside the given one. -/
  | reopen (handle : Nat)
  | drop (handle : Nat)

/-- The store that a handle sees. -/
def store? (f : Family) (handle : Nat) : Option Store :=
  f.handles[handle]?.join.map fun h => { h with committed := f.committed }

/-- Replaces a handle and what is committed by those of a store. -/
def set (f : Family) (handle : Nat) (s : Store) : Family where
  committed := s.committed
  handles := f.handles.set handle (some s.toHandle)

/-- Adds a handle behind the others. -/
def add (f : Family) (h : Handle) : Family :=
  { f with handles := f.handles ++ [some h] }

/-- Takes a handle away, with what it has staged. -/
def drop (f : Family) (handle : Nat) : Family :=
  { f with handles := f.handles.set handle none }

/-- Works on the store that a handle sees; a handle that is gone changes nothing. -/
def modify (f : Family) (handle : Nat) (g : Store → Store) : Family :=
  match f.store? handle with
  | some s => f.set handle (g s)
  | none => f

/-- One step; a step with a handle that is gone changes nothing. -/
def step (f : Family) : Step → Family
  | .put handle key value => f.modify handle (·.put key value)
  | .commit handle => f.modify handle Store.commit
  | .abort handle => f.modify handle Store.abort
  | .reopen handle => if (f.store? handle).isSome then f.add {} else f
  | .drop handle => f.drop handle

end Family

end TxIndex
