import TxIndex.Access.Basic

/-!
# Cursors

A cursor goes through the entries of one key space in ascending order. It asks the store for a page
at a time and gives the entries out one by one, their keys without the tag of the space.

A page shorter than asked for is the last one. If a scan fails, the cursor tells so once and is then
exhausted; so exhaustion alone does not mean that every entry has been seen.
-/

namespace TxIndex

/-- A position in a key space, with the entries fetched and not yet given out. -/
structure Cursor where
  space : Space
  nextStart : Bytes
  /-- How many entries a page has. -/
  pageSize : Nat
  pageSize_pos : 0 < pageSize
  buffer : List Entry := []
  /-- No further page will be fetched. -/
  finished : Bool := false
  deriving DecidableEq

namespace Cursor

/-- What a cursor gives when it is asked for the next entry. -/
inductive Yield where
  | entry (e : Entry)
  | failure (cause : Error)
  | exhausted
  deriving DecidableEq

/-- Why a collection of entries ended. -/
inductive Ending where
  /-- As many entries as were wanted. -/
  | limit
  | failure (cause : Error)
  | exhausted
  deriving DecidableEq

/-- A cursor at the first key of the space whose suffix is not before `suffix`. A page size of zero
is used as one. -/
def start (space : Space) (suffix : Bytes) (pageSize : Nat) : Cursor where
  space
  nextStart := space.key suffix
  pageSize := max 1 pageSize
  pageSize_pos := Nat.le_max_left 1 pageSize

/-- The entry without the tag of the space. -/
def untagged (c : Cursor) (e : Entry) : Entry :=
  { e with key := e.key.drop c.space.tag.length }

/-- The cursor after a page has been fetched. -/
def fetched (c : Cursor) (page : List Entry) : Cursor :=
  { c with
    finished := decide (page.length < c.pageSize)
    nextStart :=
      match page.getLast? with
      | some e => Key.successor e.key
      | none => c.nextStart
    buffer := page.map c.untagged }

/-- Gives out what is in the buffer. -/
def pop (c : Cursor) : Yield × Cursor :=
  match c.buffer with
  | e :: rest => (.entry e, { c with buffer := rest })
  | [] => (.exhausted, c)

/-- The next entry. A page is fetched when the buffer is empty and the last page was full. -/
def next (c : Cursor) : Access (Yield × Cursor) := do
  if c.buffer.isEmpty && !c.finished then
    match ← Access.attempt (Access.scan c.nextStart c.space.tag c.pageSize) with
    | .ok page => return (c.fetched page).pop
    | .error cause => return (.failure cause, { c with finished := true })
  else
    return c.pop

/-- At most `n` entries, why there are not more, and the cursor behind them. -/
def take : Nat → Cursor → Access (List Entry × Ending × Cursor)
  | 0, c => return ([], .limit, c)
  | n + 1, c => do
    match ← c.next with
    | (.entry e, c') =>
      let (entries, ending, c'') ← take n c'
      return (e :: entries, ending, c'')
    | (.failure cause, c') => return ([], .failure cause, c')
    | (.exhausted, c') => return ([], .exhausted, c')

/-- All entries. There are no more than the cursor and the store hold. -/
def drain (c : Cursor) : Access (List Entry × Ending × Cursor) := fun faults b =>
  c.take (c.buffer.length + b.store.view.size + 1) faults b

end Cursor

end TxIndex
