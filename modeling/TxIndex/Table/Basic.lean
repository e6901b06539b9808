import TxIndex.Bytes.Order

/-!
# Ordered tables

A table maps keys to values and keeps its entries in ascending order of the keys. It *is* that list
of entries, with the order in the type, so two tables that answer every look-up alike are equal.

* `get?`, `insert`: one key.
* `overlay`: all entries of a second table written over the first.
* `range`: the entries of one key family from a start on, at most so many.
-/

namespace TxIndex

/-- A key with its value. -/
structure Entry where
  key : Bytes
  value : Bytes
  deriving DecidableEq

/-- The first key is the smaller one. -/
def Entry.Before (d e : Entry) : Prop := d.key < e.key

/-- A finite map from keys to values: entries in strictly ascending order of their keys. -/
structure Table where
  entries : List Entry
  ascending : entries.Pairwise Entry.Before
  deriving DecidableEq

namespace Table

/-- The table without entries. -/
def empty : Table := ⟨[], .nil⟩

instance : Inhabited Table := ⟨empty⟩

/-- How many keys have a value. -/
def size (t : Table) : Nat := t.entries.length

/-- The value of a key, if it has one. The first entry found is the only one, since keys do not
repeat. -/
def get? (t : Table) (key : Bytes) : Option Bytes :=
  (t.entries.find? fun e => e.key == key).map Entry.value

/-! ## Insertion -/

/-- Puts an entry at its place, over an entry of the same key. -/
def insertEntry (new : Entry) : List Entry → List Entry
  | [] => [new]
  | e :: rest =>
    if new.key < e.key then new :: e :: rest
    else if e.key < new.key then e :: insertEntry new rest
    else new :: rest

/-- An insertion adds nothing but the entry. (It may take one away, the earlier one of the same
key.) -/
theorem mem_insertEntry {new d : Entry} {entries : List Entry} (h : d ∈ insertEntry new entries) :
    d = new ∨ d ∈ entries := by
  induction entries with
  | nil => simpa [insertEntry] using h
  | cons e rest ih =>
    unfold insertEntry at h
    split at h
    · simpa using h
    · split at h
      · rcases List.mem_cons.1 h with rfl | h
        · exact .inr (List.mem_cons_self ..)
        · exact (ih h).imp_right (List.mem_cons_of_mem _)
      · exact (List.mem_cons.1 h).imp_right (List.mem_cons_of_mem _)

/-- An insertion keeps the order, so that `insert` can build a table again. The cases are those of
the definition: the new entry is put in front, further back, or in the place of one with the same
key. -/
theorem ascending_insertEntry (new : Entry) {entries : List Entry}
    (h : entries.Pairwise Entry.Before) : (insertEntry new entries).Pairwise Entry.Before := by
  induction entries with
  | nil => exact List.pairwise_singleton ..
  | cons e rest ih =>
    obtain ⟨hfirst, hrest⟩ := List.pairwise_cons.1 h
    unfold insertEntry
    split
    · next hlt =>
      refine List.pairwise_cons.2 ⟨?_, h⟩
      intro d hd
      rcases List.mem_cons.1 hd with rfl | hd
      · exact hlt
      · exact Bytes.lt_trans hlt (hfirst d hd)
    · next hnlt =>
      split
      · next hgt =>
        refine List.pairwise_cons.2 ⟨?_, ih hrest⟩
        intro d hd
        rcases mem_insertEntry hd with rfl | hd
        · exact hgt
        · exact hfirst d hd
      · next hngt =>
        -- Two keys of which neither is smaller are equal, so the new entry stands where the old
        -- one did.
        have heq : new.key = e.key := Bytes.eq_of_not_lt hnlt hngt
        refine List.pairwise_cons.2 ⟨?_, hrest⟩
        intro d hd
        rw [Entry.Before, heq]
        exact hfirst d hd

/-- Gives a key a value, whether or not it had one. -/
def insert (t : Table) (key value : Bytes) : Table :=
  ⟨insertEntry ⟨key, value⟩ t.entries, ascending_insertEntry _ t.ascending⟩

/-! ## Combination and parts -/

/-- The entries of `top` written over `base`. -/
def overlay (base top : Table) : Table :=
  top.entries.foldl (fun t e => t.insert e.key e.value) base

/-- At most `limit` entries from the key `start` on, up to the first whose key does not begin with
`pre`. -/
def range (t : Table) (start pre : Bytes) (limit : Nat) : Table where
  entries := ((t.entries.dropWhile fun e => decide (e.key < start)).takeWhile fun e =>
    pre.isPrefixOf e.key).take limit
  ascending := t.ascending.sublist <|
    (List.take_sublist ..).trans <|
      (List.takeWhile_sublist ..).trans (List.dropWhile_sublist ..)

end Table

end TxIndex
