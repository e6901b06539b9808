import TxIndex.Height

/-!
# Key spaces

All data of the repository lies in one ordered table. Its keys fall into three spaces, each under a
tag of two bytes: the transactions by id, the batches by height, and the bookkeeping, which holds
the progress marker. The tags differ, so a scan of one space never meets a key of another.
-/

namespace TxIndex

/-- The key spaces, one for each index and one for the bookkeeping. -/
inductive Space where
  /-- Records of transactions: `i:` and a transaction id. -/
  | txById
  /-- Batches: `h:` and a packed height. -/
  | txsByHeight
  /-- Bookkeeping: `m:` and a name. -/
  | metadata
  deriving DecidableEq, Repr

namespace Space

/-- The bytes that every key of the space begins with. -/
def tag : Space → Bytes
  | txById => [0x69, 0x3a]
  | txsByHeight => [0x68, 0x3a]
  | metadata => [0x6d, 0x3a]

/-- A key of the space: what identifies the entry, behind the tag. -/
def key (s : Space) (suffix : Bytes) : Bytes :=
  s.tag ++ suffix

/-- The suffix of a key, if the key lies in the space. -/
def strip? (s : Space) (key : Bytes) : Option Bytes :=
  if s.tag.isPrefixOf key then some (key.drop s.tag.length) else none

/-- The suffix of a key is what was put behind the tag. -/
theorem strip?_eq_some_iff {s : Space} {key suffix : Bytes} :
    s.strip? key = some suffix ↔ key = s.key suffix := by
  unfold strip?
  constructor
  · intro h
    split at h
    · next hpre =>
      obtain ⟨rest, rfl⟩ := List.isPrefixOf_iff_prefix.1 hpre
      cases h
      rw [List.drop_left]
      rfl
    · cases h
  · rintro rfl
    have hpre : s.tag.isPrefixOf (s.key suffix) :=
      List.isPrefixOf_iff_prefix.2 (List.prefix_append ..)
    rw [if_pos hpre, Space.key, List.drop_left]

end Space

namespace Key

/-- Where the record of a transaction is stored. -/
def tx (id : TxId) : Bytes :=
  Space.txById.key id.val

/-- Where the batch of a height is stored. -/
def height (h : Height) : Bytes :=
  Space.txsByHeight.key h.pack

/-- Where the progress marker is stored: `m:maxIndexedHeight`. -/
def marker : Bytes :=
  Space.metadata.key [0x6d, 0x61, 0x78, 0x49, 0x6e, 0x64, 0x65, 0x78, 0x65, 0x64,
    0x48, 0x65, 0x69, 0x67, 0x68, 0x74]

/-- The transaction id that a key among the transactions by id holds. -/
def txId (key : Bytes) : Except Defect TxId :=
  match (Space.txById.strip? key).bind (FixedBytes.ofBytes? 32) with
  | some id => .ok id
  | none => .error (.txKey key)

/-- The smallest key after `key`: no byte string lies between it and this one. -/
def successor (key : Bytes) : Bytes :=
  key ++ [0]

end Key

end TxIndex
