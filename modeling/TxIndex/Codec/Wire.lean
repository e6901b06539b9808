import TxIndex.Codec.Error
import TxIndex.Transaction

/-!
# Values as bytes

The body of an encoded value: numbers are eight little-endian bytes, a blob is its length and its
bytes, a sequence is its length and its elements, and a field of fixed width is its bytes alone.

* `Writable` values have such a form or a reason for having none.
* `Readable` values are read from the front of a byte string by a `Reader`, which leaves the rest.
  A length is believed only as far as bytes are there, so a reader fails by reaching the end and in
  no other way.
-/

namespace TxIndex

/-! ## Reading -/

/-- Takes a value from the front of the bytes; `none` means that they end before the value does. -/
abbrev Reader := StateT Bytes Option

namespace Reader

/-- Takes so many bytes, if there are as many. -/
def take (n : Nat) : Reader (FixedBytes n) := fun bytes =>
  if h : n ≤ bytes.length then
    some (⟨bytes.take n, List.length_take_of_le h⟩, bytes.drop n)
  else
    none

/-- Takes a number of eight bytes, the least significant first. -/
def uint64 : Reader UInt64 := do
  let bytes ← take 8
  return UInt64.ofNat (ofLittleEndian bytes.val)

/-- A length and as many bytes. -/
def blob : Reader Blob := do
  let length ← uint64
  let bytes ← take length.toNat
  return ⟨bytes.val, bytes.property.symm ▸ toNat_lt_capacity length⟩

/-- The values of `n` readings in order. -/
def times : Nat → Reader α → Reader (List α)
  | 0, _ => return []
  | n + 1, reader => do
    let value ← reader
    let values ← times n reader
    return value :: values

/-- A length and as many values. -/
def list (reader : Reader α) : Reader (List α) := do
  let length ← uint64
  times length.toNat reader

end Reader

/-- The fields of a transaction in order. -/
def Transaction.read : Reader Transaction := do
  let sourceChain ← Reader.take 32
  let nonce ← Reader.uint64
  let amount ← Reader.uint64
  let payload ← Reader.blob
  let signature ← Reader.blob
  return { sourceChain, nonce, amount, payload, signature }

/-- Values that a reader can take from the front of bytes. -/
class Readable (α : Type) where
  read : Reader α

instance : Readable Transaction where
  read := Transaction.read

instance [Readable α] : Readable (List α) where
  read := Reader.list Readable.read

/-! ## Writing -/

/-- Values that have an encoded form, or a reason for having none. -/
class Writable (α : Type) where
  write : α → Except EncodeFault Bytes

/-- Eight bytes of a number, the least significant first. -/
def writeUInt64 (n : UInt64) : Bytes :=
  littleEndian 8 n.toNat

/-- A length and as many bytes. -/
def writeBlob (blob : Blob) : Bytes :=
  littleEndian 8 blob.val.length ++ blob.val

/-- The encoded form of a transaction: its fields in order. -/
def Transaction.body (tx : Transaction) : Bytes :=
  tx.sourceChain.val ++ writeUInt64 tx.nonce ++ writeUInt64 tx.amount ++
    writeBlob tx.payload ++ writeBlob tx.signature

instance : Writable Transaction where
  write tx := .ok tx.body

/-- A length and the elements in order; the first element that refuses decides. -/
instance [Writable α] : Writable (List α) where
  write values := do
    unless values.length < capacity 8 do throw (.sequenceTooLong values.length)
    let parts ← values.mapM Writable.write
    return littleEndian 8 values.length ++ parts.flatten

end TxIndex
