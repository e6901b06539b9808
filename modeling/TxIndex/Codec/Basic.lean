import TxIndex.Codec.Wire

/-!
# The versioned codec

An encoded value is a version in two big-endian bytes and a body. A codec knows a list of versions;
all of them share one body format, and a version outside the list is refused both ways.

When reading, the number of bytes is looked at first, then the version, then the body. What follows
the body is ignored.
-/

namespace TxIndex

/-- A codec and the versions it knows. -/
structure Codec where
  supported : List UInt16 := [0]
  deriving DecidableEq, Repr

namespace Codec

/-- Refuses a version that the codec does not know. -/
def check (codec : Codec) (version : UInt16) : Except CodecError Unit :=
  if version ∈ codec.supported then .ok () else .error (.unknownVersion version)

/-- The encoded form of a value under a version: the version in two bytes, then the body. An unknown
version is refused before the value is looked at. -/
def marshal [Writable α] (codec : Codec) (version : UInt16) (value : α) :
    Except CodecError Bytes := do
  codec.check version
  let body ← (Writable.write value).mapError .encode
  return bigEndian 2 version.toNat ++ body

/-- Reads an encoded value. What stands behind the body is left unread and is no failure. -/
def unmarshal [Readable α] (codec : Codec) : Bytes → Except CodecError α
  | hi :: lo :: body => do
    codec.check (UInt16.ofNat (ofBigEndian [hi, lo]))
    match Readable.read.run body with
    | some (value, _) => .ok value
    | none => .error (.decode .unexpectedEnd)
  | short => .error (.truncated short.length)

end Codec

end TxIndex
