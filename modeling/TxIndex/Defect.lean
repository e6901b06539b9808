import TxIndex.Bytes.Hex
import TxIndex.Codec.Error
import TxIndex.Transaction

/-!
# Defects of stored data

A stored key or value that does not have the form its place demands. Each constructor is one cause;
`Defect.subject` says what is corrupted and `Defect.reason` how.
-/

namespace TxIndex

/-- What is wrong with stored bytes. -/
inductive Defect where
  | heightWidth (length : Nat)
  | recordTooShort (length : Nat)
  /-- A record whose header announces another payload length than follows. -/
  | recordLength (declared actual : Nat)
  /-- A payload whose length does not fit the record header. -/
  | payloadTooLong (length : Nat)
  /-- A progress marker of no known length. -/
  | markerLength (bytes : Bytes)
  /-- A progress marker whose tag does not go with the length of its body. -/
  | markerTag (tag : UInt8) (bodyLength : Nat)
  /-- A progress marker that is still a cursor although the backfill is over. -/
  | markerUnfinished (cursor : TxId)
  /-- A key among the transactions by id that holds no transaction id. -/
  | txKey (key : Bytes)
  | transaction (cause : CodecError)
  | batch (cause : CodecError)
  /-- A defect that its finder describes. -/
  | described (subject reason : String)
  deriving DecidableEq

/-- Two digits of a byte after `0x`. -/
def hexLiteral (b : UInt8) : String :=
  "0x" ++ Bytes.toHex [b]

namespace Defect

/-- What is corrupted, as a person is told. -/
def subject : Defect → String
  | heightWidth _ => "height"
  | recordTooShort _ | recordLength _ _ | payloadTooLong _ => "by-id record"
  | markerLength _ | markerTag _ _ | markerUnfinished _ => "progress marker"
  | txKey _ => "by-id key"
  | transaction _ => "by-id transaction"
  | batch _ => "by-height batch"
  | described subject _ => subject

/-- In which way it is corrupted, with the lengths and bytes that were found. -/
def reason : Defect → String
  | heightWidth length => "expected 8 bytes, got " ++ toString length
  | recordTooShort length =>
    "entry too short: " ++ toString length ++ " bytes (need at least 12)"
  | recordLength declared actual =>
    "declared payload length " ++ toString declared ++ " but " ++ toString actual ++
      " bytes follow"
  | payloadTooLong length => "payload of " ++ toString length ++ " bytes exceeds u32 length"
  | markerLength bytes =>
    "unexpected length " ++ toString bytes.length ++ ": " ++ Bytes.toHex bytes
  | markerTag tag bodyLength =>
    "tag " ++ hexLiteral tag ++ " with " ++ toString bodyLength ++ " byte body"
  | markerUnfinished cursor =>
    "migration cursor 0x" ++ Bytes.toHex cursor.val ++ " after open"
  | txKey key => "not a tx id key: " ++ Bytes.toHex key
  | transaction cause | batch cause => cause.message
  | described _ reason => reason

end Defect

end TxIndex
