/-!
# Encoding and decoding failures

The causes for which a value cannot be encoded or bytes cannot be decoded, and the text of each.
-/

namespace TxIndex

/-- Why a value has no encoded form. -/
inductive EncodeFault where
  /-- The value refuses, in its own words. -/
  | refused (reason : String)
  /-- A sequence that cannot tell its length before it is written. -/
  | unsizedSequence
  /-- A sequence too long for the 64-bit length in front of it. -/
  | sequenceTooLong (length : Nat)
  deriving DecidableEq, Repr

/-- The text of the cause, as it stands behind "Encode failed". -/
def EncodeFault.message : EncodeFault → String
  | .refused reason => reason
  | .unsizedSequence =>
    "Bincode can only encode sequences and maps that have a knowable size ahead of time"
  | .sequenceTooLong length => "sequence of " ++ toString length ++ " elements is too long"

/-- Why bytes behind a known version are not an encoded value. -/
inductive DecodeFault where
  | unexpectedEnd
  /-- The decoder refuses, in its own words. -/
  | refused (reason : String)
  deriving DecidableEq, Repr

/-- The text of the cause, as it stands behind "Decode failed". -/
def DecodeFault.message : DecodeFault → String
  | .unexpectedEnd => "io error: unexpected end of file"
  | .refused reason => reason

/-- Why a codec refuses, to encode or to decode. -/
inductive CodecError where
  | unknownVersion (version : UInt16)
  /-- The bytes are too few to hold a version. -/
  | truncated (length : Nat)
  | encode (fault : EncodeFault)
  | decode (fault : DecodeFault)
  deriving DecidableEq, Repr

/-- The text of a refusal, with that of its cause. -/
def CodecError.message : CodecError → String
  | .unknownVersion version => "Unknown codec version " ++ toString version.toNat
  | .truncated length => "Encoded value truncated: " ++ toString length ++ " bytes"
  | .encode fault => "Encode failed: " ++ fault.message
  | .decode fault => "Decode failed: " ++ fault.message

end TxIndex
