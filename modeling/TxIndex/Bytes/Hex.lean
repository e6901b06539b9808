import TxIndex.Bytes.Basic

/-!
# Hexadecimal text

Identifiers and keys are shown to people as two lower case hexadecimal digits per byte
(`Bytes.toHex`). Where people write such text, digits of either case are read (`Bytes.ofHex?`).
-/

namespace TxIndex.Bytes

/-- The two digits of a byte, the high one first. -/
def hexPair (b : UInt8) : List Char :=
  [Nat.digitChar (b.toNat / 16), Nat.digitChar (b.toNat % 16)]

/-- Two lower case digits per byte, without separators. -/
def toHex (bytes : Bytes) : String :=
  String.ofList (bytes.flatMap hexPair)

/-- The value of one hexadecimal digit of either case. -/
def hexDigit? (c : Char) : Option Nat :=
  if '0' ≤ c ∧ c ≤ '9' then some (c.toNat - '0'.toNat)
  else if 'a' ≤ c ∧ c ≤ 'f' then some (c.toNat - 'a'.toNat + 10)
  else if 'A' ≤ c ∧ c ≤ 'F' then some (c.toNat - 'A'.toNat + 10)
  else none

/-- Reads digits pair by pair; an odd number of them is refused. -/
def ofHexDigits? : List Char → Option Bytes
  | [] => some []
  | [_] => none
  | hi :: lo :: rest => do
    let h ← hexDigit? hi
    let l ← hexDigit? lo
    let bytes ← ofHexDigits? rest
    return UInt8.ofNat (16 * h + l) :: bytes

/-- The bytes that a hexadecimal text denotes. -/
def ofHex? (text : String) : Option Bytes :=
  ofHexDigits? text.toList

end TxIndex.Bytes
