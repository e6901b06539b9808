import TxIndex.Digest.Sha256

/-!
# Transactions

A transaction moves an amount to or from another chain. Its identifier is a digest of everything
that is signed: the signature is left out, so that signing does not change the identifier, and the
payload is announced by its length, so that no two unsigned transactions hash the same message.
-/

namespace TxIndex

/-- The digest by which a transaction is found. -/
abbrev TxId := FixedBytes 32

/-- How many bytes an identifier has. -/
def TxId.width : Nat := 32

/-- The identifier of a chain. -/
abbrev ChainId := FixedBytes 32

/-- A transaction accepted at some height. -/
structure Transaction where
  /-- The chain on the other side of the transfer. -/
  sourceChain : ChainId
  /-- Counts the transactions of one sender. -/
  nonce : UInt64
  /-- The amount moved, in base units. -/
  amount : UInt64
  /-- The body, opaque to the index. -/
  payload : Blob
  /-- The signature over the unsigned fields. -/
  signature : Blob := Blob.empty
  deriving DecidableEq

/-- The unsigned fields as the identifier covers them, numbers in big-endian order. -/
def Transaction.unsigned (tx : Transaction) : Bytes :=
  tx.sourceChain.val ++ bigEndian 8 tx.nonce.toNat ++ bigEndian 8 tx.amount.toNat ++
    bigEndian 8 tx.payload.val.length ++ tx.payload.val

/-- The identifier: the SHA-256 digest of the unsigned fields. -/
def Transaction.id (tx : Transaction) : TxId :=
  Sha256.hash tx.unsigned

end TxIndex
