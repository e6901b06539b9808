import TxIndex.Height
import TxIndex.Store.Error

/-!
# Failures of the repository

Every operation of the repository ends in one of these. Nothing is retried: store and codec
failures are handed on as they are, and a stored value of an unexpected form is `corruption`,
never "not found".
-/

namespace TxIndex

/-- Why an operation of the repository fails. -/
inductive Error where
  | txNotFound (id : TxId)
  | heightNotFound (height : Height)
  | corruption (defect : Defect)
  /-- A height carries more transactions than the configured bound. -/
  | batchTooLarge (height : Height) (count max : Nat)
  | store (cause : StoreError)
  | codec (cause : CodecError)
  deriving DecidableEq

namespace Error

/-- The text of a failure, which names the id, the height or the defect that it is about. -/
def message : Error → String
  | txNotFound id => "Transaction not found: " ++ Bytes.toHex id.val
  | heightNotFound height => "No transactions indexed at height " ++ toString height.toNat
  | corruption defect => "Corrupted " ++ defect.subject ++ ": " ++ defect.reason
  | batchTooLarge height count max =>
    "Too many transactions at height " ++ toString height.toNat ++ ": " ++ toString count ++
      " (max " ++ toString max ++ ")"
  | store cause => cause.message
  | codec cause => cause.message

/-- Nothing is stored under what was asked for. -/
def isNotFound : Error → Bool
  | txNotFound _ | heightNotFound _ => true
  | _ => false

/-- Something is stored that does not have the form of its place. -/
def isCorruption : Error → Bool
  | corruption _ => true
  | _ => false

end Error

end TxIndex
