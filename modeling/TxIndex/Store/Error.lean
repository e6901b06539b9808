/-!
# Store failures

A store can fail to carry out a single operation, or fail to make staged writes durable.
-/

namespace TxIndex

/-- Why a store has failed. The reason is the store's own text and is handed on as it is. -/
inductive StoreError where
  | io (reason : String)
  | commit (reason : String)
  deriving DecidableEq, Repr

/-- The text of a failure of the store. -/
def StoreError.message : StoreError → String
  | .io reason => "Store I/O error: " ++ reason
  | .commit reason => "Store commit failed: " ++ reason

end TxIndex
