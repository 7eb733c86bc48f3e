/-! # Outcomes of operations

`StoreError` lists what can go wrong, and `Written` tells an insertion from an update. -/

namespace HashStore

/-- What can go wrong in a store. -/
inductive StoreError where
  /-- The key that was asked for is absent. -/
  | notFound
deriving DecidableEq

def StoreError.message : StoreError → String
  | .notFound => "key not found"

/-- How a write came about. -/
inductive Written where
  /-- The key was absent and a new entry was made. -/
  | inserted
  /-- The key was present and its value was replaced. -/
  | updated
deriving DecidableEq

end HashStore
