/-! # Values

The values that a store keeps: nothing, a truth value, an integer, a text, or a list of values. -/

namespace HashStore

/-- A stored value. -/
inductive Value where
  | null
  | truth (b : Bool)
  | integer (n : Int)
  | text (s : String)
  | list (items : List Value)

/-- The number that a value is, if it is one. -/
def Value.toInt? : Value → Option Int
  | .integer n => some n
  | _ => none

end HashStore
