import HashStore.Bytes
import HashStore.Hash.Polynomial

/-! # Keys that hash as their printed text

A type is `Printed` if its values can be written out piece by piece.  A key `ByText a` is compared
by its content `a` and hashed by the text that `a` prints, so two contents that print the same text
have the same hash, however either of them cuts that text into pieces.  Printing may fail half way;
what had been written by then is what counts (`written`). -/

namespace HashStore

/-- One step of a value that prints itself. -/
inductive Piece where
  | text (s : String)
  | failure
deriving DecidableEq

/-- The texts that reach the page: all of them up to the first failure. -/
def written : List Piece → List String
  | .text s :: rest => s :: written rest
  | .failure :: _ => []
  | [] => []

/-- Values that print themselves piece by piece. -/
class Printed (α : Type) where
  pieces : α → List Piece

/-- A key that is hashed by the text its content prints. -/
structure ByText (α : Type) where
  content : α
deriving BEq, Ord

namespace ByText

variable {α : Type} [Printed α]

/-- The hash of the printed text, computed while it is being written. -/
def hash (key : ByText α) : UInt64 :=
  (written (Printed.pieces key.content)).foldl (fun h s => Polynomial.extend h (utf8 s)) 0

instance : Hashable (ByText α) := ⟨hash⟩

end ByText

/-- Contents of a key that is hashed by its text. -/
inductive Displayed where
  /-- A signed integer, in decimal. -/
  | integer (n : Int)
  /-- An unsigned integer, in decimal. -/
  | natural (n : Nat)
  /-- A truth value, `true` or `false`. -/
  | truth (b : Bool)
  | letter (c : Char)
  | text (s : String)
  /-- An Internet address in dotted form. -/
  | address (dotted : String)
  /-- Texts written one after another, after which printing ends or fails. -/
  | parts (texts : List String) (completes : Bool)
deriving DecidableEq

instance : Printed Int := ⟨fun n => [.text (toString n)]⟩

instance : Printed Nat := ⟨fun n => [.text (toString n)]⟩

instance : Printed String := ⟨fun s => [.text s]⟩

instance : Printed Displayed where
  pieces
    | .integer n => Printed.pieces n
    | .natural n => Printed.pieces n
    | .truth b => [.text (if b then "true" else "false")]
    | .letter c => [.text (String.singleton c)]
    | .text s => Printed.pieces s
    | .address dotted => [.text dotted]
    | .parts texts completes => texts.map .text ++ if completes then [] else [.failure]

end HashStore
