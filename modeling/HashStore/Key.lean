import HashStore.Hash.Printed
import HashStore.Hash.Fed

/-! # Keys

`Key` gathers the kinds of keys a store takes.  Keys of different kinds are never equal, also where
their hashes agree.  An integer hashes to its own bits, letters and texts to the polynomial hash of
their UTF-8 form, byte strings to FNV-1a, and a key behind a reference hashes as what it refers to.
A `custom` key brings its own hash and is compared by its `id` only, so that equal keys can be told
apart and can even have different hashes. -/

namespace HashStore

/-- How a byte string is held. -/
inductive ByteForm where
  | growable
  | slice
  | array (size : Nat)
deriving DecidableEq

/-- How a key behind a reference is held. -/
inductive Reference where
  | borrowed
  | owned
  | shared
deriving DecidableEq

/-- A key of a store. -/
inductive Key where
  | integer (signed : Bool) (size : IntSize) (value : Int)
  | truth (b : Bool)
  | letter (c : Char)
  | text (owned : Bool) (s : String)
  | bytes (form : ByteForm) (content : List UInt8)
  | behind (reference : Reference) (target : Key)
  | byText (key : ByText Displayed)
  | byBytes (key : ByBytes Datum)
  | custom (id : Int) (hash : UInt64)

namespace Key

/-- The hash of an integer: its low 64 bits in two's complement form, of a 128-bit integer the
exclusive or of its two halves. -/
def hashOfInteger (size : IntSize) (value : Int) : UInt64 :=
  if size = .bits128 then UInt64.ofInt value ^^^ UInt64.ofInt (value.shiftRight 64)
  else UInt64.ofInt value

/-- The hash of a key. -/
def hash : Key → UInt64
  | integer _ size value => hashOfInteger size value
  | truth b => if b then 1 else 0
  | letter c => Polynomial.hash (utf8 (String.singleton c))
  | text _ s => Polynomial.hash (utf8 s)
  | bytes _ content => Fnv.hash content
  | behind _ target => target.hash
  | byText key => key.hash
  | byBytes key => key.hash
  | custom _ hash => hash

/-- Whether two keys are equal: the same kind and the same content, of custom keys the same `id`. -/
def same : Key → Key → Bool
  | integer signed size value, integer signed' size' value' =>
    signed == signed' && size == size' && value == value'
  | truth b, truth b' => b == b'
  | letter c, letter c' => c == c'
  | text owned s, text owned' s' => owned == owned' && s == s'
  | bytes form content, bytes form' content' => form == form' && content == content'
  | behind reference target, behind reference' target' =>
    reference == reference' && target.same target'
  | byText key, byText key' => key == key'
  | byBytes key, byBytes key' => key == key'
  | custom id _, custom id' _ => id == id'
  | _, _ => false

instance : Hashable Key := ⟨hash⟩

instance : BEq Key := ⟨same⟩

end Key

end HashStore
