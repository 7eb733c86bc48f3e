import HashStore.Bytes
import HashStore.Hash.Fnv

/-! # Keys that hash as the bytes of their content

A type is `Fed` if its values can be handed to a hasher as a sequence of byte strings.  A key
`ByBytes a` is compared by its content `a` and hashed by FNV-1a of those bytes.  `Datum` is a
structured content: numbers and texts, alone or in lists, tuples and alternatives. -/

namespace HashStore

/-- Widths of an integer.  `pointer` is the width of a machine address, 64 bits. -/
inductive IntSize where
  | bits8
  | bits16
  | bits32
  | bits64
  | bits128
  | pointer
deriving DecidableEq

def IntSize.bytes : IntSize → Nat
  | .bits8 => 1
  | .bits16 => 2
  | .bits32 => 4
  | .bits64 => 8
  | .bits128 => 16
  | .pointer => 8

/-- Values that hand themselves to a hasher, one byte string at a time. -/
class Fed (α : Type) where
  chunks : α → List (List UInt8)

/-- A key that is hashed by the bytes its content hands over. -/
structure ByBytes (α : Type) where
  content : α
deriving BEq, Ord

namespace ByBytes

variable {α : Type} [Fed α]

/-- The hash of the bytes handed over, computed chunk by chunk. -/
def hash (key : ByBytes α) : UInt64 :=
  ((Fed.chunks key.content).foldl Fnv.feed Fnv.start).finish

instance : Hashable (ByBytes α) := ⟨hash⟩

end ByBytes

/-! ### Structured contents -/

/-- A structured content.  Two contents are the same only if they are built alike: a byte string
and a list of one-byte integers differ even where they hand over the same bytes. -/
inductive Datum where
  | integer (signed : Bool) (size : IntSize) (value : Int)
  | truth (b : Bool)
  | letter (c : Char)
  | text (s : String)
  | bytes (content : List UInt8)
  | list (items : List Datum)
  | tuple (items : List Datum)
  | unit
  | absent
  | present (content : Datum)
  | success (content : Datum)
  | failure (content : Datum)

namespace Datum

mutual

/-- The byte strings that a content hands over: an integer or a letter its bytes, a text its UTF-8
form and an end mark, a sequence of any length first its length, an alternative first its number.
A tuple has a fixed length and hands over its items only. -/
def chunks : Datum → List (List UInt8)
  | integer _ size value => [littleEndian size.bytes value]
  | truth b => [[if b then 1 else 0]]
  | letter c => [littleEndian 4 c.toNat]
  | text s => [utf8 s, [0xff]]
  | bytes content => [littleEndian 8 content.length, content]
  | list items => littleEndian 8 items.length :: chunksOfAll items
  | tuple items => chunksOfAll items
  | unit => []
  | absent => [littleEndian 8 0]
  | present content => littleEndian 8 1 :: content.chunks
  | success content => littleEndian 8 0 :: content.chunks
  | failure content => littleEndian 8 1 :: content.chunks

def chunksOfAll : List Datum → List (List UInt8)
  | [] => []
  | item :: rest => item.chunks ++ chunksOfAll rest

end

mutual

/-- Whether two contents are the same. -/
def same : Datum → Datum → Bool
  | integer signed size value, integer signed' size' value' =>
    signed == signed' && size == size' && value == value'
  | truth b, truth b' => b == b'
  | letter c, letter c' => c == c'
  | text s, text s' => s == s'
  | bytes content, bytes content' => content == content'
  | list items, list items' => sameAll items items'
  | tuple items, tuple items' => sameAll items items'
  | unit, unit => true
  | absent, absent => true
  | present content, present content' => content.same content'
  | success content, success content' => content.same content'
  | failure content, failure content' => content.same content'
  | _, _ => false

def sameAll : List Datum → List Datum → Bool
  | [], [] => true
  | item :: rest, item' :: rest' => item.same item' && sameAll rest rest'
  | _, _ => false

end

instance : BEq Datum := ⟨same⟩

instance : Fed Datum := ⟨chunks⟩

end Datum

instance : Fed String := ⟨fun s => (Datum.text s).chunks⟩

instance : Fed Int64 := ⟨fun n => (Datum.integer true .bits64 n.toInt).chunks⟩

instance : Fed UInt64 := ⟨fun n => (Datum.integer false .bits64 n.toNat).chunks⟩

end HashStore
