/-! # The 64-bit FNV-1a hash

`Fnv` is a hasher under way.  `feed` takes in some bytes and may be called any number of times;
feeding a byte string in pieces ends in the same state as feeding it whole (`feed_append`). -/

namespace HashStore

/-- A hasher that has taken in some bytes. -/
structure Fnv where
  state : UInt64
deriving DecidableEq

namespace Fnv

/-- The state before the first byte. -/
def basis : UInt64 := 0xcbf29ce484222325

/-- The multiplier applied after each byte. -/
def prime : UInt64 := 0x100000001b3

/-- A hasher that has taken in nothing. -/
def start : Fnv := ⟨basis⟩

/-- Takes in one byte: exclusive or into the state, then one multiplication. -/
def absorb (hasher : Fnv) (b : UInt8) : Fnv := ⟨(hasher.state ^^^ b.toUInt64) * prime⟩

/-- Takes in `bytes` from left to right. -/
def feed (hasher : Fnv) (bytes : List UInt8) : Fnv := bytes.foldl absorb hasher

/-- The hash of all that was taken in so far.  The hasher can go on afterwards. -/
def finish (hasher : Fnv) : UInt64 := hasher.state

/-- The hash of a byte string on its own. -/
def hash (bytes : List UInt8) : UInt64 := (start.feed bytes).finish

@[simp] theorem feed_nil (hasher : Fnv) : hasher.feed [] = hasher := rfl

@[simp] theorem feed_cons (hasher : Fnv) (b : UInt8) (bytes : List UInt8) :
    hasher.feed (b :: bytes) = (hasher.absorb b).feed bytes := rfl

theorem feed_append (hasher : Fnv) (a b : List UInt8) :
    hasher.feed (a ++ b) = (hasher.feed a).feed b := by
  simp [feed]

end Fnv

end HashStore
