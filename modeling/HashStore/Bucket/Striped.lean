import HashStore.Bucket.Basic
import HashStore.Sizes

/-! # Striped buckets

A striped bucket spreads its keys over `2 ^ bits` inner buckets, its stripes.  A key goes to the
stripe named by the top bits of its hash times an odd constant.  A table chooses its buckets by the
low bits of the hash, so keys that meet in one bucket of a table still spread over its stripes. -/

namespace HashStore

/-- The odd constant that spreads hashes: `2 ^ 64` divided by the golden ratio. -/
def spread : UInt64 := 0x9e3779b97f4a7c15

/-- The stripe of a hash: the top `bits` bits of its product with `spread`. -/
def stripeIndex (bits : Nat) (h : UInt64) : Nat := (h * spread).toNat >>> (64 - bits)

theorem stripeIndex_lt (bits : Nat) (h : UInt64) : stripeIndex bits h < powerOfTwo bits := by
  have hlt : (h * spread).toNat < 2 ^ 64 := UInt64.toNat_lt _
  unfold stripeIndex
  rw [Nat.shiftRight_eq_div_pow]
  refine Nat.div_lt_of_lt_mul (Nat.lt_of_lt_of_le hlt ?_)
  show 2 ^ 64 ≤ 2 ^ (64 - bits) * 2 ^ bits
  rw [← Nat.pow_add]
  exact Nat.pow_le_pow_right (by decide) (by omega)

/-- The number of stripes if none are asked for. -/
def defaultStripes : Nat := 16

/-- The exponent of the number of stripes if `requested` are asked for: none stands for the default,
and any other number is rounded up to a power of two. -/
def stripeBits (requested : Nat) : Nat :=
  ceilLog2 (if requested = 0 then defaultStripes else requested)

/-- A bucket that spreads its keys over `2 ^ bits` inner buckets. -/
structure Striped (bits : Nat) (β : Type) where
  stripes : Vector β (powerOfTwo bits)

namespace Striped

variable {bits : Nat} {β K V : Type}

/-- The stripe of a key. -/
def slot [Hashable K] (bits : Nat) (k : K) : Fin (powerOfTwo bits) :=
  ⟨stripeIndex bits (hash k), stripeIndex_lt bits (hash k)⟩

def replicate (bits : Nat) (b : β) : Striped bits β := ⟨Vector.replicate _ b⟩

def stripe (s : Striped bits β) (i : Fin (powerOfTwo bits)) : β := s.stripes[i]

def withStripe (s : Striped bits β) (i : Fin (powerOfTwo bits)) (b : β) : Striped bits β :=
  ⟨s.stripes.set i b⟩

variable [Bucket β K V]

/-- Visits the entries of some stripes, one stripe after another, until `visit` answers `false`. -/
def visitStripes {ω : Type} (view : ω → Striped bits β) (visit : K → V → ω → Bool × ω) :
    List (Fin (powerOfTwo bits)) → ω → Bool × ω
  | [], w => (true, w)
  | i :: rest, w =>
    let r := Bucket.forEach (fun w => (view w).stripe i) visit w
    if r.1 then visitStripes view visit rest r.2 else r

instance [Hashable K] : Bucket (Striped bits β) K V where
  get s k := Bucket.get (s.stripe (slot bits k)) k
  set s k v :=
    let r := Bucket.set (s.stripe (slot bits k)) k v
    (r.1, s.withStripe (slot bits k) r.2)
  delete s k :=
    let r := Bucket.delete (s.stripe (slot bits k)) k
    (r.1, s.withStripe (slot bits k) r.2)
  contains s k := Bucket.contains (s.stripe (slot bits k)) k
  length s := total Bucket.length s.stripes.toList
  forEach view visit w := visitStripes view visit (List.finRange _) w
  layout s := .stripes (s.stripes.toList.map Bucket.layout)

end Striped

end HashStore
