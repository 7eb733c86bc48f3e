import HashStore.Bucket.AppendList
import HashStore.Bucket.PushList
import HashStore.Bucket.Striped
import HashStore.Reply

/-! # Shapes of buckets

A shape says how a bucket is built: a list that grows at the end, a list that grows at the front, or
stripes over buckets of another shape, to any depth.  `Shape.Content` is the type of the buckets of
a shape, and `Shape.factory` makes them. -/

namespace HashStore

/-- How a bucket is built. -/
inductive Shape where
  /-- A list that grows at the end. -/
  | append
  /-- A list that grows at the front. -/
  | push
  /-- Stripes, as many as `requested` or the default if none, over buckets of shape `inner`. -/
  | striped (requested : Nat) (inner : Shape)
deriving DecidableEq

namespace Shape

/-- The buckets of a shape, for entries `K × V`. -/
def Content (K V : Type) : Shape → Type
  | append => AppendList K V
  | push => PushList K V
  | striped requested inner => Striped (stripeBits requested) (inner.Content K V)

variable {K V : Type}

/-- The operations on the buckets of a shape. -/
instance bucket [BEq K] [Hashable K] : (shape : Shape) → Bucket (shape.Content K V) K V
  | append => inferInstanceAs (Bucket (AppendList K V) K V)
  | push => inferInstanceAs (Bucket (PushList K V) K V)
  | striped requested inner =>
    have := bucket inner
    inferInstanceAs (Bucket (Striped (stripeBits requested) (inner.Content K V)) K V)

def empty : (shape : Shape) → shape.Content K V
  | append => AppendList.empty
  | push => PushList.empty
  | striped requested inner => Striped.replicate (stripeBits requested) inner.empty

/-- The events reported while a bucket of a shape is made: that no stripes were asked for, and then
what each stripe reports. -/
def notes : Shape → List Event
  | append => []
  | push => []
  | striped requested inner =>
    (if requested = 0 then [.zeroStripes defaultStripes] else [])
      ++ (List.replicate (powerOfTwo (stripeBits requested)) inner.notes).flatten

def factory (K V : Type) (shape : Shape) : Factory (shape.Content K V) := ⟨shape.empty, shape.notes⟩

/-- The number of stripes, if a shape has stripes. -/
def stripeCount? : Shape → Option Nat
  | striped requested _ => some (powerOfTwo (stripeBits requested))
  | _ => none

def stripeIndex? [Hashable K] (shape : Shape) (k : K) : Option Nat :=
  match shape with
  | striped requested _ => some (stripeIndex (stripeBits requested) (hash k))
  | _ => none

end Shape

end HashStore
