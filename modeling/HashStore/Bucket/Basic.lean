import HashStore.Outcome

/-! # Buckets

A bucket keeps a few entries, at most one for each key.  `Bucket` is the interface that all buckets
share.  A traversal (`forEach`) hands entry after entry to a visitor until the visitor has seen
enough; the visitor may change the very bucket that is traversed, which is why the traversal looks
at the bucket through `view` again whenever it moves on.

`Op` and `apply` make a value of every keyed operation, so that whole runs can be spoken of. -/

namespace HashStore

/-- The entries of a bucket as they lie: in one row, or in several stripes. -/
inductive Layout (K V : Type) where
  | row (list : List (K × V))
  | stripes (parts : List (Layout K V))

namespace Layout

variable {K V : Type}

mutual

/-- The entries from the first to the last, stripe after stripe. -/
def entries : Layout K V → List (K × V)
  | row list => list
  | stripes parts => entriesOfAll parts

def entriesOfAll : List (Layout K V) → List (K × V)
  | [] => []
  | part :: rest => part.entries ++ entriesOfAll rest

end

end Layout

/-- What every bucket of entries `K × V` can do. -/
class Bucket (β : Type) (K V : outParam Type) where
  /-- The value stored for a key. -/
  get : β → K → Option V
  /-- Stores a value; an entry with an equal key keeps its own key. -/
  set : β → K → V → Written × β
  /-- Removes the entry of a key, and tells whether there was one. -/
  delete : β → K → Bool × β
  /-- The number of entries. -/
  length : β → Nat
  /-- Hands the entries to `visit` until it answers `false`.  The state `ω` holds the bucket, and
  `view` finds it there.  The answer tells whether the traversal reached the end. -/
  forEach : {ω : Type} → (view : ω → β) → (visit : K → V → ω → Bool × ω) → ω → Bool × ω
  /-- The entries as they lie. -/
  layout : β → Layout K V
  /-- Whether there is an entry for a key. -/
  contains : β → K → Bool := fun b k => (get b k).isSome
  /-- Whether there are no entries at all. -/
  isEmpty : β → Bool := fun b => length b == 0

/-- Hands the entries of a list to `visit` until it answers `false`. -/
def visitAll {K V ω : Type} (visit : K → V → ω → Bool × ω) : List (K × V) → ω → Bool × ω
  | [], w => (true, w)
  | (k, v) :: rest, w =>
    let r := visit k v w
    if r.1 then visitAll visit rest r.2 else r

theorem visitAll_append {K V ω : Type} (visit : K → V → ω → Bool × ω) (a b : List (K × V))
    (w : ω) :
    visitAll visit (a ++ b) w =
      if (visitAll visit a w).1 then visitAll visit b (visitAll visit a w).2
      else visitAll visit a w := by
  induction a generalizing w with
  | nil => simp [visitAll]
  | cons e rest ih =>
    obtain ⟨k, v⟩ := e
    simp only [List.cons_append, visitAll, ih]
    split <;> simp_all

namespace Bucket

/-- A keyed operation on a bucket. -/
inductive Op (K V : Type) where
  | get (k : K)
  | set (k : K) (v : V)
  | delete (k : K)
  | contains (k : K)
  | length
  | isEmpty

/-- What a keyed operation on a bucket answers. -/
inductive Answer (V : Type) where
  | value (found : Option V)
  | written (how : Written)
  | truth (b : Bool)
  | count (n : Nat)

variable {β K V : Type} [Bucket β K V]

def apply (b : β) : Op K V → Answer V × β
  | .get k => (.value (get b k), b)
  | .set k v => let r := set b k v; (.written r.1, r.2)
  | .delete k => let r := delete b k; (.truth r.1, r.2)
  | .contains k => (.truth (contains b k), b)
  | .length => (.count (length b), b)
  | .isEmpty => (.truth (isEmpty b), b)

/-- Carries out operations one after another. -/
def run (b : β) : List (Op K V) → List (Answer V) × β
  | [] => ([], b)
  | op :: ops =>
    let r := apply b op
    let rest := run r.2 ops
    (r.1 :: rest.1, rest.2)

end Bucket

end HashStore
