import HashStore.Bucket.Faults
import HashStore.Proofs.Bucket.Traversal
import HashStore.Bucket.Shape

/-! # Traversals that change nothing of their own accord

Whatever else buckets get wrong, a traversal can come to know the visitor's state only by visits: it
may skip entries, repeat them or go on when it has been told to stop, but it leaves the state as the
last visit has left it.  `QuietAccess` says so of buckets that are reached in surroundings, and all
buckets of the library are of that kind, in order or not. -/

namespace HashStore

/-- Buckets that are reached in surroundings `σ`, and whose traversals leave it to the visitor to
change anything. -/
class QuietAccess (σ β : Type) (K V : outParam Type) [Access σ β K V] : Prop where
  /-- What every visit preserves is preserved by the traversal. -/
  forEach_preserves : ∀ {ω : Type} {P : ω → Prop} {visit : K → V → ω → Bool × ω} (b : β),
    (∀ k v w, P w → P (visit k v w).2) → ∀ w, P w → P (Access.forEach σ b visit w)

section access

variable {β K V : Type} [Bucket β K V] [QuietTraversal β K V]

instance : QuietAccess Unit β K V where
  forEach_preserves b := QuietTraversal.forEach_preserves fun _ => b

instance : QuietAccess Faults β K V where
  forEach_preserves b := QuietTraversal.forEach_preserves fun _ => b

end access

variable {K V : Type} [BEq K]

instance : QuietTraversal (AppendList K V) K V where
  forEach_preserves view hvisit w hw := visitAll_preserves hvisit (view w).entries w hw

theorem Striped.visitStripes_preserves {bits : Nat} {β K V ω : Type} [Bucket β K V]
    [QuietTraversal β K V] {P : ω → Prop} {visit : K → V → ω → Bool × ω} (view : ω → Striped bits β)
    (hvisit : ∀ k v w, P w → P (visit k v w).2) (stripes : List (Fin (powerOfTwo bits))) (w : ω)
    (hw : P w) : P (visitStripes view visit stripes w).2 := by
  induction stripes generalizing w with
  | nil => exact hw
  | cons i rest ih =>
      have hin := QuietTraversal.forEach_preserves (fun w => (view w).stripe i) hvisit w hw
      rw [visitStripes]
      split
      · exact ih _ hin
      · exact hin

variable [Hashable K]

instance {bits : Nat} {β : Type} [Bucket β K V] [QuietTraversal β K V] :
    QuietTraversal (Striped bits β) K V where
  forEach_preserves view hvisit w hw := Striped.visitStripes_preserves view hvisit _ w hw

/-- The traversals of the buckets of a shape are quiet. -/
instance Shape.quiet : (shape : Shape) → QuietTraversal (shape.Content K V) K V
  | append => inferInstanceAs (QuietTraversal (AppendList K V) K V)
  | push => inferInstanceAs (QuietTraversal (PushList K V) K V)
  | striped requested inner =>
    have := quiet inner
    inferInstanceAs (QuietTraversal (Striped (stripeBits requested) (inner.Content K V)) K V)

end HashStore
