import HashStore.Key

/-! # Equality of keys

Two keys are equal if nothing but the hash that a custom key brings tells them apart (`Key.same_iff`).
So equality of keys is an equivalence, and equal keys have equal hashes unless one is custom, or refers
to a custom key: those can be equal and have different hashes. -/

namespace HashStore

namespace Datum

mutual

theorem same_iff (a b : Datum) : a.same b = true ↔ a = b := by
  cases a <;> cases b <;> simp [same, same_iff, sameAll_iff, and_assoc]

theorem sameAll_iff (a b : List Datum) : sameAll a b = true ↔ a = b := by
  cases a <;> cases b <;> simp [sameAll, same_iff, sameAll_iff]

end

instance : LawfulBEq Datum where
  rfl := (same_iff _ _).mpr rfl
  eq_of_beq := (same_iff _ _).mp

end Datum

instance {α : Type} [BEq α] [LawfulBEq α] : LawfulBEq (ByBytes α) where
  rfl {a} := beq_self_eq_true a.content
  eq_of_beq {a b} h := congrArg ByBytes.mk (eq_of_beq (a := a.content) (b := b.content) h)

instance {α : Type} [BEq α] [LawfulBEq α] : LawfulBEq (ByText α) where
  rfl {a} := beq_self_eq_true a.content
  eq_of_beq {a b} h := congrArg ByText.mk (eq_of_beq (a := a.content) (b := b.content) h)

namespace Key

/-- The key without the hash that a custom key brings. -/
def bare : Key → Key
  | behind reference target => behind reference target.bare
  | custom id _ => custom id 0
  | k => k

theorem same_iff (a b : Key) : a.same b = true ↔ a.bare = b.bare := by
  induction a generalizing b with
  | behind reference target ih => cases b <;> simp [same, bare, ih]
  | _ => cases b <;> simp [same, bare, and_assoc]

instance : EquivBEq Key where
  rfl := (same_iff _ _).mpr rfl
  symm h := (same_iff _ _).mpr ((same_iff _ _).mp h).symm
  trans h h' := (same_iff _ _).mpr (((same_iff _ _).mp h).trans ((same_iff _ _).mp h'))

end Key
end HashStore
