import Mathlib.Logic.Function.Iterate
import HashStore.Bucket.Faults

/-! # Truthful surroundings

Surroundings are truthful if a call either reaches the bucket, and is then reported as it turned out,
or is refused without effect.  `Surroundings` says when that is so and which calls are refused, and
`TruthfulAccess` that the calls go accordingly.  Calls without surroundings (`Unit`) are never
refused; faults are truthful if they report nothing but what happened (`Faults.Truthful`), whichever
calls they refuse. -/

namespace HashStore

/-- What surroundings decide about the calls to buckets. -/
class Surroundings (σ : Type) where
  /-- Nothing is reported but what happened. -/
  Truthful : σ → Prop
  /-- Whether the next write is carried out. -/
  allowsSet : σ → Bool
  /-- Whether the next removal is carried out. -/
  allowsDelete : σ → Bool
  afterSet : σ → σ
  afterDelete : σ → σ
  truthful_afterSet : ∀ {env : σ}, Truthful env → Truthful (afterSet env)
  truthful_afterDelete : ∀ {env : σ}, Truthful env → Truthful (afterDelete env)

open Surroundings

/-- Calls to buckets `β` are carried out or refused as the surroundings decide. -/
class TruthfulAccess (σ β : Type) (K V : outParam Type) [Bucket β K V] [Access σ β K V]
    [Surroundings σ] : Prop where
  get_eq : ∀ (b : β) (k : K) {env : σ}, Truthful env →
    Access.get b k env = (Bucket.get b k, env)
  contains_eq : ∀ (b : β) (k : K) {env : σ}, Truthful env →
    Access.contains b k env = (Bucket.contains b k, env)
  set_allowed : ∀ (b : β) (k : K) (v : V) {env : σ}, Truthful env → allowsSet env = true →
    Access.set b k v env = (.ok (Bucket.set b k v).1, (Bucket.set b k v).2, afterSet env)
  set_refused : ∀ (b : β) (k : K) (v : V) {env : σ}, Truthful env → allowsSet env = false →
    Access.set b k v env = (.error .notFound, b, afterSet env)
  delete_allowed : ∀ (b : β) (k : K) {env : σ}, Truthful env → allowsDelete env = true →
    Access.delete b k env = (.ok (Bucket.delete b k).1, (Bucket.delete b k).2, afterDelete env)
  delete_refused : ∀ (b : β) (k : K) {env : σ}, Truthful env → allowsDelete env = false →
    Access.delete b k env = (.error .notFound, b, afterDelete env) ∨
      Access.delete b k env = (.ok false, b, afterDelete env)
  forEach_eq : ∀ {ω : Type} (b : β) (visit : K → V → ω → Bool × ω) (w : ω),
    Access.forEach σ b visit w = (Bucket.forEach (fun _ => b) visit w).2

variable {β K V : Type} [Bucket β K V]

/-! ### No surroundings -/

instance : Surroundings Unit where
  Truthful _ := True
  allowsSet _ := true
  allowsDelete _ := true
  afterSet env := env
  afterDelete env := env
  truthful_afterSet h := h
  truthful_afterDelete h := h

theorem truthful_unit : Truthful () := trivial

instance : TruthfulAccess Unit β K V where
  get_eq _ _ _ _ := rfl
  contains_eq _ _ _ _ := rfl
  set_allowed _ _ _ _ _ _ := rfl
  set_refused _ _ _ _ _ h := nomatch h
  delete_allowed _ _ _ _ _ := rfl
  delete_refused _ _ _ _ h := nomatch h
  forEach_eq _ _ _ := rfl

/-! ### Faults -/

namespace Faults

/-- Faults that refuse calls and do nothing else. -/
structure Truthful (faults : Faults) : Prop where
  onSet : ∀ i, faults.onSet i = .done ∨ faults.onSet i = .refused
  onDelete : ∀ i, faults.onDelete i ≠ .claimed
  claimsAll : faults.claimsAll = false

theorem Truthful.after {faults : Faults} (h : faults.Truthful) (sets deletes : Nat) :
    { faults with sets, deletes }.Truthful := ⟨h.onSet, h.onDelete, h.claimsAll⟩

theorem truthful_always {write : SetFate} {removal : DeleteFate}
    (hw : write = .done ∨ write = .refused) (hr : removal ≠ .claimed) :
    (always write removal).Truthful :=
  ⟨fun _ => hw, fun _ => hr, beq_false_of_ne hr⟩

/-- Faults that refuse some of the writes and let everything else go well. -/
theorem truthful_refusing (refuses : Nat → Prop) [DecidablePred refuses] :
    { none with onSet := fun i => if refuses i then .refused else .done }.Truthful := by
  refine ⟨fun i => ?_, (fun _ hclaimed => nomatch hclaimed), rfl⟩
  by_cases hi : refuses i
  · exact Or.inr (if_pos hi)
  · exact Or.inl (if_neg hi)

theorem Truthful.refusingAfter {faults : Faults} (h : faults.Truthful) (allowed : Nat) :
    (faults.refusingAfter allowed).Truthful := by
  refine ⟨fun i => ?_, h.onDelete, h.claimsAll⟩
  by_cases hi : i < faults.sets + allowed
  · have hkept : (faults.refusingAfter allowed).onSet i = faults.onSet i := if_pos hi
    rw [hkept]
    exact h.onSet i
  · exact Or.inr (if_neg hi)

instance : Surroundings Faults where
  Truthful := Truthful
  allowsSet faults := faults.onSet faults.sets == .done
  allowsDelete faults := faults.onDelete faults.deletes == .done
  afterSet faults := { faults with sets := faults.sets + 1 }
  afterDelete faults := { faults with deletes := faults.deletes + 1 }
  truthful_afterSet h := h.after _ _
  truthful_afterDelete h := h.after _ _

theorem allowsSet_iff {faults : Faults} :
    Surroundings.allowsSet faults = true ↔ faults.onSet faults.sets = .done :=
  beq_iff_eq

theorem allowsDelete_iff {faults : Faults} :
    Surroundings.allowsDelete faults = true ↔ faults.onDelete faults.deletes = .done :=
  beq_iff_eq

theorem Truthful.refuses_iff {faults : Faults} (h : faults.Truthful) :
    Surroundings.allowsSet faults = false ↔ faults.onSet faults.sets = .refused := by
  rw [← Bool.not_eq_true, allowsSet_iff]
  constructor
  · exact (h.onSet _).resolve_left
  · intro hrefused hdone
    rw [hrefused] at hdone
    cases hdone

theorem afterSet_iterate (faults : Faults) (n : Nat) :
    Surroundings.afterSet^[n] faults = { faults with sets := faults.sets + n } := by
  induction n with
  | zero => rfl
  | succ n ih => rw [Function.iterate_succ_apply', ih]; rfl

instance : TruthfulAccess Faults β K V where
  get_eq _ _ _ _ := rfl
  contains_eq b k env h := by
    show (env.claimsAll || Bucket.contains b k, env) = _
    rw [h.claimsAll, Bool.false_or]
  set_allowed b k v env _ hallow := by
    show Faults.set b k v env = _
    rw [Faults.set, allowsSet_iff.mp hallow]
    rfl
  set_refused b k v env h hallow := by
    show Faults.set b k v env = _
    rw [Faults.set, h.refuses_iff.mp hallow]
    rfl
  delete_allowed b k env _ hallow := by
    show Faults.delete b k env = _
    have hdone : env.onDelete env.deletes = .done := beq_iff_eq.mp hallow
    rw [Faults.delete, hdone]
    rfl
  delete_refused b k env h hallow := by
    show Faults.delete b k env = _ ∨ Faults.delete b k env = _
    have hne : env.onDelete env.deletes ≠ .done := fun hdone => by
      have : (env.onDelete env.deletes == .done) = false := hallow
      rw [hdone] at this
      cases this
    cases hfate : env.onDelete env.deletes with
    | done => exact absurd hfate hne
    | refused => left; rw [Faults.delete, hfate]; rfl
    | ignored => right; rw [Faults.delete, hfate]; rfl
    | claimed => exact absurd hfate (h.onDelete _)
  forEach_eq _ _ _ := rfl

end Faults
end HashStore
