import HashStore.Proofs.Table.Update
import Mathlib.Logic.ExistsUnique

/-! # How a write turns out

Where equal keys have equal hashes, and buckets may refuse any write but report truthfully, a write to
a table turns out in one of three ways.  `SetOutcome.Arises` says which writes to buckets lead to an
outcome and `SetOutcome.Leaves` what is left by it.  Every write leaves exactly one outcome, and it is
the one that arises (`Sound.set_outcome`): however late the growth of a table is refused, no entry is
lost, moved or counted twice. -/

namespace HashStore

open Entries Surroundings

/-- The outcomes of a write to a table. -/
inductive SetOutcome where
  /-- The bucket of the key refuses the write. -/
  | refused
  /-- The write is carried out, and so is the growth of the table if it has to grow. -/
  | stored
  /-- The write is carried out, but an entry is refused when the table has to grow. -/
  | unmoved
deriving DecidableEq

namespace Table

variable {β K V : Type} [BEq K] [Bucket β K V]

/-- Whether a key is new to a table and one entry more is too much for it. -/
def Overfills (t : Table β) (k : K) : Prop :=
  has (fun a b => a == b) k t.entries = false ∧ (2 * t.capacity : Int) < t.count + 1

end Table

namespace SetOutcome

open Table

variable {β K V : Type} [BEq K] [Bucket β K V]

/-- When an outcome arises.  The first write to a bucket is that of the key, and the ones that follow
are those of the entries if the table has to grow. -/
def Arises (t : Table β) (k : K) (faults : Faults) : SetOutcome → Prop
  | refused => faults.onSet faults.sets = .refused
  | stored => faults.onSet faults.sets = .done ∧
    (t.Overfills k → ∀ j < t.entries.length + 1, faults.onSet (faults.sets + 1 + j) = .done)
  | unmoved => faults.onSet faults.sets = .done ∧ t.Overfills k ∧
    ∃ j < t.entries.length + 1, faults.onSet (faults.sets + 1 + j) = .refused

/-- What an outcome leaves.  If the growth is given up, the bucket of the key has the new entry, which
is counted, and all else is in its place. -/
def Leaves [Hashable K] (t : Table β) (k : K) (v : V)
    (r : Reply (Except StoreError Unit) (Table β) Faults) : SetOutcome → Prop
  | refused => r.answer = .error .notFound ∧ r.state = t
  | stored => r.answer = .ok () ∧ r.state.entries.Perm (put (fun a b => a == b) k v t.entries) ∧
    (t.Overfills k → r.state.capacity = 2 * t.capacity) ∧
    (¬t.Overfills k → r.state.capacity = t.capacity)
  | unmoved => r.answer = .error .notFound ∧
    r.state = (t.withBucket (t.index (hash k))
      (Bucket.set (t.bucketAt (t.index (hash k))) k v).2).counting 1 ∧
    ∃ a b, t.entries = a ++ b ∧ r.state.entries = a ++ (k, v) :: b

theorem exists_arises (t : Table β) (k : K) {faults : Faults} (ht : faults.Truthful) :
    ∃ o : SetOutcome, o.Arises t k faults := by
  rcases ht.onSet faults.sets with hdone | hrefused
  · by_cases hmove : t.Overfills k ∧
        ∃ j < t.entries.length + 1, faults.onSet (faults.sets + 1 + j) = .refused
    · exact ⟨unmoved, hdone, hmove⟩
    · refine ⟨stored, hdone, fun hover j hj => ?_⟩
      exact (ht.onSet _).resolve_right fun hrefused => hmove ⟨hover, j, hj, hrefused⟩
  · exact ⟨refused, hrefused⟩

/-- No two outcomes leave the same: where they give the same answer, one of them leaves a greater
count. -/
theorem leaves_unique [Hashable K] {t : Table β} {k : K} {v : V}
    {r : Reply (Except StoreError Unit) (Table β) Faults} {o o' : SetOutcome}
    (h : o.Leaves t k v r) (h' : o'.Leaves t k v r) : o = o' := by
  have hcount : ∀ b, (t.withBucket (t.index (hash k)) b).counting 1 ≠ t := by
    intro b hb
    have := congrArg Table.count hb
    rw [counting_count] at this
    exact absurd this (by show t.count + 1 ≠ t.count; omega)
  cases o <;> cases o' <;> first | rfl | skip
  · exact nomatch h.1.symm.trans h'.1
  · exact absurd (h'.2.1.symm.trans h.2) (hcount _)
  · exact nomatch h.1.symm.trans h'.1
  · exact nomatch h.1.symm.trans h'.1
  · exact absurd (h.2.1.symm.trans h'.2) (hcount _)
  · exact nomatch h.1.symm.trans h'.1

end SetOutcome

namespace Table

variable {β K V : Type} [BEq K] [Hashable K] [LawfulHashable K]

section lawful

variable [Bucket β K V] [LawfulBucket β K V]

theorem Placed.due_iff_overfills {t : Table β} (h : t.Placed) (k : K) (v : V) :
    t.due k v = true ↔ t.Overfills k := by
  rw [h.due_iff, meets_eq_beq]
  rfl

namespace Sound

variable {t : Table β} (h : t.Sound)

include h

theorem length_written {k : K} (hover : t.Overfills k) (v : V) :
    (t.written k v).entries.length = t.entries.length + 1 := by
  rw [(h.perm_written k v).length_eq, length_put, meets_eq_beq, hover.1]
  rfl

variable [EquivBEq K] {faults : Faults} (ht : faults.Truthful)

include ht

theorem leaves_of_arises {k : K} {o : SetOutcome} (v : V) (ho : o.Arises t k faults) :
    o.Leaves t k v (t.set k v faults) := by
  have hdue := h.due_iff_overfills k v
  have hnext : ∀ j, afterSet^[j] (afterSet faults) =
      { faults with sets := faults.sets + 1 + j } := Faults.afterSet_iterate _
  cases o with
  | refused =>
      rw [h.set_refused ht (ht.refuses_iff.mpr ho)]
      exact ⟨rfl, rfl⟩
  | stored =>
      obtain ⟨hdone, hmove⟩ := ho
      have hmove' : t.due k v = true →
          ∀ j < (t.written k v).entries.length, allowsSet (afterSet^[j] (afterSet faults)) = true := by
        intro hd j hj
        rw [h.length_written (hdue.mp hd)] at hj
        rw [hnext, Faults.allowsSet_iff]
        exact hmove (hdue.mp hd) j hj
      obtain ⟨hans, hperm, hcap⟩ := h.set_accepted ht (Faults.allowsSet_iff.mpr hdone) hmove'
      rw [meets_eq_beq] at hperm
      refine ⟨hans, hperm, fun hover => ?_, fun hover => ?_⟩
      · rw [hcap, if_pos (hdue.mpr hover)]
      · rw [hcap, if_neg fun hd => hover (hdue.mp hd)]
  | unmoved =>
      obtain ⟨hdone, hover, j, hj, hrefused⟩ := ho
      have hreport : t.report k v = .inserted := by
        rw [h.report_eq, meets_eq_beq, hover.1]
        rfl
      have hmove : ∃ j < (t.written k v).entries.length,
          allowsSet (afterSet^[j] (afterSet faults)) = false := by
        rw [h.length_written hover]
        refine ⟨j, hj, ?_⟩
        rw [hnext]
        exact (ht.after (faults.sets + 1 + j) _).refuses_iff.mpr hrefused
      obtain ⟨hans, hstate⟩ :=
        h.set_unmoved ht (Faults.allowsSet_iff.mpr hdone) (hdue.mpr hover) hmove
      rw [written_of_inserted hreport] at hstate
      have hwrote := h.wrote_stored k v
      rw [hreport] at hwrote
      refine ⟨hans, hstate, ?_⟩
      rw [hstate]
      exact hwrote.exists_insert

theorem set_outcome (k : K) (v : V) :
    (∃! o : SetOutcome, o.Leaves t k v (t.set k v faults)) ∧
      ∀ o : SetOutcome, o.Leaves t k v (t.set k v faults) ↔ o.Arises t k faults := by
  obtain ⟨o, ho⟩ := SetOutcome.exists_arises t k ht
  have hleaves := h.leaves_of_arises ht v ho
  refine ⟨⟨o, hleaves, fun o' h' => SetOutcome.leaves_unique h' hleaves⟩, fun o' => ⟨?_, ?_⟩⟩
  · intro h'
    rwa [SetOutcome.leaves_unique h' hleaves]
  · exact h.leaves_of_arises ht v

end Sound

end lawful

/-- After every run, in which any calls may have been refused, a write has exactly one outcome, and it
is told by the writes to buckets that are refused now. -/
theorem run_create_set_outcome [EquivBEq K] (shape : Shape) (requested : Nat) {faults : Faults}
    (ht : faults.Truthful) (ops : List (Store.Op K V)) (k : K) (v : V) :
    let r := Store.run (create (shape.factory K V) requested).1 faults ops
    (∃! o : SetOutcome, o.Leaves r.state k v (r.state.set k v r.env)) ∧
      ∀ o : SetOutcome, o.Leaves r.state k v (r.state.set k v r.env) ↔
        o.Arises r.state k r.env := by
  intro r
  have hrun : r.state.Sound ∧ r.env.Truthful :=
    (sound_create shape.factory_lawful requested).run ht ops
  exact hrun.1.set_outcome hrun.2 k v

/-- With four writes to buckets allowed, a second key is stored and a third is stored without the
growth that it makes due, since the second of the three entries is refused.  A fourth key is refused. -/
theorem run_create_set_outcome_refused :
    let faults := (Faults.always .done .done).refusingAfter 4
    let run := Store.run (create ((Shape.striped 2 .append).factory UInt64 Nat) 1).1 faults
    let r₁ := run [.set 1 10]
    let r₂ := run [.set 1 10, .set 2 20]
    let r₃ := run [.set 1 10, .set 2 20, .set 3 30]
    faults.Truthful ∧ EquivBEq UInt64 ∧ LawfulHashable UInt64 ∧
      SetOutcome.stored.Leaves r₁.state 2 20 (r₁.state.set 2 20 r₁.env) ∧
      SetOutcome.unmoved.Leaves r₂.state 3 30 (r₂.state.set 3 30 r₂.env) ∧
      SetOutcome.refused.Leaves r₃.state 4 40 (r₃.state.set 4 40 r₃.env) := by
  intro faults run r₁ r₂ r₃
  have ht : faults.Truthful :=
    (Faults.truthful_always (Or.inl rfl) (by decide)).refusingAfter 4
  have hstored : SetOutcome.stored.Arises r₁.state 2 r₁.env :=
    ⟨by decide +kernel, fun hover => absurd hover.2 (by decide +kernel)⟩
  have hunmoved : SetOutcome.unmoved.Arises r₂.state 3 r₂.env :=
    ⟨by decide +kernel, ⟨by decide +kernel, by decide +kernel⟩, 1, by decide +kernel,
      by decide +kernel⟩
  have hrefused : SetOutcome.refused.Arises r₃.state 4 r₃.env := by
    show r₃.env.onSet r₃.env.sets = .refused
    decide +kernel
  exact ⟨ht, inferInstance, inferInstance,
    ((run_create_set_outcome (.striped 2 .append) 1 ht _ 2 20).2 .stored).mpr hstored,
    ((run_create_set_outcome (.striped 2 .append) 1 ht _ 3 30).2 .unmoved).mpr hunmoved,
    ((run_create_set_outcome (.striped 2 .append) 1 ht _ 4 40).2 .refused).mpr hrefused⟩

end Table
end HashStore
