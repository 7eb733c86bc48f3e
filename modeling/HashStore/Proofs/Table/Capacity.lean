import Mathlib.Order.Bounds.Defs
import HashStore.Proofs.Table.Update

/-! # The capacity of a table

While no call is refused, the capacity of a table is settled by its initial capacity and by the largest
number of entries it has held (`Table.peak`): it has been doubled as often as it takes for the peak to
be two entries a bucket at most, and no oftener (`Table.Grown.run`).

The invariant of a run is `Table.Grown`.  A step either keeps the capacity and stays below the load that
it allows (`Grown.keep`), or it brings the one entry too many and doubles (`Grown.double`). -/

namespace HashStore.Table

open Entries Surroundings

variable {β K V : Type} [BEq K] [Hashable K] [Bucket β K V]

/-- The largest number of entries that a table holds at the beginning of a run or after a step of it. -/
def peak (t : Table β) : List (Store.Op K V) → Nat
  | [] => t.entries.length
  | op :: ops => max t.entries.length (peak (Store.apply t op ()).state ops)

omit [BEq K] in
theorem length_le_peak (t : Table β) (ops : List (Store.Op K V)) :
    t.entries.length ≤ t.peak ops := by
  cases ops with
  | nil => exact Nat.le_refl _
  | cons op ops => exact Nat.le_max_left ..

variable [LawfulBucket β K V]

/-! ### Single operations -/

namespace Sound

variable [EquivBEq K] {t : Table β} (h : t.Sound)

include h

theorem length_set (k : K) (v : V) : (t.set k v ()).state.entries.length =
    t.entries.length + (!(t.contains k ()).1).toNat := by
  obtain ⟨_, hperm, _⟩ := h.set_accepted truthful_unit rfl (v := v) fun _ _ _ => rfl
  rw [hperm.length_eq, length_put, h.contains_eq truthful_unit]

theorem capacity_set (k : K) (v : V) : (t.set k v ()).state.capacity =
    if (t.contains k ()).1 = false ∧ 2 * t.capacity ≤ t.size then 2 * t.capacity
    else t.capacity := by
  obtain ⟨_, _, hcap⟩ := h.set_accepted truthful_unit rfl (v := v) fun _ _ _ => rfl
  rw [hcap]
  refine if_congr ?_ rfl rfl
  rw [h.due_iff, h.contains_eq truthful_unit, h.size_eq, h.count_eq]
  refine and_congr_right fun _ => ?_
  omega

omit [EquivBEq K] in
theorem delete_keeps (k : K) : (t.delete k ()).state.capacity = t.capacity ∧
    (t.delete k ()).state.entries.length ≤ t.entries.length := by
  cases hk : has (meets (place β t.capacity)) k t.entries with
  | false =>
      rw [h.delete_absent truthful_unit hk]
      exact ⟨rfl, Nat.le_refl _⟩
  | true =>
      rw [h.delete_allowed truthful_unit hk rfl]
      refine ⟨rfl, ?_⟩
      show (t.erased k).entries.length ≤ _
      rw [h.entries_erased]
      exact List.length_filter_le ..

end Sound

/-! ### Runs -/

/-- A table of initial capacity `c₀` has been doubled no oftener than its largest number of entries
needs. -/
structure Grown (t : Table β) (c₀ most : Nat) : Prop extends t.Sound where
  length_le : t.entries.length ≤ most
  doublings : ∃ j, t.capacity = c₀ * powerOfTwo j ∧
    IsLeast {i | most ≤ 2 * (c₀ * powerOfTwo i)} j

namespace Grown

variable {t t' : Table β} {c₀ most : Nat} (h : t.Grown c₀ most)

include h

theorem le_load : most ≤ 2 * t.capacity := by
  obtain ⟨j, hcap, hleast⟩ := h.doublings
  rw [hcap]
  exact hleast.1

/-- The capacity is the same, and it is enough. -/
theorem keep (hs : t'.Sound) (hcap : t'.capacity = t.capacity)
    (hlen : t'.entries.length ≤ 2 * t.capacity) :
    t'.Grown c₀ (max most t'.entries.length) := by
  obtain ⟨j, hj, hleast⟩ := h.doublings
  refine ⟨hs, Nat.le_max_right .., j, hcap.trans hj, ?_, fun i hi => ?_⟩
  · rw [hj] at hlen
    exact max_le hleast.1 hlen
  · exact hleast.2 (le_trans (Nat.le_max_left ..) hi)

/-- One entry is too many, and the capacity is doubled: no fewer doublings are enough. -/
theorem double (hs : t'.Sound) (hcap : t'.capacity = 2 * t.capacity)
    (hlen : t'.entries.length = 2 * t.capacity + 1) :
    t'.Grown c₀ (max most t'.entries.length) := by
  have hload := h.le_load
  have hpos := hs.capacity_pos
  obtain ⟨j, hj, -⟩ := h.doublings
  have hmost : max most t'.entries.length = 2 * t.capacity + 1 := by omega
  have hj' : t'.capacity = c₀ * powerOfTwo (j + 1) := by
    rw [hcap, hj, powerOfTwo_succ, Nat.mul_left_comm]
  refine ⟨hs, Nat.le_max_right .., j + 1, hj', ?_, fun i hi => ?_⟩
  · show max most t'.entries.length ≤ 2 * (c₀ * powerOfTwo (j + 1))
    rw [hmost, ← hj']
    omega
  · by_contra hlt
    have hpow : c₀ * powerOfTwo i ≤ t.capacity := by
      rw [hj]
      exact Nat.mul_le_mul_left _ (powerOfTwo_le_powerOfTwo (by omega))
    have hi' : max most t'.entries.length ≤ 2 * (c₀ * powerOfTwo i) := hi
    omega

variable [EquivBEq K]

theorem apply (op : Store.Op K V) : (Store.apply t op ()).state.Grown c₀
    (max most (Store.apply t op ()).state.entries.length) := by
  have hs := (h.toSound.apply truthful_unit op).1
  have hload : t.entries.length ≤ 2 * t.capacity := h.length_le.trans h.le_load
  cases op with
  | set k v =>
      have hlen := h.length_set k v
      have hcap := h.capacity_set k v
      rw [h.size_eq] at hcap
      split at hcap
      · rename_i hfull
        rw [hfull.1] at hlen
        refine h.double hs hcap ?_
        show (t.set k v ()).state.entries.length = _
        rw [hlen]
        exact congrArg (· + 1) (Nat.le_antisymm hload hfull.2)
      · rename_i hroom
        refine h.keep hs hcap ?_
        show (t.set k v ()).state.entries.length ≤ _
        rw [hlen]
        cases hk : (t.contains k ()).1 with
        | true => simpa using hload
        | false =>
            have hlt : ¬ 2 * t.capacity ≤ t.entries.length := fun hle => hroom ⟨hk, hle⟩
            simp only [Bool.not_false, Bool.toNat_true]
            omega
  | delete k =>
      obtain ⟨hcap, hlen⟩ := h.delete_keeps k
      exact h.keep hs hcap (hlen.trans hload)
  | clear =>
      refine h.keep hs rfl ?_
      show t.clear.1.entries.length ≤ _
      rw [h.entries_clear]
      exact Nat.zero_le _
  | get k => exact h.keep hs rfl hload
  | contains k => exact h.keep hs rfl hload
  | size => exact h.keep hs rfl hload
  | isEmpty => exact h.keep hs rfl hload

theorem run (ops : List (Store.Op K V)) :
    (Store.run t () ops).state.Grown c₀ (max most (t.peak ops)) := by
  induction ops generalizing t most with
  | nil =>
      rw [peak, max_eq_left h.length_le]
      exact h
  | cons op ops ih =>
      have hstep := ih (h.apply op)
      have hlen := h.length_le
      have hnext := length_le_peak (Store.apply t op ()).state ops
      have hmost : max (max most (Store.apply t op ()).state.entries.length)
          ((Store.apply t op ()).state.peak ops) = max most (t.peak (op :: ops)) := by
        rw [peak]
        omega
      rw [hmost] at hstep
      exact hstep

end Grown

/-- After every run the initial capacity has been doubled as often as the peak of the run needs.  It is
never more than full, a write doubles it if it brings a new key to a full table, and nothing else
changes it. -/
theorem run_create_capacity [EquivBEq K] {factory : Factory β} (hf : factory.Lawful)
    (requested : Nat) (ops : List (Store.Op K V)) :
    let c₀ := max 1 requested
    let t₀ := (create factory requested).1
    let t := (Store.run t₀ () ops).state
    (∃ j, t.capacity = c₀ * powerOfTwo j ∧
        IsLeast {i | t₀.peak ops ≤ 2 * (c₀ * powerOfTwo i)} j) ∧
      t.size ≤ 2 * t.capacity ∧
      (∀ k v, (t.set k v ()).state.capacity =
        if (t.contains k ()).1 = false ∧ t.size = 2 * t.capacity then 2 * t.capacity
        else t.capacity) ∧
      (∀ k, (t.delete k ()).state.capacity = t.capacity) ∧
      t.clear.1.capacity = t.capacity := by
  intro c₀ t₀ t
  have hstart : t₀.Grown c₀ 0 := by
    refine ⟨sound_create hf requested, ?_, 0, ?_, Nat.zero_le _, fun _ _ => Nat.zero_le _⟩
    · exact Nat.le_of_eq (congrArg List.length (entries_create hf requested))
    · exact (Nat.mul_one _).symm
  have hgrown : t.Grown c₀ (t₀.peak ops) := by
    have hrun := hstart.run ops
    rwa [Nat.zero_max] at hrun
  have hload : t.size ≤ 2 * t.capacity := by
    rw [hgrown.size_eq]
    exact hgrown.length_le.trans hgrown.le_load
  refine ⟨hgrown.doublings, hload, fun k v => ?_, fun k => (hgrown.delete_keeps k).1, rfl⟩
  rw [hgrown.capacity_set k v]
  refine if_congr (and_congr_right fun _ => ?_) rfl rfl
  omega

/-- Five keys, of which four at most are there at a time, double a table of one bucket once.  The two
buckets stay when the table is emptied. -/
theorem run_create_capacity_of_five_keys :
    let factory := (Shape.striped 2 .append).factory UInt64 Nat
    let ops : List (Store.Op UInt64 Nat) :=
      [.set 1 10, .set 2 20, .set 3 30, .delete 1, .set 4 40, .set 3 31, .set 5 50, .clear,
        .set 1 11]
    let t₀ := (create factory 0).1
    let t := (Store.run t₀ () ops).state
    factory.Lawful ∧ EquivBEq UInt64 ∧ t.capacity = 2 ∧ t₀.peak ops = 4 ∧
      (∃ j, t.capacity = max 1 0 * powerOfTwo j ∧
          IsLeast {i | t₀.peak ops ≤ 2 * (max 1 0 * powerOfTwo i)} j) ∧
      t.size ≤ 2 * t.capacity ∧
      (∀ k v, (t.set k v ()).state.capacity =
        if (t.contains k ()).1 = false ∧ t.size = 2 * t.capacity then 2 * t.capacity
        else t.capacity) ∧
      (∀ k, (t.delete k ()).state.capacity = t.capacity) ∧
      t.clear.1.capacity = t.capacity :=
  ⟨Shape.factory_lawful _, inferInstance, by decide +kernel, by decide +kernel,
    run_create_capacity (Shape.factory_lawful (.striped 2 .append)) 0
      [.set 1 10, .set 2 20, .set 3 30, .delete 1, .set 4 40, .set 3 31, .set 5 50, .clear,
        .set 1 11]⟩

end HashStore.Table
