import Mathlib.Algebra.Order.Floor.Div
import HashStore.Proofs.Table.Capacity

/-! # Recovery from refused growth

While the growth of a table is refused, writes go on, and the table comes to hold any number of
entries above its load.  Once no call is refused, a write that brings a new key to such a table
doubles its capacity and adds a single entry.  So after as many new keys as it takes doublings to
leave one old entry to a bucket the load is within its bound, and there it stays
(`run_create_recovery`).

The measure of this is `Table.Recovering`: `e` new keys are enough.  Each new key takes one off it,
other operations leave it as it is, and with `0` it is the bound on the load itself. -/

namespace HashStore.Table

open Entries Surroundings

variable {β K V : Type} [Hashable K] [Bucket β K V]

/-- Whether an operation brings a new key to a table. -/
def brings (t : Table β) : Store.Op K V → Bool
  | .set k _ => !(t.contains k ()).1
  | _ => false

/-- The number of operations of a run that bring a new key. -/
def newcomers (t : Table β) : List (Store.Op K V) → Nat
  | [] => 0
  | op :: ops => (t.brings op).toNat + newcomers (Store.apply t op ()).state ops

variable [BEq K] [LawfulBucket β K V]

/-! ### Single operations -/

namespace Sound

variable [EquivBEq K] {t : Table β} (h : t.Sound)

include h

theorem capacity_apply (op : Store.Op K V) : (Store.apply t op ()).state.capacity =
    if t.brings op = true ∧ 2 * t.capacity ≤ t.entries.length then 2 * t.capacity
    else t.capacity := by
  cases op with
  | set k v =>
      refine (h.capacity_set k v).trans (if_congr ?_ rfl rfl)
      rw [brings, Bool.not_eq_true', h.size_eq]
  | delete k => exact (h.delete_keeps k).1
  | _ => rfl

theorem length_apply_le (op : Store.Op K V) : (Store.apply t op ()).state.entries.length ≤
    t.entries.length + (t.brings op).toNat := by
  cases op with
  | set k v => exact Nat.le_of_eq (h.length_set k v)
  | delete k => exact (h.delete_keeps k).2
  | clear =>
      show t.clear.1.entries.length ≤ _
      rw [h.entries_clear]
      exact Nat.zero_le _
  | _ => exact Nat.le_refl _

end Sound

/-! ### Runs -/

/-- The load of a table is within its bound after `e` new keys at the latest. -/
structure Recovering (t : Table β) (e : Nat) : Prop extends t.Sound where
  load : t.entries.length + e ≤ 2 * (t.capacity * powerOfTwo e)

theorem recovering_zero_iff {t : Table β} (h : t.Sound) :
    t.Recovering 0 ↔ t.count ≤ 2 * t.capacity := by
  have hcount := h.count_eq
  constructor
  · intro hr
    have hload : t.entries.length ≤ 2 * (t.capacity * 1) := hr.load
    omega
  · intro hle
    refine ⟨h, ?_⟩
    show t.entries.length ≤ 2 * (t.capacity * 1)
    omega

/-- Twice as many doublings as leave one entry to a bucket make room for the new keys as well. -/
theorem Sound.recovering_of_le {t : Table β} (h : t.Sound) {e : Nat}
    (hle : t.entries.length ≤ t.capacity * powerOfTwo e) : t.Recovering e := by
  refine ⟨h, ?_⟩
  have he : e ≤ t.capacity * powerOfTwo e :=
    (Nat.le_of_lt (lt_powerOfTwo e)).trans (Nat.le_mul_of_pos_left _ h.capacity_pos)
  omega

/-- Where the load is within its bound it is so with any number of new keys to come. -/
theorem Sound.recovering_of_load {t : Table β} (h : t.Sound)
    (hle : t.entries.length ≤ 2 * t.capacity) (e : Nat) : t.Recovering e := by
  refine ⟨h, ?_⟩
  have hpos := h.capacity_pos
  have hmul : t.capacity * (e + 1) ≤ t.capacity * powerOfTwo e :=
    Nat.mul_le_mul_left _ (lt_powerOfTwo e)
  have he : e ≤ t.capacity * e := Nat.le_mul_of_pos_left _ hpos
  rw [Nat.mul_succ] at hmul
  omega

namespace Recovering

variable [EquivBEq K] {t : Table β} {e : Nat} (h : t.Recovering e)

include h

/-- An operation that brings a new key leaves one key less to come.  Where it doubles the capacity, that
makes up for both the new entry and the key less. -/
theorem apply (op : Store.Op K V) :
    (Store.apply t op ()).state.Recovering (e - (t.brings op).toNat) := by
  have hs := (h.toSound.apply truthful_unit op).1
  have hcap := h.capacity_apply op
  have hlen := h.length_apply_le op
  have hload := h.load
  cases hnew : t.brings op with
  | false =>
      rw [hnew, if_neg fun hboth => Bool.false_ne_true hboth.1] at hcap
      rw [hnew] at hlen
      refine ⟨hs, ?_⟩
      rw [hcap]
      exact (Nat.add_le_add_right hlen e).trans hload
  | true =>
      rw [hnew] at hlen hcap
      rw [Bool.toNat_true] at hlen ⊢
      by_cases hfull : 2 * t.capacity ≤ t.entries.length
      · rw [if_pos ⟨rfl, hfull⟩] at hcap
        refine ⟨hs, ?_⟩
        rw [hcap]
        cases e with
        | zero =>
            have hload : t.entries.length ≤ 2 * (t.capacity * 1) := hload
            have hpos := h.capacity_pos
            show _ ≤ 2 * (2 * t.capacity * 1)
            omega
        | succ e =>
            rw [powerOfTwo_succ, Nat.mul_left_comm t.capacity, ← Nat.mul_assoc 2 t.capacity] at hload
            show _ + e ≤ 2 * (2 * t.capacity * powerOfTwo e)
            omega
      · rw [if_neg fun hboth => hfull hboth.2] at hcap
        exact hs.recovering_of_load (by omega) _

theorem run (ops : List (Store.Op K V)) :
    (Store.run t () ops).state.Recovering (e - t.newcomers ops) := by
  induction ops generalizing t e with
  | nil => exact h
  | cons op ops ih =>
      rw [newcomers, ← Nat.sub_sub]
      exact ih (h.apply op)

end Recovering

/-- A load within its bound stays so while no call is refused. -/
theorem Sound.load_run [EquivBEq K] {t : Table β} (h : t.Sound) (hload : t.count ≤ 2 * t.capacity)
    (ops : List (Store.Op K V)) :
    (Store.run t () ops).state.count ≤ 2 * (Store.run t () ops).state.capacity := by
  have hrun := ((recovering_zero_iff h).mpr hload).run ops
  rw [Nat.zero_sub] at hrun
  exact (recovering_zero_iff hrun.toSound).mp hrun

/-- After any run in which calls were refused, let no call be refused any more.  Then a write of a
new key to a table that is full or more doubles its capacity, and nothing else changes it.  With
`⌈log₂ (n / c)⌉` new keys, where `n` and `c` are the count and the capacity at the time of the
change, the count is at most twice the capacity again, and from then on it stays so. -/
theorem run_create_recovery [EquivBEq K] {factory : Factory β} (hf : factory.Lawful)
    (requested : Nat) {faults : Faults} (ht : faults.Truthful) (before ops : List (Store.Op K V)) :
    let t₀ := (Store.run (create factory requested).1 faults before).state
    let t := (Store.run t₀ () ops).state
    (∀ k v, (t.set k v ()).state.capacity =
      if (t.contains k ()).1 = false ∧ (2 * t.capacity : Int) < t.count + 1 then 2 * t.capacity
      else t.capacity) ∧
      (∀ op : Store.Op K V, (∀ k v, op ≠ .set k v) →
        (Store.apply t op ()).state.capacity = t.capacity) ∧
      (ceilLog2 (t₀.count.toNat ⌈/⌉ t₀.capacity) ≤ t₀.newcomers ops →
        t.count ≤ 2 * t.capacity) ∧
      (t.count ≤ 2 * t.capacity → ∀ later : List (Store.Op K V),
        let t' := (Store.run t () later).state
        t'.count ≤ 2 * t'.capacity) := by
  intro t₀ t
  have hs₀ : t₀.Sound := ((sound_create hf requested).run ht before).1
  have hs : t.Sound := (hs₀.run truthful_unit ops).1
  refine ⟨fun k v => ?_, fun op hop => ?_, fun hnew => ?_, fun hload => hs.load_run hload⟩
  · rw [hs.capacity_set k v, hs.size_eq, hs.count_eq]
    exact if_congr (and_congr_right fun _ => by omega) rfl rfl
  · rw [hs.capacity_apply op]
    refine if_neg fun hboth => ?_
    cases op with
    | set k v => exact hop k v rfl
    | _ => exact Bool.false_ne_true hboth.1
  · have hlog := (ceilLog2_le_iff _ _).mp hnew
    rw [ceilDiv_le_iff_le_mul hs₀.capacity_pos, hs₀.count_eq, Int.toNat_natCast] at hlog
    have hrun := (hs₀.recovering_of_le hlog).run ops
    rw [Nat.sub_self] at hrun
    exact (recovering_zero_iff hs).mp hrun

/-- Four keys come into a table of one bucket, and both attempts to grow are refused.  One more key
is not enough to bring the load back, and an update of it does nothing; the second one is. -/
theorem run_create_recovery_of_four_keys :
    let faults : Faults :=
      { Faults.none with onSet := fun i => if i = 3 ∨ i = 5 then .refused else .done }
    let factory := (Shape.striped 2 .append).factory UInt64 Nat
    let before : List (Store.Op UInt64 Nat) := [.set 1 10, .set 2 20, .set 3 30, .set 4 40]
    let ops : List (Store.Op UInt64 Nat) := [.set 5 50, .set 5 51, .get 2, .set 6 60]
    let t₀ := (Store.run (create factory 1).1 faults before).state
    let t := (Store.run t₀ () ops).state
    factory.Lawful ∧ faults.Truthful ∧ EquivBEq UInt64 ∧ t₀.count = 4 ∧ t₀.capacity = 1 ∧
      ceilLog2 (t₀.count.toNat ⌈/⌉ t₀.capacity) = 2 ∧ t₀.newcomers ops = 2 ∧
      ¬(Store.run t₀ () (ops.take 3)).state.count ≤
        2 * (Store.run t₀ () (ops.take 3)).state.capacity ∧
      (∀ k v, (t.set k v ()).state.capacity =
        if (t.contains k ()).1 = false ∧ (2 * t.capacity : Int) < t.count + 1 then 2 * t.capacity
        else t.capacity) ∧
      (∀ op : Store.Op UInt64 Nat, (∀ k v, op ≠ .set k v) →
        (Store.apply t op ()).state.capacity = t.capacity) ∧
      (ceilLog2 (t₀.count.toNat ⌈/⌉ t₀.capacity) ≤ t₀.newcomers ops →
        t.count ≤ 2 * t.capacity) ∧
      (t.count ≤ 2 * t.capacity → ∀ later : List (Store.Op UInt64 Nat),
        let t' := (Store.run t () later).state
        t'.count ≤ 2 * t'.capacity) := by
  intro faults factory before ops
  have ht : faults.Truthful := Faults.truthful_refusing _
  have hf : factory.Lawful := Shape.factory_lawful _
  refine ⟨hf, ht, inferInstance, ?_, ?_, ?_, ?_, ?_, run_create_recovery hf 1 ht before ops⟩
  all_goals decide +kernel

end HashStore.Table
