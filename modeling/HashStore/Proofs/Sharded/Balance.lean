import Mathlib.Algebra.Ring.Int.Defs
import HashStore.Proofs.Sharded.Product
import HashStore.Proofs.Table.Balance

/-! # The counts of the shards

Each shard of a sharded table counts what its own buckets report: an operation posts to the shards
that it comes to, and to no others (`ShardedTable.posting?`), so the count of a shard is the balance
of what has been posted to it (`run_create_balance`).  A sharded table shows the sum of what its
shards show (`ShardedTable.size_eq_sum`), so a shard that counts less than nothing takes nothing
away from the others. -/

namespace HashStore

variable {σ β K V : Type} [Hashable K] [Access σ β K V]

namespace ShardedTable

/-- What an operation on a sharded table posts to shard number `i`. -/
def posting? (i : Nat) (s : ShardedTable β) (op : Store.Op K V) (env : σ) : Option Posting :=
  if s.reaches i op then s.shards[i]?.bind fun t => t.posting? op env else none

def countOf (i : Nat) (s : ShardedTable β) : Int := (s.shards[i]?.map Table.count).getD 0

theorem countOf_apply [QuietAccess σ β K V] (i : Nat) (s : ShardedTable β) (op : Store.Op K V)
    (env : σ) :
    countOf i (Store.apply s op env).state =
      (s.posting? i op env).elim (countOf i s) fun posting => posting.book (countOf i s) := by
  rw [countOf, getElem?_apply, posting?]
  cases hop : s.reaches i op with
  | false => rfl
  | true =>
      rw [if_pos rfl, if_pos rfl, countOf]
      cases s.shards[i]? with
      | none => rfl
      | some t => exact t.count_apply op env

theorem countOf_create (factory : Factory β) (plan : ShardPlan) (i : Nat) :
    countOf i (create factory plan).1 = 0 := by
  show ((Array.replicate plan.shardCount _)[i]?.map Table.count).getD 0 = 0
  rw [Array.getElem?_replicate]
  split <;> rfl

/-- What the shards show together is the sum of their counts, of which none is taken below zero. -/
theorem size_eq_sum (s : ShardedTable β) :
    (s.size : Int) = (s.shards.toList.map fun t => max 0 t.count).sum := by
  rw [size]
  induction s.shards.toList with
  | nil => rfl
  | cons t rest ih =>
      rw [total_cons, Int.natCast_add, ih, Table.size, Int.toNat_eq_max, max_comm, List.map_cons,
        List.sum_cons]

end ShardedTable

/-- Whatever the buckets report, the count of a table is at every moment the insertions less the
removals that they have reported since the table was last emptied.  A table shows its count, but
never less than nothing; no rebuilding changes the count; and a write attempts one if and only if the
bucket of its key reports an insertion and more than two entries per bucket are then counted.  The
shards of a sharded table count each for itself, and what it shows is the sum of what they show. -/
theorem run_create_balance [QuietAccess σ β K V] (factory : Factory β) (env : σ)
    (ops : List (Store.Op K V)) :
    (∀ requested,
      let t₀ := (Table.create factory requested).1
      let t := (Store.run t₀ env ops).state
      t.count = balance (Store.postings Table.posting? t₀ env ops) ∧
        t.count.natAbs ≤ ops.length ∧
        (t.size : Int) = max 0 t.count ∧
        (∀ env' : σ, (t.rehash env').state.count = t.count) ∧
        ∀ k v (env' : σ), (t.set k v env').attempts = true ↔
          (Access.set (t.bucketAt (t.index (hash k))) k v env').1 = .ok .inserted ∧
            0 < t.count + 1 ∧ (2 * t.capacity : Int) < t.count + 1) ∧
    ∀ plan,
      let s₀ := (ShardedTable.create factory plan).1
      let s := (Store.run s₀ env ops).state
      (∀ i (hi : i < s.shards.size), s.shards[i].count =
          balance (Store.postings (ShardedTable.posting? i) s₀ env ops) ∧
        s.shards[i].count.natAbs ≤ ops.length) ∧
      (s.size : Int) = (s.shards.toList.map fun t => max 0 t.count).sum ∧
      (s.isEmpty = true ↔ s.size = 0) := by
  constructor
  · intro requested t₀ t
    have hzero : t₀.count = balance [] := rfl
    have hcount : t.count = balance (Store.postings Table.posting? t₀ env ops) :=
      Store.count_eq_balance Table.count_apply hzero env ops
    refine ⟨hcount, ?_, ?_, fun env' => (t.rehash_keeps env').1, t.attempts_set_iff⟩
    · rw [hcount]
      exact Store.natAbs_balance_postings_le t₀ env ops
    · rw [Table.size, Int.toNat_eq_max, max_comm]
  · intro plan s₀ s
    refine ⟨fun i hi => ?_, s.size_eq_sum, ?_⟩
    · have hzero : ShardedTable.countOf i s₀ = balance [] :=
        ShardedTable.countOf_create factory plan i
      have hcount : s.shards[i].count =
          balance (Store.postings (ShardedTable.posting? i) s₀ env ops) := by
        have hend : ShardedTable.countOf i s = _ :=
          Store.count_eq_balance (ShardedTable.countOf_apply i) hzero env ops
        rw [ShardedTable.countOf, Array.getElem?_eq_getElem hi] at hend
        exact hend
      refine ⟨hcount, ?_⟩
      rw [hcount]
      exact Store.natAbs_balance_postings_le s₀ env ops
    · rw [ShardedTable.isEmpty_eq, beq_iff_eq]

/-- Two removals of an absent key are believed, and two updates are taken for insertions: the table
counts one entry.  Of two shards one counts two less than none and the other three, which then
grows, and the three are shown. -/
theorem run_create_balance_of_false_reports :
    let factory := Shape.append.factory UInt64 Nat
    let env := Faults.always (.reported .inserted) .claimed
    let ops : List (Store.Op UInt64 Nat) :=
      [.delete 2, .delete 2, .set 1 10, .set 1 11, .set 1 12]
    let t := (Store.run (Table.create factory 1).1 env ops).state
    let s := (Store.run (ShardedTable.create factory ⟨2, 1, .modulo⟩).1 env ops).state
    t.count = 1 ∧ t.entries.length = 1 ∧ s.shards.toList.map Table.count = [-2, 3] ∧
      s.shards.toList.map Table.capacity = [1, 2] ∧ s.entries.length = 1 ∧ s.size = 3 ∧
      t.count = balance (Store.postings Table.posting? (Table.create factory 1).1 env ops) ∧
      (s.size : Int) = (s.shards.toList.map fun t => max 0 t.count).sum := by
  intro factory env ops t s
  have hrun := run_create_balance factory env ops
  refine ⟨?_, ?_, ?_, ?_, ?_, ?_, (hrun.1 1).1, (hrun.2 ⟨2, 1, .modulo⟩).2.1⟩
  all_goals decide +kernel

end HashStore
