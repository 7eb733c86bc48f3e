import HashStore.Proofs.Sharded.Refinement
import Mathlib.Order.Bounds.Defs

/-! # Masking is taking remainders

Where keys are routed by masking, the number of shards has been rounded up to a power of two, and
there the low bits of a hash are its remainder (`Routing.index_mask`).  So every plan routes keys by
the remainder modulo the number of shards that it makes (`ShardPlan.index_eq_mod`).

The routing of a sharded table shows in the shards to which it leads hashes and in nothing else
(`ShardedTable.RoutesAlike.run_eq`).  Hence a masked table does at every step what a table does that
takes remainders modulo the rounded number (`ShardedTable.run_create_masked`). -/

namespace HashStore

theorem isLeast_roundUp (n : Nat) :
    IsLeast {p | max 1 n ≤ p ∧ ∃ e, p = powerOfTwo e} (roundUp n) := by
  refine ⟨⟨max_le (roundUp_pos n) (le_roundUp n), _, rfl⟩, ?_⟩
  rintro _ ⟨hn, e, rfl⟩
  exact powerOfTwo_le_powerOfTwo ((ceilLog2_le_iff n e).mpr (le_trans (le_max_right ..) hn))

theorem Routing.index_mask (e : Nat) (u : UInt64) :
    mask.index (powerOfTwo e) u = modulo.index (powerOfTwo e) u :=
  Nat.and_two_pow_sub_one_eq_mod u.toNat e

theorem ShardPlan.index_eq_mod (plan : ShardPlan) (u : UInt64) :
    plan.routing.index plan.shardCount u = u.toNat % plan.shardCount := by
  unfold shardCount
  cases plan.routing with
  | modulo => rfl
  | mask => exact Routing.index_mask _ u

namespace ShardedTable

variable {σ β K V : Type}

/-- The same shards with keys routed in another way. -/
def rerouted (s : ShardedTable β) (routing : Routing) : ShardedTable β := { s with routing }

/-- Whether another routing leads every hash to the shard that it is led to. -/
def RoutesAlike (s : ShardedTable β) (routing : Routing) : Prop :=
  ∀ u, routing.index s.shards.size u = s.routing.index s.shards.size u

namespace RoutesAlike

variable {s : ShardedTable β} {routing : Routing} (h : s.RoutesAlike routing)

include h

theorem index_eq (u : UInt64) : (s.rerouted routing).index u = s.index u := Fin.ext (h u)

theorem shard_eq (u : UInt64) :
    (s.rerouted routing).shard ((s.rerouted routing).index u) = s.shard (s.index u) := by
  rw [h.index_eq]
  rfl

theorem onShard_eq {α : Type} (u : UInt64) (f : Table β → Reply α (Table β) σ) :
    (s.rerouted routing).onShard ((s.rerouted routing).index u) f =
      let r := s.onShard (s.index u) f
      ⟨r.answer, r.state.rerouted routing, r.env, r.events⟩ := by
  rw [h.index_eq]
  rfl

variable [Hashable K] [Access σ β K V]

theorem apply (op : Store.Op K V) (env : σ) :
    (Store.apply s op env).state.RoutesAlike routing := by
  obtain ⟨hrouting, hsize⟩ := apply_routes s op env
  intro u
  rw [hrouting, hsize]
  exact h u

/-- With another routing that leads every hash to the same shard, an operation leaves the same shards
and is answered and reported alike. -/
theorem apply_eq (op : Store.Op K V) (env : σ) :
    Store.apply (s.rerouted routing) op env =
      let r := Store.apply s op env
      ⟨r.answer, r.state.rerouted routing, r.env, r.events⟩ := by
  cases op with
  | get k => simp only [Store.apply, get, h.shard_eq]
  | set k v => simp only [Store.apply, set, h.onShard_eq, Reply.map]
  | delete k => simp only [Store.apply, delete, h.onShard_eq, Reply.map]
  | contains k => simp only [Store.apply, contains, h.shard_eq]
  | clear => rfl
  | size => rfl
  | isEmpty => rfl

theorem run_eq (ops : List (Store.Op K V)) (env : σ) :
    Store.run (s.rerouted routing) env ops =
      let r := Store.run s env ops
      ⟨r.answer, r.state.rerouted routing, r.env, r.events⟩ := by
  induction ops generalizing s env with
  | nil => rfl
  | cons op ops ih =>
      rw [Store.run, h.apply_eq op env]
      simp only [ih (h.apply op env)]
      rfl

end RoutesAlike

theorem create_modulo_roundUp (factory : Factory β) (shards capacity : Nat) :
    (create factory ⟨roundUp shards, capacity, .modulo⟩).1 =
      (create factory ⟨shards, capacity, .mask⟩).1.rerouted .modulo := by
  have hcount : max 1 (roundUp shards) = roundUp shards := Nat.max_eq_right (roundUp_pos shards)
  simp only [create, ShardPlan.shardCount, hcount, rerouted]

/-- A table that routes keys by masking has as many shards as the least power of two that is not below
the number asked for, leads every hash to the same shard as a table that takes remainders modulo that
number, and comes with every run to the same shards, with the same answers and reports. -/
theorem run_create_masked [Hashable K] [Access σ β K V] (factory : Factory β)
    (shards capacity : Nat) (env : σ) (ops : List (Store.Op K V)) :
    let p := roundUp shards
    let s := (create factory ⟨shards, capacity, .mask⟩).1
    let s' := (create factory ⟨p, capacity, .modulo⟩).1
    let r := Store.run s env ops
    let r' := Store.run s' env ops
    IsLeast {q | max 1 shards ≤ q ∧ ∃ e, q = powerOfTwo e} p ∧
      s.shardCount = p ∧ s'.shardCount = p ∧ (∀ u, (s.index u).val = (s'.index u).val) ∧
      r.answer = r'.answer ∧ r.state.shards = r'.state.shards ∧ r.events = r'.events ∧
      r.env = r'.env ∧ r.state.routing = .mask ∧ r'.state.routing = .modulo := by
  intro p s s' r r'
  have hs : s.shards.size = p := Array.size_replicate
  have hs' : s' = s.rerouted .modulo := create_modulo_roundUp factory shards capacity
  have halike : s.RoutesAlike .modulo := by
    intro u
    rw [hs]
    exact (Routing.index_mask _ u).symm
  have hr' : r' = ⟨r.answer, r.state.rerouted .modulo, r.env, r.events⟩ := by
    show Store.run s' env ops = _
    rw [hs', halike.run_eq]
  have hrouting : r.state.routing = .mask := (run_routes s ops env).1
  rw [hr', hs']
  exact ⟨isLeast_roundUp shards, hs, hs, fun u => (halike u).symm, rfl, rfl, rfl, rfl, hrouting, rfl⟩

end ShardedTable
end HashStore
