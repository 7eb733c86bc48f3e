import HashStore.Sizes
import HashStore.Table.Basic

/-! # Routing keys to shards

A sharded table sends a key to one of its shards by the key's hash alone: by the remainder modulo
the number of shards, or, if that number is a power of two, by masking the low bits.  A `ShardPlan`
says how many shards are wanted, how large, and how keys are routed. -/

namespace HashStore

/-- How a hash is turned into the number of a shard. -/
inductive Routing where
  /-- By the remainder modulo the number of shards. -/
  | modulo
  /-- By the low bits.  The number of shards is rounded up to a power of two. -/
  | mask
deriving DecidableEq

namespace Routing

/-- The shard of a hash, among `shards` of them. -/
def index (routing : Routing) (shards : Nat) (h : UInt64) : Nat :=
  match routing with
  | modulo => h.toNat % shards
  | mask => h.toNat &&& (shards - 1)

theorem index_lt {shards : Nat} (hpos : 0 < shards) (routing : Routing) (h : UInt64) :
    routing.index shards h < shards := by
  cases routing with
  | modulo => exact Nat.mod_lt _ hpos
  | mask =>
    have : h.toNat &&& (shards - 1) ≤ shards - 1 := Nat.and_le_right
    simp only [index]
    omega

def name : Routing → String
  | modulo => "Modulo"
  | mask => "Mask"

end Routing

/-- What a sharded table is to be like. -/
structure ShardPlan where
  /-- The number of shards asked for. -/
  shards : Nat
  /-- The number of buckets asked for in each shard. -/
  capacity : Nat
  routing : Routing

namespace ShardPlan

/-- The number of shards if none is chosen. -/
def defaultShards : Nat := 16

/-- The plan in which nothing is chosen. -/
def default : ShardPlan := ⟨defaultShards, Table.defaultCapacity, .modulo⟩

/-- The number of shards that are made: at least one, and a power of two if keys are routed by
masking. -/
def shardCount (plan : ShardPlan) : Nat :=
  match plan.routing with
  | .modulo => max 1 plan.shards
  | .mask => roundUp plan.shards

theorem shardCount_pos (plan : ShardPlan) : 0 < plan.shardCount := by
  unfold shardCount
  split
  · omega
  · exact roundUp_pos _

end ShardPlan

end HashStore
