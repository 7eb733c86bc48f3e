import HashStore.Sharded.Routing
import HashStore.Table.Update

/-! # Sharded tables

A sharded table is a row of tables, its shards.  Every keyed operation goes to the one shard that the
key is routed to; the operations on the whole go to all of them.  A shard grows on its own, and never
changes where keys are routed. -/

namespace HashStore

/-- A row of tables between which the keys are divided. -/
structure ShardedTable (β : Type) where
  shards : Array (Table β)
  routing : Routing
  nonempty : 0 < shards.size

namespace ShardedTable

section

variable {β : Type}

/-- A sharded table without entries, made to a plan, and what is reported while it is made. -/
def create (factory : Factory β) (plan : ShardPlan) : ShardedTable β × List Event :=
  let (shard, notes) := Table.create factory plan.capacity
  (⟨Array.replicate plan.shardCount shard, plan.routing, by simp [plan.shardCount_pos]⟩,
    (if plan.shards = 0 then [.zeroShards] else [])
      ++ (List.replicate plan.shardCount notes).flatten)

def shardCount (s : ShardedTable β) : Nat := s.shards.size

/-- The shard of a hash. -/
def index (s : ShardedTable β) (h : UInt64) : Fin s.shards.size :=
  ⟨s.routing.index s.shards.size h, Routing.index_lt s.nonempty s.routing h⟩

def shard (s : ShardedTable β) (i : Fin s.shards.size) : Table β := s.shards[i]

def withShard (s : ShardedTable β) (i : Fin s.shards.size) (t : Table β) : ShardedTable β :=
  { s with shards := s.shards.set i t, nonempty := by simpa using s.nonempty }

/-- The number of entries that the shards show together. -/
def size (s : ShardedTable β) : Nat := total Table.size s.shards.toList

def isEmpty (s : ShardedTable β) : Bool := s.shards.all Table.isEmpty

/-- The entries, one shard after another. -/
def entries {K V : Type} [Bucket β K V] (s : ShardedTable β) : List (K × V) :=
  s.shards.toList.flatMap Table.entries

/-- All shards emptied. -/
def clear (s : ShardedTable β) : ShardedTable β × List Event :=
  ({ s with
      shards := s.shards.map fun t => t.clear.1
      nonempty := by simpa using s.nonempty },
    .clearing s.shardCount :: s.shards.toList.flatMap fun t => t.clear.2)

/-- Carries out an operation on one shard. -/
def onShard {α σ : Type} (s : ShardedTable β) (i : Fin s.shards.size)
    (f : Table β → Reply α (Table β) σ) : Reply α (ShardedTable β) σ :=
  let r := f (s.shard i)
  ⟨r.answer, s.withShard i r.state, r.env, r.events⟩

end

variable {σ β K V : Type} [Hashable K] [Access σ β K V]

def get (s : ShardedTable β) (k : K) (env : σ) : Option V × σ :=
  (s.shard (s.index (hash k))).get k env

def contains (s : ShardedTable β) (k : K) (env : σ) : Bool × σ :=
  (s.shard (s.index (hash k))).contains k env

def set (s : ShardedTable β) (k : K) (v : V) (env : σ) :
    Reply (Except StoreError Unit) (ShardedTable β) σ :=
  s.onShard (s.index (hash k)) fun t => t.set k v env

/-- Removes the entry of a key, and fails if there is none. -/
def delete (s : ShardedTable β) (k : K) (env : σ) :
    Reply (Except StoreError Unit) (ShardedTable β) σ :=
  s.onShard (s.index (hash k)) fun t => t.delete k env

end ShardedTable

end HashStore
