import HashStore.Overlap.Task

/-! # Overlapping operations

`Overlap` is a table with several operations on it under way.  `step i` advances the `i`-th of them,
if that is possible, and `run` follows a schedule.  `lineUp` is the schedule in which all operations
first pass their checks, then work in their buckets, in order, and only then return to the table.
`ShardedOverlap` is the same for a sharded table: the lock of each shard is its own. -/

namespace HashStore

/-- The schedule in which `n` operations go side by side, each of at most four steps. -/
def lineUp (n : Nat) : List Nat := (List.replicate 4 (List.range n)).flatten

/-! ### On one table -/

/-- A table with operations under way. -/
structure Overlap (β K V σ : Type) where
  table : Table β
  tasks : Array (Task K V)
  env : σ
  /-- What has been reported so far. -/
  events : List Event

namespace Overlap

variable {σ β K V : Type} [Hashable K] [Access σ β K V]

/-- Whether some operation shares the lock. -/
def locked (o : Overlap β K V σ) : Bool := o.tasks.any Task.sharesLock

/-- Advances the `i`-th operation by one step, if that is possible. -/
def step (o : Overlap β K V σ) (i : Nat) : Option (Overlap β K V σ) := do
  let task ← o.tasks[i]?
  let r ← task.step o.table o.env o.locked
  some ⟨r.state, o.tasks.setIfInBounds i r.answer, r.env, o.events ++ r.events⟩

/-- Advances the operations as scheduled, and leaves out steps that are not possible. -/
def run (o : Overlap β K V σ) (schedule : List Nat) : Overlap β K V σ :=
  schedule.foldl (fun o i => (o.step i).getD o) o

end Overlap

/-! ### On a sharded table -/

/-- A sharded table with operations under way, each with the number of its shard. -/
structure ShardedOverlap (β K V σ : Type) where
  store : ShardedTable β
  tasks : Array (Nat × Task K V)
  env : σ
  /-- What has been reported so far. -/
  events : List Event

namespace ShardedOverlap

variable {σ β K V : Type} [Hashable K] [Access σ β K V]

/-- The task that carries out an operation on one key, with the number of the key's shard. -/
def place? (s : ShardedTable β) : Store.Op K V → Option (Nat × Task K V)
  | .set k v => some (s.index (hash k), .setting k v)
  | .delete k => some (s.index (hash k), .deleting k)
  | _ => none

/-- Whether some operation shares the lock of a shard. -/
def locked (o : ShardedOverlap β K V σ) (shard : Nat) : Bool :=
  o.tasks.any fun (shard', task) => shard' == shard && task.sharesLock

def step (o : ShardedOverlap β K V σ) (i : Nat) : Option (ShardedOverlap β K V σ) := do
  let (shard, task) ← o.tasks[i]?
  if h : shard < o.store.shards.size then
    let r ← task.step (o.store.shard ⟨shard, h⟩) o.env (o.locked shard)
    some ⟨o.store.withShard ⟨shard, h⟩ r.state, o.tasks.setIfInBounds i (shard, r.answer), r.env,
      o.events ++ r.events⟩
  else none

def run (o : ShardedOverlap β K V σ) (schedule : List Nat) : ShardedOverlap β K V σ :=
  schedule.foldl (fun o i => (o.step i).getD o) o

end ShardedOverlap

end HashStore
