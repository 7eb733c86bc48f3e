import HashStore.Outcome

/-! # Events

What a store reports while it works, and the line in which each report is written. -/

namespace HashStore

/-- Something that a store reports. -/
inductive Event where
  /-- A table was asked for without buckets and got one. -/
  | zeroCapacity
  /-- A sharded table was asked for without shards and got one. -/
  | zeroShards
  /-- A striped bucket was asked for without stripes and got `used` of them. -/
  | zeroStripes (used : Nat)
  /-- A table was rebuilt with more buckets, and `moved` entries went over to them. -/
  | resized (oldCapacity newCapacity moved : Nat)
  /-- A table kept its `oldCapacity` buckets because an entry was not taken over. -/
  | aborted (error : StoreError) (oldCapacity : Nat)
  /-- A table was emptied. -/
  | cleared (capacity : Nat)
  /-- A sharded table is about to empty all its shards. -/
  | clearing (shards : Nat)
deriving DecidableEq

namespace Event

/-- The line that reports an event: its level, what happened, and its numbers. -/
def render : Event → String
  | zeroCapacity => "WARN zero capacity requested for hash map, using 1"
  | zeroShards => "WARN zero shards requested for sharded map, using 1"
  | zeroStripes used => s!"WARN zero stripes requested for sharded list default={used}"
  | resized oldCapacity newCapacity moved =>
    s!"DEBUG resized hash map old_capacity={oldCapacity} new_capacity={newCapacity} moved={moved}"
  | aborted error oldCapacity =>
    s!"WARN aborted hash map resize err={error.message} old_capacity={oldCapacity}"
  | cleared capacity => s!"TRACE cleared hash map capacity={capacity}"
  | clearing shards => s!"TRACE clearing sharded map shards={shards}"

/-- Puts the report that a table was emptied into a run of such reports, by capacity. -/
def insertCleared (capacity : Nat) : List Event → List Event
  | cleared capacity' :: rest =>
    if capacity ≤ capacity' then cleared capacity :: cleared capacity' :: rest
    else cleared capacity' :: insertCleared capacity rest
  | rest => cleared capacity :: rest

/-- The reports with each run of emptied tables ordered by capacity: shards are emptied side by
side, so the order inside such a run means nothing. -/
def settle : List Event → List Event
  | [] => []
  | cleared capacity :: rest => insertCleared capacity (settle rest)
  | event :: rest => event :: settle rest

end Event

end HashStore
