import HashStore.Proofs.Sharded.Removal
import HashStore.Proofs.Table.Checked
import HashStore.Proofs.Table.Placement

/-! # Every index is in range

Before a key comes to a table of a sharded table, its shard is looked up by a number that comes from
its hash as well.  The operations of a sharded table are carried out here with this number checked and
with those that the shard looks up (`ShardedTable.perform?`).

However many shards, buckets and stripes are asked for, and however stripes are nested, tables and
sharded tables stay in range through every run.  No check ever fails, not even after false reports: a
run with checked numbers is the run itself (`run_create_in_range`). -/

namespace HashStore

variable {α β K V : Type}

namespace ShardedTable

/-- Carries out `f` on the shard of a hash, if there is a shard of its number. -/
def reach? (u : UInt64) (f : Table β → Option (α × Table β)) (s : ShardedTable β) :
    Option (α × ShardedTable β) :=
  if h : s.shards.size ≠ 0 ∧ s.routing.index s.shards.size u < s.shards.size then do
    let r ← f (s.shard ⟨s.routing.index s.shards.size u, h.2⟩)
    some (r.1, s.withShard ⟨s.routing.index s.shards.size u, h.2⟩ r.2)
  else none

theorem reach?_eq {s : ShardedTable β} {u : UInt64} {f : Table β → Option (α × Table β)}
    {r : α × Table β} (hf : f (s.shard (s.index u)) = some r) :
    s.reach? u f = some (r.1, s.withShard (s.index u) r.2) := by
  have hpos : s.shards.size ≠ 0 := Nat.ne_of_gt s.nonempty
  rw [reach?, dif_pos ⟨hpos, (s.index u).isLt⟩]
  exact congrArg (Option.bind · _) hf

variable [BEq K] [Hashable K] {shape : Shape}

def perform? (s : ShardedTable (shape.Content K V)) :
    Store.Op K V → Option (Store.Answer V × ShardedTable (shape.Content K V))
  | .get k => s.reach? (hash k) fun t => t.perform? (.get k)
  | .set k v => s.reach? (hash k) fun t => t.perform? (.set k v)
  | .delete k => s.reach? (hash k) fun t => t.perform? (.delete k)
  | .contains k => s.reach? (hash k) fun t => t.perform? (.contains k)
  | .clear => some (.done, s.clear.1)
  | .size => some (.count s.size, s)
  | .isEmpty => some (.truth s.isEmpty, s)

theorem perform?_eq [EquivBEq K] {s : ShardedTable (shape.Content K V)}
    (h : ∀ t ∈ s.shards, t.Placed) (op : Store.Op K V) :
    s.perform? op = some ((Store.apply s op ()).answer, (Store.apply s op ()).state) := by
  have hreach : ∀ (k : K) (op : Store.Op K V), s.reach? (hash k) (fun t => t.perform? op) =
      some ((Store.apply (s.shard (s.index (hash k))) op ()).answer,
        s.withShard (s.index (hash k)) (Store.apply (s.shard (s.index (hash k))) op ()).state) := by
    intro k op
    have hshard := (h _ (Array.getElem_mem (s.index (hash k)).isLt)).perform?_eq op
    rw [reach?_eq hshard]
    rfl
  cases op with
  | get k =>
      rw [perform?, hreach]
      show some (_, s.withShard _ (s.shard _)) = _
      rw [withShard_shard]
      rfl
  | set k v => exact hreach k (.set k v)
  | delete k => exact hreach k (.delete k)
  | contains k =>
      rw [perform?, hreach]
      show some (_, s.withShard _ (s.shard _)) = _
      rw [withShard_shard]
      rfl
  | clear => rfl
  | size => rfl
  | isEmpty => rfl

theorem placed_run {β σ : Type} [Bucket β K V] [LawfulBucket β K V] [Access σ β K V]
    [FaithfulAccess σ β K V] {s : ShardedTable β} (h : ∀ t ∈ s.shards, t.Placed)
    (ops : List (Store.Op K V)) (env : σ) :
    ∀ t ∈ (Store.run s env ops).state.shards, t.Placed :=
  shards_run (fun _ op env h => h.apply op env) h env ops

omit [BEq K] in
theorem inRange_run {σ : Type} [Access σ β K V] [QuietAccess σ β K V] (factory : Factory β)
    (plan : ShardPlan) (env : σ) (ops : List (Store.Op K V)) :
    ∀ t ∈ (Store.run (create factory plan).1 env ops).state.shards, t.InRange :=
  shards_run (fun _ op env h => h.apply op env)
    (shards_create factory plan (Table.inRange_create factory plan.capacity)) env ops

end ShardedTable

/-! ### Runs -/

namespace Store

variable {S : Type}

def run? (step? : S → Op K V → Option (Answer V × S)) (s : S) :
    List (Op K V) → Option (List (Answer V) × S)
  | [] => some ([], s)
  | op :: ops => do
    let r ← step? s op
    let rest ← run? step? r.2 ops
    some (r.1 :: rest.1, rest.2)

/-- Where an invariant makes every operation come to what it should, so does every run. -/
theorem run?_eq [Store S Unit K V] {I : S → Prop} {step? : S → Op K V → Option (Answer V × S)}
    (hstep : ∀ s op, I s → step? s op = some ((apply s op ()).answer, (apply s op ()).state) ∧
      I (apply s op ()).state)
    {s : S} (hs : I s) (ops : List (Op K V)) :
    run? step? s ops = some ((run s () ops).answer, (run s () ops).state) := by
  induction ops generalizing s with
  | nil => rfl
  | cons op ops ih =>
      obtain ⟨happly, hnext⟩ := hstep s op hs
      rw [run?, happly]
      show (run? step? (apply s op ()).state ops).bind _ = _
      rw [ih hnext]
      rfl

end Store

variable {σ : Type} [BEq K] [EquivBEq K] [Hashable K]

/-- Whatever numbers of buckets, shards and stripes are asked for, and whatever has been refused or
reported falsely in a run: a table has buckets and the number of a hash is that of one of them, the
number of its shard is that of a shard, and that of its stripe is that of a stripe.  So later
operations with all these numbers checked, also while tables grow, come to what the operations come
to. -/
theorem run_create_in_range (shape : Shape) [Access σ (shape.Content K V) K V]
    [QuietAccess σ (shape.Content K V) K V] (env : σ) (faults : Faults)
    (ops later : List (Store.Op K V)) :
    let factory := shape.factory K V
    (∀ requested u, stripeNumber (stripeBits requested) u < powerOfTwo (stripeBits requested)) ∧
    (∀ requested,
      let t₀ := (Table.create factory requested).1
      let t := (Store.run t₀ env ops).state
      let t' := (Store.run t₀ faults ops).state
      (t.capacity ≠ 0 ∧ ∀ u, t.index u < t.buckets.size) ∧
        Store.run? Table.perform? t' later =
          some ((Store.run t' () later).answer, (Store.run t' () later).state)) ∧
    ∀ plan,
      let s₀ := (ShardedTable.create factory plan).1
      let s := (Store.run s₀ env ops).state
      let s' := (Store.run s₀ faults ops).state
      s.shardCount = plan.shardCount ∧
        (∀ u, s.routing.index s.shardCount u < s.shardCount) ∧
        (∀ t ∈ s.shards, t.capacity ≠ 0 ∧ ∀ u, t.index u < t.buckets.size) ∧
        Store.run? ShardedTable.perform? s' later =
          some ((Store.run s' () later).answer, (Store.run s' () later).state) := by
  intro factory
  have hf : factory.Lawful := shape.factory_lawful
  have hplaced : ∀ requested, (Table.create factory requested).1.Placed :=
    fun requested => (Table.sound_create hf requested).toPlaced
  have hrange : ∀ {t : Table (shape.Content K V)}, t.InRange →
      t.capacity ≠ 0 ∧ ∀ u, t.index u < t.buckets.size :=
    fun h => ⟨Nat.ne_of_gt h.capacity_pos, h.index_lt⟩
  refine ⟨fun requested u => ?_, fun requested => ⟨?_, ?_⟩, fun plan => ⟨?_, ?_, ?_, ?_⟩⟩
  · rw [stripeNumber_eq]
    exact stripeIndex_lt _ u
  · exact hrange ((Table.inRange_create factory requested).run ops env)
  · exact Store.run?_eq (I := Table.Placed) (fun t op h => ⟨h.perform?_eq op, h.apply op ()⟩)
      ((hplaced requested).run ops faults) later
  · exact (ShardedTable.run_routes _ ops env).2.trans Array.size_replicate
  · exact fun u => ((Store.run (ShardedTable.create factory plan).1 env ops).state.index u).isLt
  · exact fun t ht => hrange (ShardedTable.inRange_run factory plan env ops t ht)
  · exact Store.run?_eq (I := fun s => ∀ t ∈ s.shards, t.Placed)
      (fun s op h => ⟨ShardedTable.perform?_eq h op, ShardedTable.placed_run h [op] ()⟩)
      (ShardedTable.placed_run (ShardedTable.shards_create factory plan (hplaced plan.capacity))
        ops faults) later

/-- Stripes of one stripe each, in tables that are asked for without buckets, where every write is
taken for an insertion and every removal is believed.  Three writes of one key make a table grow to
two buckets, and one of four shards.  After that it is emptied and written to again. -/
theorem run_create_in_range_of_no_buckets :
    let shape := Shape.striped 0 (.striped 1 .push)
    let factory := shape.factory UInt64 Nat
    let plan : ShardPlan := ⟨3, 0, .mask⟩
    let faults := Faults.always (.reported .inserted) .claimed
    let ops : List (Store.Op UInt64 Nat) := [.set 5 50, .set 5 51, .set 5 52, .delete 7]
    let later : List (Store.Op UInt64 Nat) := [.get 5, .delete 5, .contains 5, .clear,
      .set 0xffffffffffffffff 70, .size]
    let t₀ := (Table.create factory 0).1
    let s₀ := (ShardedTable.create factory plan).1
    EquivBEq UInt64 ∧ QuietAccess Faults (shape.Content UInt64 Nat) UInt64 Nat ∧
      (Store.run t₀ faults ops).state.capacity = 2 ∧
      (Store.run s₀ faults ops).state.shards.toList.map Table.capacity = [1, 2, 1, 1] ∧
      stripeNumber (stripeBits 1) 0xffffffffffffffff < powerOfTwo (stripeBits 1) ∧
      (let t := (Store.run t₀ faults ops).state
       t.capacity ≠ 0 ∧ Store.run? Table.perform? t later =
        some ((Store.run t () later).answer, (Store.run t () later).state)) ∧
      let s := (Store.run s₀ faults ops).state
      Store.run? ShardedTable.perform? s later =
        some ((Store.run s () later).answer, (Store.run s () later).state) := by
  intro shape factory plan faults ops later t₀ s₀
  obtain ⟨hstripe, htable, hsharded⟩ :=
    run_create_in_range (.striped 0 (.striped 1 .push)) faults faults ops later
  obtain ⟨⟨hcapacity, -⟩, hrun⟩ := htable 0
  obtain ⟨-, -, -, hrun'⟩ := hsharded ⟨3, 0, .mask⟩
  refine ⟨inferInstance, inferInstance, ?_, ?_, hstripe 1 _, ⟨hcapacity, hrun⟩, hrun'⟩
  · decide +kernel
  · decide +kernel

end HashStore
