import HashStore.Proofs.Bucket.Spread
import HashStore.Proofs.Sharded.Masking
import HashStore.Proofs.Sharded.Product
import HashStore.Proofs.Table.Placement

/-! # The bucket of a key depends on its shard

The shard of a key and its bucket there are remainders of one hash, modulo the number of shards and
modulo the capacity of the shard.  So they agree modulo the greatest common divisor of the two
(`Table.Confined.mod_gcd_eq`), whatever the routing, however often the shard has grown and whatever
its buckets have reported.  Of the `c` buckets of a shard among `n` no more than `c / n.gcd c` ever
hold an entry (`ShardedTable.encard_everHeld_le`).  A growth keeps what the capacities are multiples
of (`Table.dvd_capacity_apply`), so shards that begin with a multiple of `n` buckets never use more
than one bucket in `n`.  The plan in which nothing is chosen is of that kind. -/

namespace HashStore

/-- If all keys of a table have remainder `i` modulo `n`, a bucket that holds an entry agrees with `i`
modulo what `n` and the capacity have in common. -/
theorem Table.Confined.mod_gcd_eq {β K V : Type} [BEq K] [Hashable K] [Bucket β K V]
    [LawfulBucket β K V] {t : Table β} {n i : Nat}
    (h : t.Confined fun k => (hash k).toNat % n = i) {j : Nat} {b : β}
    (hb : t.buckets[j]? = some b) {e : K × V} (he : e ∈ Bucket.entries b) :
    j < t.capacity ∧ j % n.gcd t.capacity = i % n.gcd t.capacity := by
  obtain ⟨hlt, rfl⟩ := Array.getElem?_eq_some_iff.mp hb
  have hmem : e ∈ t.entries := by
    rw [entries_eq]
    exact List.mem_flatMap.mpr ⟨_, Array.getElem_mem_toList hlt, he⟩
  have hbucket : (hash e.1).toNat % t.capacity = j := h.placed j hlt e he
  have hkey : (hash e.1).toNat % n = i := h.keys e hmem
  refine ⟨h.size_buckets ▸ hlt, ?_⟩
  rw [← hbucket, ← hkey, Nat.mod_mod_of_dvd _ (Nat.gcd_dvd_right ..),
    Nat.mod_mod_of_dvd _ (Nat.gcd_dvd_left ..)]

/-- Whatever divides the capacity of a table divides it after a growth. -/
theorem Table.dvd_capacity_apply {σ β K V : Type} [Hashable K] [Access σ β K V]
    [QuietAccess σ β K V] {t : Table β} {d : Nat} (h : d ∣ t.capacity) (op : Store.Op K V) (env : σ) :
    d ∣ (Store.apply t op env).state.capacity := by
  cases op with
  | set k v =>
      show d ∣ (t.set k v env).state.capacity
      rcases (t.set_keeps k v env).2 with hsame | hdouble
      · rwa [hsame]
      · rw [hdouble]
        exact h.mul_left 2
  | delete k =>
      show d ∣ (t.delete k env).state.capacity
      rwa [(t.delete_keeps k env).2.2]
  | _ => exact h

namespace ShardedTable

/-! ### Shards -/

section run

variable {σ β K V : Type} [Hashable K] [Access σ β K V] (factory : Factory β) (plan : ShardPlan)
  (env : σ) (ops : List (Store.Op K V))

theorem index_run_create (u : UInt64) :
    ((Store.run (create factory plan).1 env ops).state.index u).val = u.toNat % plan.shardCount := by
  have hsize : (create factory plan).1.shards.size = plan.shardCount := Array.size_replicate
  rw [run_index]
  show plan.routing.index (create factory plan).1.shards.size u = _
  rw [hsize, plan.index_eq_mod]

theorem dvd_capacity_run_create [QuietAccess σ β K V] :
    ∀ t ∈ (Store.run (create factory plan).1 env ops).state.shards,
      max 1 plan.capacity ∣ t.capacity :=
  shards_run (P := fun t => max 1 plan.capacity ∣ t.capacity)
    (fun _ op env h => Table.dvd_capacity_apply h op env)
    (shards_create factory plan (Nat.dvd_refl _)) env ops

end run

/-! ### Buckets that hold entries -/

section holds

variable {β K V : Type} [Bucket β K V]

/-- Whether shard `i` has `c` buckets and there is an entry in bucket `j`. -/
def holds (s : ShardedTable β) (i c j : Nat) : Bool :=
  s.shards[i]?.any fun t => t.capacity == c && t.buckets[j]?.any fun b => !(Bucket.entries b).isEmpty

theorem holds_iff {s : ShardedTable β} {i c j : Nat} :
    s.holds i c j = true ↔ ∃ t, s.shards[i]? = some t ∧ t.capacity = c ∧
      ∃ b, t.buckets[j]? = some b ∧ ∃ e, e ∈ Bucket.entries b := by
  simp [holds, Option.any_eq_true, List.eq_nil_iff_forall_not_mem]

variable [BEq K] [Hashable K]

/-- The buckets of shard `i` that hold an entry at some moment at which the shard has `c` buckets,
whatever has been done with the sharded table and whichever faults there have been. -/
def everHeld (factory : Factory β) (plan : ShardPlan) (i c : Nat) : Set Nat :=
  {j | ∃ (faults : Faults) (ops : List (Store.Op K V)),
    (Store.run (create factory plan).1 faults ops).state.holds i c j = true}

variable [LawfulBucket β K V]

variable {factory : Factory β} (hf : factory.Lawful) (plan : ShardPlan)

include hf

/-- Whatever goes wrong, a shard has no keys but those that are routed to it, since a key comes to it only
by a write. -/
theorem confined_run_create (faults : Faults) (ops : List (Store.Op K V)) :
    ∀ i (t : Table β), (Store.run (create factory plan).1 faults ops).state.shards[i]? = some t →
      t.Confined fun k => (hash k).toNat % plan.shardCount = i := by
  refine (run_shards (E := fun _ => True) (fun i t op faults hop ht _ => ⟨?_, trivial⟩)
    (fun i t ht => ?_) trivial ops).1
  · refine ht.apply (fun k v hset => ?_) faults
    subst hset
    exact (index_run_create factory plan faults [] (hash k)).symm.trans (beq_iff_eq.mp hop)
  · obtain ⟨hi, rfl⟩ := Array.getElem?_eq_some_iff.mp ht
    rw [getElem_create]
    exact Table.confined_create hf plan.capacity _

theorem mod_gcd_run_create {faults : Faults} {ops : List (Store.Op K V)} {i c j : Nat}
    (hj : (Store.run (create factory plan).1 faults ops).state.holds i c j = true) :
    j < c ∧ j % plan.shardCount.gcd c = i % plan.shardCount.gcd c := by
  obtain ⟨t, ht, rfl, b, hb, e, he⟩ := holds_iff.mp hj
  exact (confined_run_create hf plan faults ops i t ht).mod_gcd_eq hb he

/-- A shard never uses more of its buckets than there are with its number modulo what the number of
shards and the capacity have in common. -/
theorem encard_everHeld_le (i c : Nat) :
    (everHeld factory plan i c).encard ≤ (c / plan.shardCount.gcd c : Nat) := by
  have hheld : ∀ j ∈ everHeld factory plan i c,
      j < c ∧ j % plan.shardCount.gcd c = i % plan.shardCount.gcd c := by
    rintro j ⟨faults, ops, hj⟩
    exact mod_gcd_run_create hf plan hj
  rcases Set.eq_empty_or_nonempty (everHeld factory plan i c) with hnone | ⟨j, hj⟩
  · rw [hnone, Set.encard_empty]
    exact zero_le
  · have hc : 0 < c := Nat.zero_lt_of_lt (hheld j hj).1
    have hgcd : 0 < plan.shardCount.gcd c := Nat.gcd_pos_of_pos_right _ hc
    rw [← encard_stretch hc (Nat.gcd_dvd_right ..) (Nat.mod_lt i hgcd) 0]
    refine Set.encard_le_encard fun j hj => ?_
    obtain ⟨hlt, hmod⟩ := hheld j hj
    exact mem_stretch.mpr ⟨Nat.div_eq_of_lt hlt, hmod⟩

/-- Where the shards begin with a multiple of `n` buckets, and `n` is their number, a bucket that
holds an entry has the number of its shard modulo `n`. -/
theorem everHeld_of_dvd [QuietTraversal β K V] (hn : plan.shardCount ∣ max 1 plan.capacity)
    {i c j : Nat} (hj : j ∈ everHeld factory plan i c) :
    plan.shardCount.gcd c = plan.shardCount ∧ j < c ∧ j % plan.shardCount = i := by
  obtain ⟨faults, ops, hj⟩ := hj
  obtain ⟨hlt, hmod⟩ := mod_gcd_run_create hf plan hj
  obtain ⟨t, hget, rfl, -⟩ := holds_iff.mp hj
  have hgcd : plan.shardCount.gcd t.capacity = plan.shardCount :=
    Nat.gcd_eq_left (hn.trans
      (dvd_capacity_run_create factory plan faults ops t (Array.mem_of_getElem? hget)))
  have hi : i < plan.shardCount := by
    have hsize := (run_routes (create factory plan).1 ops faults).2.trans Array.size_replicate
    exact hsize ▸ (Array.getElem?_eq_some_iff.mp hget).1
  rw [hgcd, Nat.mod_eq_of_lt hi] at hmod
  exact ⟨hgcd, hlt, hmod⟩

/-- Such shards never use more than one bucket in `n`. -/
theorem encard_everHeld_le_of_dvd [QuietTraversal β K V]
    (hn : plan.shardCount ∣ max 1 plan.capacity) (i c : Nat) :
    (everHeld factory plan i c).encard ≤ (c / plan.shardCount : Nat) := by
  rcases Set.eq_empty_or_nonempty (everHeld factory plan i c) with hnone | ⟨j, hj⟩
  · rw [hnone, Set.encard_empty]
    exact zero_le
  · have hle := encard_everHeld_le hf plan i c
    rwa [(everHeld_of_dvd hf plan hn hj).1] at hle

end holds

variable {K V : Type} [BEq K] [EquivBEq K] [Hashable K]

/-- After every run, whatever has been refused or reported falsely in it, the number of a bucket that
holds an entry and that of its shard agree modulo the greatest common divisor `d` of the number of
shards and the capacity of this shard.  So of `c` buckets no more than `c / d` ever hold an entry
while there are `c`.  In the plan in which nothing is chosen that is one bucket in 16, and only one
before the shard grows. -/
theorem run_create_correlated (shape : Shape) (plan : ShardPlan) :
    let factory := shape.factory K V
    let n := plan.shardCount
    (∀ (faults : Faults) (ops : List (Store.Op K V)),
      let s := (Store.run (create factory plan).1 faults ops).state
      s.shardCount = n ∧ ∀ i c j, s.holds i c j = true → j < c ∧ j % n.gcd c = i % n.gcd c) ∧
    (∀ i c, (everHeld factory plan i c).encard ≤ (c / n.gcd c : Nat)) ∧
    (∀ i c, (everHeld factory ShardPlan.default i c).encard ≤ (c / 16 : Nat)) ∧
    ∀ i, everHeld factory ShardPlan.default i 16 ⊆ {i} := by
  intro factory n
  have hf : factory.Lawful := shape.factory_lawful
  have hdefault : ShardPlan.default.shardCount ∣ max 1 ShardPlan.default.capacity := by decide
  refine ⟨fun faults ops => ⟨?_, fun i c j hj => ?_⟩, ?_, ?_, fun i j hj => ?_⟩
  · exact (run_routes _ ops faults).2.trans Array.size_replicate
  · exact mod_gcd_run_create hf plan hj
  · exact encard_everHeld_le hf plan
  · exact encard_everHeld_le_of_dvd hf ShardPlan.default hdefault
  · obtain ⟨-, hlt, hmod⟩ := everHeld_of_dvd hf ShardPlan.default hdefault hj
    exact (Nat.mod_eq_of_lt hlt).symm.trans hmod

/-- The first write is refused and all others are taken for insertions.  So nine writes of one key
make shard 1 of six grow to eight buckets, of which only those of odd numbers are ever used: 19 lies
in bucket 3. -/
theorem run_create_correlated_of_six_shards :
    let factory := (Shape.striped 2 .append).factory UInt64 Nat
    let plan : ShardPlan := ⟨6, 4, .modulo⟩
    let faults : Faults := { Faults.none with
      onSet := fun i => if i = 0 then .refused else .reported .inserted }
    let ops : List (Store.Op UInt64 Nat) := .set 2 20 :: List.replicate 9 (.set 19 190)
    let s := (Store.run (create factory plan).1 faults ops).state
    EquivBEq UInt64 ∧ s.holds 1 8 3 = true ∧
      (3 < 8 ∧ 3 % plan.shardCount.gcd 8 = 1 % plan.shardCount.gcd 8) ∧
      (everHeld factory plan 1 8).encard ≤ (4 : Nat) := by
  intro factory plan faults ops s
  have hholds : s.holds 1 8 3 = true := by decide +kernel
  have hrun := run_create_correlated (K := UInt64) (V := Nat) (.striped 2 .append) ⟨6, 4, .modulo⟩
  exact ⟨inferInstance, hholds, (hrun.1 faults ops).2 1 8 3 hholds, hrun.2.1 1 8⟩

end ShardedTable
end HashStore
