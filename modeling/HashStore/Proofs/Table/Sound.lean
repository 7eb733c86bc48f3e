import HashStore.Store
import HashStore.Proofs.Bucket.Lawful
import HashStore.Proofs.Bucket.Truthful

/-! # What holds of a table between operations

A table over lawful buckets keeps every entry in the bucket of its key (`Table.Placed`) and counts its
entries (`Table.Sound`).  It is then one row of buckets, and a key finds in it what its own bucket
holds: `Placed.get_eq`, `Placed.contains_eq`, `Placed.wrote_stored` and `Placed.entries_erased` say
what a single call to a bucket does to the entries of the whole.

Keys count as one in a table if they are equal and have the same bucket and the same row in it
(`Table.place`).  Nothing here asks that equal keys have equal hashes. -/

namespace HashStore

open Entries

namespace Table

section plain

variable {β K V : Type} [Bucket β K V]

theorem entries_eq (t : Table β) : t.entries = t.buckets.toList.flatMap Bucket.entries := by
  rw [Table.entries, Table.layout, List.flatMap_map]
  rfl

@[simp] theorem counting_count (t : Table β) (change : Int) :
    (t.counting change).count = t.count + change := rfl

@[simp] theorem counting_entries (t : Table β) (change : Int) :
    (t.counting change).entries = t.entries := rfl

@[simp] theorem size_withBucket (t : Table β) (i : Nat) (b : β) :
    (t.withBucket i b).buckets.size = t.buckets.size := Array.size_setIfInBounds

theorem getElem_withBucket (t : Table β) (i : Nat) (b : β) {j : Nat} (hj : j < t.buckets.size)
    (hj' : j < (t.withBucket i b).buckets.size) :
    (t.withBucket i b).buckets[j] = if i = j then b else t.buckets[j] :=
  Array.getElem_setIfInBounds hj

theorem bucketAt_eq {t : Table β} {i : Nat} (hi : i < t.buckets.size) :
    t.bucketAt i = t.buckets[i] := by
  simp [bucketAt, hi]

variable [Hashable K]

/-- What the bucket of a key reports of a write. -/
def report (t : Table β) (k : K) (v : V) : Written :=
  (Bucket.set (t.bucketAt (t.index (hash k))) k v).1

/-- The table after the bucket of a key has taken a write.  The count is as before. -/
def stored (t : Table β) (k : K) (v : V) : Table β :=
  t.withBucket (t.index (hash k)) (Bucket.set (t.bucketAt (t.index (hash k))) k v).2

/-- The table after the bucket of a key has removed its entry.  The count is as before. -/
def erased (t : Table β) (k : K) : Table β :=
  t.withBucket (t.index (hash k)) (Bucket.delete (t.bucketAt (t.index (hash k))) k).2

@[simp] theorem stored_count (t : Table β) (k : K) (v : V) :
    (t.stored k v).count = t.count := rfl

@[simp] theorem stored_capacity (t : Table β) (k : K) (v : V) :
    (t.stored k v).capacity = t.capacity := rfl

@[simp] theorem erased_count (t : Table β) (k : K) : (t.erased k).count = t.count := rfl

theorem write_allowed {σ : Type} [Access σ β K V] [Surroundings σ] [TruthfulAccess σ β K V] {env : σ}
    (ht : Surroundings.Truthful env) (hallow : Surroundings.allowsSet env = true) (t : Table β)
    (k : K) (v : V) :
    t.write k v env = (.ok (t.report k v), t.stored k v, Surroundings.afterSet env) := by
  rw [write, TruthfulAccess.set_allowed _ k v ht hallow]
  rfl

end plain

variable {β K V : Type} [BEq K] [Hashable K] [Bucket β K V] [LawfulBucket β K V]

/-- The way to the row of a hash in a table of some capacity: first its bucket. -/
def place (β : Type) {K V : Type} [BEq K] [Hashable K] [Bucket β K V] [LawfulBucket β K V]
    (capacity : Nat) (u : UInt64) : List Nat :=
  u.toNat % capacity :: LawfulBucket.place β u

/-- Every bucket is sound and every entry lies in the bucket of its key. -/
structure Placed (t : Table β) : Prop where
  capacity_pos : 0 < t.capacity
  size_buckets : t.buckets.size = t.capacity
  sound : ∀ i (hi : i < t.buckets.size), LawfulBucket.Sound t.buckets[i]
  placed : ∀ i (hi : i < t.buckets.size), ∀ e ∈ Bucket.entries t.buckets[i],
    t.index (hash e.1) = i
  factory : t.factory.Lawful

/-- What holds of a table between operations. -/
structure Sound (t : Table β) : Prop extends t.Placed where
  count_eq : t.count = t.entries.length

/-! ### Tables of fresh buckets -/

section fresh

variable {factory : Factory β} (hf : factory.Lawful)

include hf

theorem placed_products {capacity : Nat} (hpos : 0 < capacity) (count : Int) :
    (Table.mk (factory.products capacity) capacity count factory).Placed where
  capacity_pos := hpos
  size_buckets := by simp [Factory.products]
  sound i hi := by simpa [Factory.products] using hf.sound
  placed i hi e he := by simp [Factory.products, hf.empty] at he
  factory := hf

theorem entries_products (capacity : Nat) (count : Int) :
    (Table.mk (factory.products capacity) capacity count factory).entries = [] := by
  rw [entries_eq, List.flatMap_eq_nil_iff]
  intro b hb
  rw [Factory.products, Array.toList_replicate] at hb
  rw [List.eq_of_mem_replicate hb, hf.empty]

theorem sound_create (requested : Nat) : (create factory requested).1.Sound where
  toPlaced := placed_products hf (by omega) 0
  count_eq := by
    rw [create, entries_products hf]
    rfl

theorem entries_create (requested : Nat) : (create factory requested).1.entries = [] :=
  entries_products hf _ _

end fresh

namespace Placed

variable {t : Table β} (h : t.Placed)

include h

theorem clear : t.clear.1.Placed := placed_products h.factory h.capacity_pos 0

theorem entries_clear : t.clear.1.entries = [] := entries_products h.factory _ _

theorem counting (change : Int) : (t.counting change).Placed :=
  ⟨h.capacity_pos, h.size_buckets, h.sound, h.placed, h.factory⟩

theorem index_lt (u : UInt64) : t.index u < t.buckets.size := by
  rw [h.size_buckets]
  exact Nat.mod_lt _ h.capacity_pos

theorem sound_bucketAt (u : UInt64) : LawfulBucket.Sound (t.bucketAt (t.index u)) := by
  rw [bucketAt_eq (h.index_lt u)]
  exact h.sound _ _

/-- The entries of the bucket of a hash all have the number of that bucket. -/
theorem index_bucketAt (u : UInt64) : ∀ e ∈ Bucket.entries (t.bucketAt (t.index u)),
    (hash e.1).toNat % t.capacity = u.toNat % t.capacity := by
  rw [bucketAt_eq (h.index_lt u)]
  exact h.placed _ _

theorem placed_toList (j : Nat) (hj : j < t.buckets.toList.length) :
    ∀ e ∈ Bucket.entries t.buckets.toList[j], t.index (hash e.1) = j := by
  rw [Array.getElem_toList]
  exact h.placed j (by simpa using hj)

theorem exists_split (u : UInt64) :
    ∃ a b, t.entries = a ++ Bucket.entries (t.bucketAt (t.index u)) ++ b ∧
      (∀ c, (t.withBucket (t.index u) c).entries = a ++ Bucket.entries c ++ b) ∧
      ∀ e ∈ a ++ b, (hash e.1).toNat % t.capacity ≠ u.toNat % t.capacity := by
  have hi : t.index u < t.buckets.toList.length := by simpa using h.index_lt u
  obtain ⟨a, b, hold, hnew, hother⟩ := exists_flatMap_set t.index hi h.placed_toList
  refine ⟨a, b, ?_, ?_, hother⟩
  · rw [entries_eq, hold, bucketAt_eq (h.index_lt u), Array.getElem_toList]
  · intro c
    rw [entries_eq, ← hnew c, withBucket, Array.toList_setIfInBounds]

theorem distinct : Distinct (meets (place β t.capacity)) t.entries := by
  rw [entries_eq]
  refine distinct_flatMap t.index (fun b hb => ?_) h.placed_toList
  obtain ⟨i, hi, rfl⟩ := List.getElem_of_mem hb
  exact LawfulBucket.distinct (h.sound i (by simpa using hi))

theorem withBucket {i : Nat} {b : β} (hb : LawfulBucket.Sound b)
    (hplaced : ∀ e ∈ Bucket.entries b, t.index (hash e.1) = i) : (t.withBucket i b).Placed where
  capacity_pos := h.capacity_pos
  size_buckets := by rw [size_withBucket]; exact h.size_buckets
  sound j hj := by
    rw [getElem_withBucket t i b (by simpa using hj)]
    split
    · exact hb
    · exact h.sound j (by simpa using hj)
  placed j hj e he := by
    rw [getElem_withBucket t i b (by simpa using hj)] at he
    split at he
    · rename_i hij
      rw [← hij]
      exact hplaced e he
    · exact h.placed j (by simpa using hj) e he
  factory := h.factory

theorem withBucket_bucketAt (u : UInt64) :
    t.withBucket (t.index u) (t.bucketAt (t.index u)) = t := by
  have hi := h.index_lt u
  rw [bucketAt_eq hi, Table.withBucket]
  have hsame : t.buckets.setIfInBounds (t.index u) t.buckets[t.index u] = t.buckets := by
    rw [Array.setIfInBounds, dif_pos hi, Array.set_getElem_self]
  rw [hsame]

/-! ### Single calls -/

theorem wrote_stored (k : K) (v : V) :
    Wrote (place β t.capacity) (LawfulBucket.front β) k v t.entries (t.report k v)
      (t.stored k v).entries := by
  obtain ⟨a, b, hold, hnew, hother⟩ := h.exists_split (hash k)
  rw [hold, stored, hnew]
  exact (LawfulBucket.wrote_set k v (h.sound_bucketAt (hash k))).layer
    (h.index_bucketAt (hash k)) hother

theorem stored (k : K) (v : V) : (t.stored k v).Placed := by
  have hb := h.sound_bucketAt (hash k)
  refine h.withBucket (LawfulBucket.sound_set k v hb) ?_
  exact (LawfulBucket.wrote_set k v hb).forall_key (P := fun k' => t.index (hash k') = _)
    (h.index_bucketAt (hash k)) rfl

theorem entries_erased (k : K) :
    (t.erased k).entries = remove (meets (place β t.capacity)) k t.entries := by
  obtain ⟨a, b, hold, hnew, hother⟩ := h.exists_split (hash k)
  unfold place
  rw [hold, Table.erased, hnew, remove_layer (h.index_bucketAt (hash k)) hother,
    LawfulBucket.entries_delete k (h.sound_bucketAt (hash k))]

theorem erased (k : K) : (t.erased k).Placed := by
  have hb := h.sound_bucketAt (hash k)
  refine h.withBucket (LawfulBucket.sound_delete k hb) ?_
  rw [LawfulBucket.entries_delete k hb]
  exact fun e he => h.index_bucketAt (hash k) e (List.mem_filter.mp he).1

theorem report_eq (k : K) (v : V) : t.report k v =
    if has (meets (place β t.capacity)) k t.entries then .updated else .inserted :=
  (h.wrote_stored k v).how_eq

section access

variable {σ : Type} [Access σ β K V] [Surroundings σ] [TruthfulAccess σ β K V] {env : σ}
  (ht : Surroundings.Truthful env)

include ht

theorem get_eq (k : K) :
    t.get k env = ((find (meets (place β t.capacity)) k t.entries).map (·.2), env) := by
  obtain ⟨a, b, hold, _, hother⟩ := h.exists_split (hash k)
  unfold place
  rw [hold, find_layer (h.index_bucketAt (hash k)) hother,
    ← LawfulBucket.get_eq k (h.sound_bucketAt (hash k))]
  exact TruthfulAccess.get_eq _ k ht

theorem contains_eq (k : K) :
    t.contains k env = (has (meets (place β t.capacity)) k t.entries, env) := by
  obtain ⟨a, b, hold, _, hother⟩ := h.exists_split (hash k)
  unfold place
  rw [hold, has_layer (h.index_bucketAt (hash k)) hother,
    ← LawfulBucket.contains_eq k (h.sound_bucketAt (hash k))]
  exact TruthfulAccess.contains_eq _ k ht

theorem write_refused (hrefuse : Surroundings.allowsSet env = false) (k : K) (v : V) :
    t.write k v env = (.error .notFound, t, Surroundings.afterSet env) := by
  rw [write, TruthfulAccess.set_refused _ k v ht hrefuse]
  show (_, t.withBucket _ _, _) = _
  rw [h.withBucket_bucketAt]

theorem erase_allowed (hallow : Surroundings.allowsDelete env = true) (k : K) :
    t.erase k env = (.ok (has (meets (place β t.capacity)) k t.entries), t.erased k,
      Surroundings.afterDelete env) := by
  obtain ⟨a, b, hold, _, hother⟩ := h.exists_split (hash k)
  unfold place
  rw [hold, has_layer (h.index_bucketAt (hash k)) hother,
    ← LawfulBucket.delete_eq k (h.sound_bucketAt (hash k)), erase,
    TruthfulAccess.delete_allowed _ k ht hallow]
  rfl

theorem erase_refused (hrefuse : Surroundings.allowsDelete env = false) (k : K) :
    t.erase k env = (.error .notFound, t, Surroundings.afterDelete env) ∨
      t.erase k env = (.ok false, t, Surroundings.afterDelete env) := by
  have hsame := h.withBucket_bucketAt (hash k)
  rcases TruthfulAccess.delete_refused (t.bucketAt (t.index (hash k))) k ht hrefuse with hd | hd
  · left
    rw [erase, hd]
    simp only [hsame]
  · right
    rw [erase, hd]
    simp only [hsame]

end access

end Placed

/-! ### Counts -/

namespace Sound

variable {t : Table β} (h : t.Sound)

include h

theorem clear : t.clear.1.Sound where
  toPlaced := h.toPlaced.clear
  count_eq := by rw [h.entries_clear]; rfl

theorem size_eq : t.size = t.entries.length := by
  rw [size, h.count_eq, Int.toNat_natCast]

end Sound

end Table
end HashStore
