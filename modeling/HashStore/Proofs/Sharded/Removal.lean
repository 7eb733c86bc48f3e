import HashStore.Proofs.Sharded.Divided
import HashStore.Proofs.Table.Removal

/-! # Removals from a sharded table

A removal from a sharded table is one from the shard of the key, and no other shard can hold an equal
key where equal keys have equal hashes.  So it is all or nothing as well
(`Divided.delete_allOrNothing`), and `run_create_delete` says so of all states that runs lead to,
whichever calls to buckets are refused on the way and now. -/

namespace HashStore

open Entries Surroundings

namespace ShardedTable

section shards

variable {β : Type} (s : ShardedTable β)

theorem withShard_shard (i : Fin s.shards.size) : s.withShard i (s.shard i) = s := by
  simp only [withShard, shard, Fin.getElem_fin, Array.set_getElem_self]

theorem capacities_withShard {i : Fin s.shards.size} {t : Table β}
    (ht : t.capacity = (s.shard i).capacity) :
    (s.withShard i t).shards.map Table.capacity = s.shards.map Table.capacity := by
  have hi : i.val < (s.shards.map Table.capacity).size := by simp
  have hself := Array.set_getElem_self hi
  rw [Array.getElem_map] at hself
  rw [withShard, Array.map_set, ht]
  exact hself

end shards

variable {K V : Type} [BEq K] [Hashable K]

/-- One sharded table is another without the entry of a key: its shard has lost that entry and all
other shards are the same. -/
structure Loses {β : Type} [Bucket β K V] (s : ShardedTable β) (k : K) (s' : ShardedTable β) :
    Prop where
  shard : ∃ t, (s.shard (s.index (hash k))).Loses k t ∧ s' = s.withShard (s.index (hash k)) t
  entries : LosesEntry k s.entries s'.entries
  size : s'.size + 1 = s.size

variable [EquivBEq K] [LawfulHashable K] {shape : Shape}

namespace Divided

variable {σ : Type} [Access σ (shape.Content K V) K V] [Surroundings σ]
  [TruthfulAccess σ (shape.Content K V) K V] {s : ShardedTable (shape.Content K V)} {env : σ}
  (h : s.Divided) (ht : Truthful env)

include h ht

theorem loses_delete {k : K} (hok : (s.delete k env).answer = .ok ()) :
    s.Loses k (s.delete k env).state := by
  have hshard := h.represents.sound_shard (s.index (hash k))
  have hloses := (hshard.delete_allOrNothing ht k).loses hok
  obtain ⟨a, b, hold, hset, -⟩ := h.represents.exists_split (s.index (hash k))
  obtain ⟨c, e, d, hin, hek, hout⟩ := hloses.entries
  have hentries : LosesEntry k s.entries (s.delete k env).state.entries := by
    refine ⟨a ++ c, e, d ++ b, ?_, hek, ?_⟩
    · rw [hold, hin]
      simp
    · refine (hset _).trans ?_
      rw [hout]
      simp
  refine ⟨⟨_, hloses, rfl⟩, hentries, ?_⟩
  obtain ⟨a, e, c, hold, -, hnew⟩ := hentries
  have hs' := (h.run ht [.delete k]).1
  have hsize : (s.delete k env).state.size = (s.delete k env).state.entries.length :=
    hs'.represents.size_eq
  rw [hsize, h.represents.size_eq, hnew]
  show _ = s.entries.length
  rw [hold]
  simp only [List.length_append, List.length_cons, Nat.add_assoc]

theorem delete_allOrNothing (k : K) :
    AllOrNothing (has (fun a b => a == b) k s.entries = true) (allowsDelete env = true)
      (fun s => s.shards.map Table.capacity) (s.Loses k) s (s.delete k env) := by
  have hshard := (h.represents.sound_shard (s.index (hash k))).delete_allOrNothing ht k
  have hpresent := h.represents.contains_shard k
  constructor
  case ok_iff =>
    refine hshard.ok_iff.trans (and_congr_left fun _ => ?_)
    exact Bool.eq_iff_iff.mp hpresent
  case loses => exact h.loses_delete ht
  case failed =>
    intro hne
    obtain ⟨hans, hstate⟩ := hshard.failed hne
    refine ⟨hans, ?_⟩
    show s.withShard _ ((s.shard _).delete k env).state = s
    rw [hstate, withShard_shard]
  case capacity => exact s.capacities_withShard hshard.capacity
  case events => exact hshard.events

end Divided

/-- Where equal keys have equal hashes, a removal from a table or from a sharded table is all or
nothing in every state that a run leads to, whichever calls to buckets have been refused.  It succeeds
if and only if the key is there and its bucket carries the removal out. -/
theorem run_create_delete (shape : Shape) {faults : Faults} (hf : faults.Truthful)
    (ops : List (Store.Op K V)) (k : K) :
    (∀ requested, let r := Store.run (Table.create (shape.factory K V) requested).1 faults ops
      AllOrNothing (has (fun a b => a == b) k r.state.entries = true)
        (r.env.onDelete r.env.deletes = .done) Table.capacity (r.state.Loses k) r.state
        (r.state.delete k r.env)) ∧
    (∀ plan, let r := Store.run (create (shape.factory K V) plan).1 faults ops
      AllOrNothing (has (fun a b => a == b) k r.state.entries = true)
        (r.env.onDelete r.env.deletes = .done) (fun s => s.shards.map Table.capacity)
        (r.state.Loses k) r.state (r.state.delete k r.env)) := by
  have hf : Truthful faults := hf
  constructor
  · intro requested r
    obtain ⟨hs, ht⟩ := (Table.sound_create shape.factory_lawful requested).run hf ops
    rw [← Faults.allowsDelete_iff]
    exact hs.delete_allOrNothing ht k
  · intro plan r
    obtain ⟨hs, ht⟩ := (divided_create shape.factory_lawful plan).run hf ops
    rw [← Faults.allowsDelete_iff]
    exact hs.delete_allOrNothing ht k

/-- The first removal is said to have found nothing, the second fails and all others are carried out.
So 3 is taken out at the third attempt, and nothing happens before that or for a key that is absent. -/
theorem run_create_delete_at_third_attempt :
    let shape := Shape.striped 2 .push
    let faults : Faults := { Faults.none with
      onDelete := fun i => if i = 0 then .ignored else if i = 1 then .refused else .done }
    let writes : List (Store.Op UInt64 Nat) := [.set 1 10, .set 3 30, .set 5 50, .set 2 20]
    let table := Store.run (Table.create (shape.factory UInt64 Nat) 1).1 faults
    let sharded := Store.run (create (shape.factory UInt64 Nat) ⟨2, 1, .mask⟩).1 faults
    let t := table (writes ++ [.delete 3])
    let t' := table (writes ++ [.delete 3, .delete 3])
    let s := sharded (writes ++ [.delete 3])
    let s' := sharded (writes ++ [.delete 3, .delete 3])
    faults.Truthful ∧ EquivBEq UInt64 ∧ LawfulHashable UInt64 ∧
      has (fun a b => a == b) 3 t.state.entries = true ∧ (t.state.delete 3 t.env).state = t.state ∧
      t'.state.Loses 3 (t'.state.delete 3 t'.env).state ∧
      (t'.state.delete 4 t'.env).answer = .error .notFound ∧
      has (fun a b => a == b) 3 s.state.entries = true ∧ (s.state.delete 3 s.env).state = s.state ∧
      s'.state.Loses 3 (s'.state.delete 3 s'.env).state ∧
      (s'.state.delete 4 s'.env).answer = .error .notFound := by
  intro shape faults writes table sharded t t' s s'
  have hf : faults.Truthful := by
    refine ⟨fun _ => Or.inl rfl, fun i => ?_, rfl⟩
    show (if i = 0 then DeleteFate.ignored else if i = 1 then .refused else .done) ≠ .claimed
    split
    · decide
    · split <;> decide
  have hfirst := run_create_delete (.striped 2 .push) hf (writes ++ [.delete 3]) 3
  have hthird := run_create_delete (.striped 2 .push) hf (writes ++ [.delete 3, .delete 3])
  have ht := hfirst.1 1
  have ht' := fun k => (hthird k).1 1
  have hs := hfirst.2 ⟨2, 1, .mask⟩
  have hs' := fun k => (hthird k).2 ⟨2, 1, .mask⟩
  refine ⟨hf, inferInstance, inferInstance, ?_, (ht.failed fun hok => ?_).2,
    (ht' 3).loses ((ht' 3).ok_iff.mpr ⟨?_, ?_⟩), ((ht' 4).failed fun hok => ?_).1, ?_,
    (hs.failed fun hok => ?_).2, (hs' 3).loses ((hs' 3).ok_iff.mpr ⟨?_, ?_⟩),
    ((hs' 4).failed fun hok => ?_).1⟩
  · decide +kernel
  · exact absurd (ht.ok_iff.mp hok).2 (by decide +kernel)
  · decide +kernel
  · decide +kernel
  · exact absurd ((ht' 4).ok_iff.mp hok).1 (by decide +kernel)
  · decide +kernel
  · exact absurd (hs.ok_iff.mp hok).2 (by decide +kernel)
  · decide +kernel
  · decide +kernel
  · exact absurd ((hs' 4).ok_iff.mp hok).1 (by decide +kernel)

end ShardedTable
end HashStore
