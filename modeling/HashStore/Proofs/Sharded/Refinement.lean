import HashStore.Proofs.Table.Refinement

/-! # A sharded table is a finite map

Where equal keys have equal hashes and no call is refused, a sharded table answers every sequence of
operations as one finite map does, whatever the number of its shards and however each of them has
grown.  `ShardedTable.Represents` is the invariant: the shards are sound, each holds only keys that are
routed to it, and together they have the entries of the map.  What a key can meet then lies in its own
shard (`Represents.lookup_shard`), so an operation on that shard is an operation on the whole.

No operation changes how keys are routed (`run_index`), whatever is refused or misreported. -/

namespace HashStore

open Entries

namespace ShardedTable

/-! ### Routing -/

section routing

variable {σ β K V : Type} [Hashable K] [Access σ β K V]

theorem apply_routes (s : ShardedTable β) (op : Store.Op K V) (env : σ) :
    (Store.apply s op env).state.routing = s.routing ∧
      (Store.apply s op env).state.shards.size = s.shards.size := by
  cases op with
  | set k v => exact ⟨rfl, Array.size_set (s.index (hash k)).isLt⟩
  | delete k => exact ⟨rfl, Array.size_set (s.index (hash k)).isLt⟩
  | clear => exact ⟨rfl, Array.size_map⟩
  | get _ => exact ⟨rfl, rfl⟩
  | contains _ => exact ⟨rfl, rfl⟩
  | size => exact ⟨rfl, rfl⟩
  | isEmpty => exact ⟨rfl, rfl⟩

theorem run_routes (s : ShardedTable β) (ops : List (Store.Op K V)) (env : σ) :
    (Store.run s env ops).state.routing = s.routing ∧
      (Store.run s env ops).state.shards.size = s.shards.size := by
  induction ops generalizing s env with
  | nil => exact ⟨rfl, rfl⟩
  | cons op ops ih =>
      obtain ⟨hrouting, hsize⟩ := apply_routes s op env
      obtain ⟨hrouting', hsize'⟩ := ih (Store.apply s op env).state (Store.apply s op env).env
      exact ⟨hrouting'.trans hrouting, hsize'.trans hsize⟩

theorem run_index (s : ShardedTable β) (ops : List (Store.Op K V)) (env : σ) (u : UInt64) :
    ((Store.run s env ops).state.index u).val = (s.index u).val := by
  obtain ⟨hrouting, hsize⟩ := run_routes s ops env
  show (Store.run s env ops).state.routing.index _ u = s.routing.index _ u
  rw [hrouting, hsize]

end routing

/-! ### Sizes -/

theorem isEmpty_eq {β : Type} (s : ShardedTable β) : s.isEmpty = (s.size == 0) := by
  rw [Bool.eq_iff_iff, beq_iff_eq, size, total_eq_zero_iff, isEmpty, ← Array.all_toList,
    List.all_eq_true]
  exact forall₂_congr fun t _ => beq_iff_eq

/-! ### Single shards -/

section shards

variable {β : Type}

theorem size_withShard (s : ShardedTable β) (i : Fin s.shards.size) (t : Table β) :
    (s.withShard i t).shards.size = s.shards.size := Array.size_set i.isLt

theorem getElem_withShard (s : ShardedTable β) (i : Fin s.shards.size) (t : Table β) {j : Nat}
    (hj : j < (s.withShard i t).shards.size) (hj' : j < s.shards.size) :
    (s.withShard i t).shards[j] = if i.val = j then t else s.shards[j] :=
  Array.getElem_set i.isLt hj

theorem index_withShard (s : ShardedTable β) (i : Fin s.shards.size) (t : Table β) (u : UInt64) :
    ((s.withShard i t).index u).val = (s.index u).val := by
  show s.routing.index (s.withShard i t).shards.size u = _
  rw [size_withShard]
  rfl

theorem getElem_clear (s : ShardedTable β) {j : Nat} (hj : j < s.clear.1.shards.size)
    (hj' : j < s.shards.size) : s.clear.1.shards[j] = s.shards[j].clear.1 :=
  Array.getElem_map ..

theorem getElem_create (factory : Factory β) (plan : ShardPlan) {j : Nat}
    (hj : j < (create factory plan).1.shards.size) :
    (create factory plan).1.shards[j] = (Table.create factory plan.capacity).1 :=
  Array.getElem_replicate _

theorem entries_eq_nil {K V : Type} [Bucket β K V] {s : ShardedTable β}
    (h : ∀ j (hj : j < s.shards.size), s.shards[j].entries = []) : s.entries = [] := by
  rw [entries, List.flatMap_eq_nil_iff]
  intro t ht
  obtain ⟨j, hj, rfl⟩ := List.getElem_of_mem ht
  exact h j (by simpa using hj)

/-- Keys that are routed to different shards are not equal. -/
theorem beq_eq_false_of_index_ne {K V : Type} [BEq K] [Hashable K] [LawfulHashable K]
    {s : ShardedTable β} {k : K} {l : List (K × V)}
    (hl : ∀ e ∈ l, s.index (hash e.1) ≠ s.index (hash k)) : ∀ e ∈ l, (e.1 == k) = false := by
  intro e he
  rw [Bool.eq_false_iff]
  intro heq
  exact hl e he (congrArg s.index (LawfulHashable.hash_eq e.1 k heq))

end shards

/-! ### The entries of the shards -/

variable {β K V : Type} [BEq K] [Hashable K]

section lawful

variable [Bucket β K V] [LawfulBucket β K V]

/-- A sharded table stands for a finite map. -/
structure Represents (s : ShardedTable β) (d : Dict K V) : Prop where
  sound : ∀ i (hi : i < s.shards.size), s.shards[i].Sound
  placed : ∀ i (hi : i < s.shards.size), ∀ e ∈ s.shards[i].entries,
    (s.index (hash e.1)).val = i
  perm : s.entries.Perm d.entries

theorem size_eq_length {s : ShardedTable β}
    (hsound : ∀ i (hi : i < s.shards.size), s.shards[i].Sound) : s.size = s.entries.length := by
  have hsizes : ∀ t ∈ s.shards.toList, t.size = t.entries.length := by
    intro t ht
    obtain ⟨i, hi, rfl⟩ := List.getElem_of_mem ht
    exact (hsound i (by simpa using hi)).size_eq
  rw [size, total_congr hsizes, entries, length_flatMap_eq_total]

/-- Without entries in any shard a sharded table stands for the map without entries. -/
theorem represents_empty {s : ShardedTable β}
    (hsound : ∀ i (hi : i < s.shards.size), s.shards[i].Sound)
    (hnil : ∀ i (hi : i < s.shards.size), s.shards[i].entries = []) :
    Represents s (Dict.empty : Dict K V) := by
  refine ⟨hsound, fun i hi e he => ?_, ?_⟩
  · rw [hnil i hi] at he
    cases he
  · rw [entries_eq_nil hnil]
    exact List.Perm.nil

theorem represents_create {factory : Factory β} (hf : factory.Lawful) (plan : ShardPlan) :
    Represents (create factory plan).1 (Dict.empty : Dict K V) := by
  refine represents_empty (fun i hi => ?_) (fun i hi => ?_)
  · rw [getElem_create]
    exact Table.sound_create hf plan.capacity
  · rw [getElem_create]
    exact Table.entries_create hf plan.capacity

namespace Represents

variable {s : ShardedTable β} {d : Dict K V} (h : Represents s d)

include h

theorem sound_shard (i : Fin s.shards.size) : (s.shard i).Sound := h.sound i i.isLt

theorem placed_shard (i : Fin s.shards.size) :
    ∀ e ∈ (s.shard i).entries, s.index (hash e.1) = i :=
  fun e he => Fin.ext (h.placed i i.isLt e he)

theorem size_eq : s.size = d.size := by
  rw [size_eq_length h.sound, Dict.size, h.perm.length_eq]

theorem clear : Represents s.clear.1 (Dict.empty : Dict K V) := by
  have hsize : s.clear.1.shards.size = s.shards.size := Array.size_map
  refine represents_empty (fun i hi => ?_) (fun i hi => ?_)
  · have hi' : i < s.shards.size := hsize ▸ hi
    rw [getElem_clear s hi hi']
    exact (h.sound i hi').clear
  · have hi' : i < s.shards.size := hsize ▸ hi
    rw [getElem_clear s hi hi']
    exact (h.sound i hi').entries_clear

theorem exists_split (i : Fin s.shards.size) :
    ∃ a b, s.entries = a ++ (s.shard i).entries ++ b ∧
      (∀ t, (s.withShard i t).entries = a ++ t.entries ++ b) ∧
      ∀ e ∈ a ++ b, s.index (hash e.1) ≠ i := by
  have hi : i.val < s.shards.toList.length := by simp
  have hplaced : ∀ j (hj : j < s.shards.toList.length), ∀ e ∈ s.shards.toList[j].entries,
      s.routing.index s.shards.size (hash e.1) = j :=
    fun j hj => h.placed j (by simpa using hj)
  obtain ⟨a, b, hold, hnew, hother⟩ :=
    exists_flatMap_set (s.routing.index s.shards.size) hi hplaced
  refine ⟨a, b, hold, fun t => ?_, fun e he heq => hother e he (congrArg Fin.val heq)⟩
  rw [entries, ← hnew t, withShard, Array.toList_set]

theorem withShard {i : Fin s.shards.size} {t : Table β} {d' : Dict K V} (ht : t.Sound)
    (hplaced : ∀ e ∈ t.entries, s.index (hash e.1) = i)
    (hperm : (s.withShard i t).entries.Perm d'.entries) : Represents (s.withShard i t) d' := by
  refine ⟨fun j hj => ?_, fun j hj e he => ?_, hperm⟩
  · have hj' : j < s.shards.size := size_withShard s i t ▸ hj
    rw [getElem_withShard s i t hj hj']
    split
    · exact ht
    · exact h.sound j hj'
  · have hj' : j < s.shards.size := size_withShard s i t ▸ hj
    rw [getElem_withShard s i t hj hj'] at he
    rw [index_withShard]
    split at he
    · rename_i hij
      rw [hplaced e he, hij]
    · exact h.placed j hj' e he

/-! ### Keyed operations -/

variable [LawfulHashable K]

theorem contains_shard (k : K) :
    (h.sound_shard (s.index (hash k))).dict.contains k = d.contains k := by
  obtain ⟨a, b, hold, _, hother⟩ := h.exists_split (s.index (hash k))
  have hfar := beq_eq_false_of_index_ne hother
  rw [Dict.contains, Dict.contains, ← has_perm h.perm, hold, has_frame hfar]
  rfl

/-- An operation on the shard of a key is one on the whole if it comes to the same with other entries
around those of the shard, none of which has an equal key. -/
theorem exchange {k : K} {t : Table β} {new : List (K × V)} {d' : Dict K V} (ht : t.Sound)
    (hnew : t.entries.Perm new) (hplaced : ∀ e ∈ new, s.index (hash e.1) = s.index (hash k))
    (hwhole : ∀ a b, s.entries = a ++ (s.shard (s.index (hash k))).entries ++ b →
      (∀ e ∈ a ++ b, (e.1 == k) = false) → (a ++ new ++ b).Perm d'.entries) :
    Represents (s.withShard (s.index (hash k)) t) d' := by
  obtain ⟨a, b, hold, hset, hother⟩ := h.exists_split (s.index (hash k))
  refine h.withShard ht (fun e he => hplaced e (hnew.mem_iff.mp he)) ?_
  rw [hset]
  refine ((hnew.append_left a).append_right b).trans ?_
  exact hwhole a b hold (beq_eq_false_of_index_ne hother)

variable [EquivBEq K]

theorem lookup_shard (k : K) :
    (h.sound_shard (s.index (hash k))).dict.lookup k = d.lookup k := by
  obtain ⟨a, b, hold, _, hother⟩ := h.exists_split (s.index (hash k))
  have hfar := beq_eq_false_of_index_ne hother
  have hd := d.distinct.perm isSameness_beq h.perm.symm
  rw [Dict.lookup, Dict.lookup, ← find_perm isSameness_beq hd h.perm, hold, find_frame hfar]
  rfl

theorem set (k : K) (v : V) :
    (s.set k v ()).answer = .ok () ∧ Represents (s.set k v ()).state (d.insert k v) := by
  have hs := h.sound_shard (s.index (hash k))
  obtain ⟨hans, hrep⟩ := hs.represents.set k v
  refine ⟨hans, h.exchange hrep.sound hrep.perm ?_ fun a b hold hfar => ?_⟩
  · exact forall_key_put (P := fun k' => s.index (hash k') = s.index (hash k))
      (h.placed_shard _) rfl v
  · refine (put_frame hfar v).symm.trans ?_
    show (put _ k v (a ++ (s.shard (s.index (hash k))).entries ++ b)).Perm _
    rw [← hold]
    exact put_perm h.perm

theorem delete (k : K) :
    (s.delete k ()).answer = (if d.contains k then .ok () else .error .notFound) ∧
      Represents (s.delete k ()).state (if d.contains k then d.erase k else d) := by
  have hs := h.sound_shard (s.index (hash k))
  obtain ⟨hans, hrep⟩ := hs.represents.delete k
  rw [h.contains_shard] at hans hrep
  refine ⟨hans, ?_⟩
  cases hd : d.contains k with
  | false =>
      rw [hd] at hrep
      refine h.exchange hrep.sound hrep.perm (h.placed_shard _) fun a b hold _ => ?_
      show (a ++ (s.shard (s.index (hash k))).entries ++ b).Perm _
      rw [← hold]
      exact h.perm
  | true =>
      rw [hd] at hrep
      refine h.exchange hrep.sound hrep.perm (fun e he => ?_) fun a b hold hfar => ?_
      · exact h.placed_shard _ e (List.mem_filter.mp he).1
      · show (a ++ remove _ k (s.shard (s.index (hash k))).entries ++ b).Perm _
        rw [← remove_frame hfar, ← hold]
        exact remove_perm h.perm

theorem apply (op : Store.Op K V) :
    (Store.apply s op ()).answer = (d.apply op).1 ∧
      Represents (Store.apply s op ()).state (d.apply op).2 := by
  cases op with
  | get k =>
      have hs := h.sound_shard (s.index (hash k))
      refine ⟨?_, h⟩
      show Store.Answer.value ((s.shard _).get k ()).1 = _
      rw [hs.represents.get, h.lookup_shard]
      rfl
  | set k v =>
      obtain ⟨hans, hrep⟩ := h.set k v
      exact ⟨congrArg Store.Answer.outcome hans, hrep⟩
  | delete k =>
      obtain ⟨hans, hrep⟩ := h.delete k
      rw [Dict.apply_delete]
      exact ⟨congrArg Store.Answer.outcome hans, hrep⟩
  | contains k =>
      have hs := h.sound_shard (s.index (hash k))
      refine ⟨?_, h⟩
      show Store.Answer.truth ((s.shard _).contains k ()).1 = _
      rw [hs.represents.contains, h.contains_shard, Dict.contains_eq_isSome_lookup]
      rfl
  | clear => exact ⟨rfl, h.clear⟩
  | size => exact ⟨congrArg Store.Answer.count h.size_eq, h⟩
  | isEmpty =>
      refine ⟨?_, h⟩
      show Store.Answer.truth s.isEmpty = _
      rw [isEmpty_eq, h.size_eq]
      rfl

end Represents

end lawful

/-- A sharded table answers operations as one finite map does.  Its entries are those of the map, and
each lies in the shard that its key is routed to, before the run and after it alike. -/
theorem run_create_routed [EquivBEq K] [LawfulHashable K] (shape : Shape) (plan : ShardPlan)
    (ops : List (Store.Op K V)) :
    let s := (create (shape.factory K V) plan).1
    let r := Store.run s () ops
    let d := Dict.empty.run ops
    r.answer = d.1 ∧ r.state.entries.Perm d.2.entries ∧
      (∀ i (hi : i < r.state.shards.size) (e : K × V), e ∈ r.state.shards[i].entries ↔
        e ∈ d.2.entries ∧ (r.state.index (hash e.1)).val = i) ∧
      ∀ u, (r.state.index u).val = (s.index u).val := by
  intro s r d
  have hstart : Represents s (Dict.empty : Dict K V) :=
    represents_create shape.factory_lawful plan
  have hrun : r.answer = d.1 ∧ Represents r.state d.2 :=
    Dict.run_of_apply (fun h op => h.apply op) hstart ops
  obtain ⟨hans, hrep⟩ := hrun
  refine ⟨hans, hrep.perm, fun i hi e => ?_, run_index s ops ()⟩
  rw [← hrep.perm.mem_iff]
  constructor
  · intro he
    exact ⟨List.mem_flatMap.mpr ⟨_, Array.getElem_mem_toList hi, he⟩, hrep.placed i hi e he⟩
  · rintro ⟨he, hindex⟩
    obtain ⟨t, ht, het⟩ := List.mem_flatMap.mp he
    obtain ⟨j, hj, rfl⟩ := List.getElem_of_mem ht
    have hj' : j < r.state.shards.size := by simpa using hj
    have hij : j = i := (hrep.placed j hj' e het).symm.trans hindex
    subst hij
    exact het

/-- Of four shards the one that three keys are routed to grows. -/
theorem run_create_routed_masked :
    let s := (create ((Shape.striped 2 .append).factory UInt64 Nat) ⟨3, 0, .mask⟩).1
    let ops : List (Store.Op UInt64 Nat) :=
      [.set 1 10, .set 5 50, .set 9 90, .set 2 20, .delete 5, .get 9, .size]
    let r := Store.run s () ops
    let live : List (UInt64 × Nat) := [(1, 10), (9, 90), (2, 20)]
    EquivBEq UInt64 ∧ LawfulHashable UInt64 ∧
      r.state.shards.toList.map Table.capacity = [1, 2, 1, 1] ∧
      (r.answer = [.outcome (.ok ()), .outcome (.ok ()), .outcome (.ok ()), .outcome (.ok ()),
          .outcome (.ok ()), .value (some 90), .count 3] ∧
        r.state.entries.Perm live ∧
        (∀ i (hi : i < r.state.shards.size) (e : UInt64 × Nat), e ∈ r.state.shards[i].entries ↔
          e ∈ live ∧ (r.state.index (hash e.1)).val = i) ∧
        ∀ u, (r.state.index u).val = (s.index u).val) := by
  intro s ops r live
  refine ⟨inferInstance, inferInstance, ?_, run_create_routed (.striped 2 .append) ⟨3, 0, .mask⟩ ops⟩
  decide +kernel

end ShardedTable
end HashStore
