import HashStore.Proofs.Sharded.Product
import HashStore.Proofs.Table.Arrival

/-! # Shards in truthful surroundings

Whatever calls are refused, the shards of a sharded table stay sound and each keeps to the keys that
are routed to it (`Divided.run`).  Where equal keys have equal hashes, no two entries of different
shards then have equal keys, and the sharded table stands for a finite map (`Divided.represents`).
-/

namespace HashStore
namespace ShardedTable

open Entries Surroundings

variable {β K V : Type} [BEq K] [Hashable K] [Bucket β K V] [LawfulBucket β K V]

/-- Every shard is sound and holds only keys that are routed to it. -/
structure Divided (s : ShardedTable β) : Prop where
  sound : ∀ i (hi : i < s.shards.size), s.shards[i].Sound
  placed : ∀ i (hi : i < s.shards.size), ∀ e ∈ s.shards[i].entries,
    (s.index (hash e.1)).val = i

theorem divided_create {factory : Factory β} (hf : factory.Lawful) (plan : ShardPlan) :
    (create factory plan).1.Divided :=
  ⟨(represents_create hf plan).sound, (represents_create hf plan).placed⟩

namespace Divided

variable {s : ShardedTable β} (h : s.Divided)

include h

theorem distinct [LawfulHashable K] : Distinct (fun a b => a == b) s.entries := by
  have hshards : ∀ t ∈ s.shards.toList, Distinct (meets fun _ => []) t.entries := by
    intro t ht
    obtain ⟨i, hi, rfl⟩ := List.getElem_of_mem ht
    have hdistinct := (h.sound i (by simpa using hi)).distinct
    rwa [meets_eq_beq] at hdistinct ⊢
  have hwhole := distinct_flatMap (s.routing.index s.shards.size) hshards
    fun i hi => h.placed i (by simpa using hi)
  rwa [meets_eq_beq] at hwhole

def dict [LawfulHashable K] : Dict K V := ⟨s.entries, h.distinct⟩

theorem represents [LawfulHashable K] : Represents s h.dict :=
  ⟨h.sound, h.placed, List.Perm.refl _⟩

/-- Every run leaves the shards sound and each with its own keys: what was not there before comes with an
operation that is routed there. -/
theorem run [EquivBEq K] {σ : Type} [Access σ β K V] [Surroundings σ] [TruthfulAccess σ β K V]
    {env : σ} (ht : Truthful env) (ops : List (Store.Op K V)) :
    (Store.run s env ops).state.Divided ∧ Truthful (Store.run s env ops).env := by
  let P (i : Nat) (t : Table β) := t.Sound ∧ ∀ e ∈ t.entries, (s.index (hash e.1)).val = i
  have hstep : ∀ i t op (env : σ), s.reaches i op = true → P i t → Truthful env →
      P i (Store.apply t op env).state ∧ Truthful (Store.apply t op env).env := by
    rintro i t op env hop ⟨hsound, hplaced⟩ ht
    obtain ⟨hsound', ht'⟩ := hsound.apply ht op
    refine ⟨⟨hsound', fun e he => ?_⟩, ht'⟩
    rcases hsound.key_of_mem_apply ht op he with ⟨e', he', hkey⟩ | ⟨-, v, rfl⟩
    · rw [← hkey]
      exact hplaced e' he'
    · exact eq_of_beq hop
  have hstart : ∀ (i : Nat) t, s.shards[i]? = some t → P i t := by
    intro i t hget
    obtain ⟨hi, rfl⟩ := Array.getElem?_eq_some_iff.mp hget
    exact ⟨h.sound i hi, h.placed i hi⟩
  obtain ⟨hend, ht'⟩ := run_shards hstep hstart ht ops
  refine ⟨⟨fun i hi => (hend i _ (Array.getElem?_eq_getElem hi)).1, fun i hi e he => ?_⟩, ht'⟩
  rw [run_index]
  exact (hend i _ (Array.getElem?_eq_getElem hi)).2 e he

end Divided

end ShardedTable
end HashStore
