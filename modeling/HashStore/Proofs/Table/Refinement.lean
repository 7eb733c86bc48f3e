import HashStore.Proofs.Bucket.Striped
import HashStore.Proofs.Dict
import HashStore.Proofs.Table.Update

/-! # A table is a finite map

Where equal keys have equal hashes and no call is refused, a table answers every sequence of operations
as a finite map does, whatever its buckets and however often it has grown.  `Represents` ties a table to
the finite map it stands for: it is sound and has the same entries, in an order of its own.  Each
operation preserves that (`Represents.apply`), hence so does a run. -/

namespace HashStore
namespace Table

open Entries Surroundings

variable {β K V : Type} [BEq K] [Hashable K]

section lawful

variable [Bucket β K V] [LawfulBucket β K V]

/-- The finite map that a table stands for. -/
def Sound.dict [LawfulHashable K] {t : Table β} (h : t.Sound) : Dict K V where
  entries := t.entries
  distinct := by
    rw [← meets_eq_beq (place β t.capacity)]
    exact h.distinct

/-- A table stands for a finite map. -/
structure Represents (t : Table β) (d : Dict K V) : Prop where
  sound : t.Sound
  perm : t.entries.Perm d.entries

theorem Sound.represents [LawfulHashable K] {t : Table β} (h : t.Sound) : Represents t h.dict :=
  ⟨h, List.Perm.refl _⟩

namespace Represents

variable {t : Table β} {d : Dict K V} (h : Represents t d)

include h

theorem size_eq : t.size = d.size := by
  rw [h.sound.size_eq, h.perm.length_eq]
  rfl

variable [LawfulHashable K]

theorem has_eq (k : K) : has (meets (place β t.capacity)) k t.entries = d.contains k := by
  rw [meets_eq_beq, has_perm h.perm]
  rfl

theorem contains (k : K) : (t.contains k ()).1 = d.contains k := by
  rw [h.sound.contains_eq truthful_unit, h.has_eq]

variable [EquivBEq K]

theorem get (k : K) : (t.get k ()).1 = d.lookup k := by
  have hd := d.distinct.perm isSameness_beq h.perm.symm
  rw [h.sound.get_eq truthful_unit, meets_eq_beq, find_perm isSameness_beq hd h.perm]
  rfl

theorem set (k : K) (v : V) :
    (t.set k v ()).answer = .ok () ∧ Represents (t.set k v ()).state (d.insert k v) := by
  obtain ⟨hans, hperm, _⟩ :=
    h.sound.set_accepted truthful_unit rfl (k := k) (v := v) fun _ _ _ => rfl
  refine ⟨hans, (h.sound.set truthful_unit k v).1, ?_⟩
  rw [meets_eq_beq] at hperm
  exact hperm.trans (put_perm h.perm)

theorem delete (k : K) :
    (t.delete k ()).answer = (if d.contains k then .ok () else .error .notFound) ∧
      Represents (t.delete k ()).state (if d.contains k then d.erase k else d) := by
  have hk := h.has_eq k
  cases hd : d.contains k with
  | false =>
      rw [hd] at hk
      rw [h.sound.delete_absent truthful_unit hk]
      exact ⟨rfl, h⟩
  | true =>
      rw [hd] at hk
      rw [h.sound.delete_allowed truthful_unit hk rfl]
      refine ⟨rfl, h.sound.erased hk, ?_⟩
      rw [counting_entries, h.sound.entries_erased, meets_eq_beq]
      exact remove_perm h.perm

theorem apply (op : Store.Op K V) :
    (Store.apply t op ()).answer = (d.apply op).1 ∧
      Represents (Store.apply t op ()).state (d.apply op).2 := by
  cases op with
  | get k => exact ⟨congrArg Store.Answer.value (h.get k), h⟩
  | set k v =>
      obtain ⟨hans, hrep⟩ := h.set k v
      exact ⟨congrArg Store.Answer.outcome hans, hrep⟩
  | delete k =>
      obtain ⟨hans, hrep⟩ := h.delete k
      rw [Dict.apply_delete]
      exact ⟨congrArg Store.Answer.outcome hans, hrep⟩
  | contains k =>
      refine ⟨?_, h⟩
      show Store.Answer.truth (t.contains k ()).1 = _
      rw [h.contains, Dict.contains_eq_isSome_lookup]
      rfl
  | clear =>
      refine ⟨rfl, h.sound.clear, ?_⟩
      show t.clear.1.entries.Perm []
      rw [h.sound.entries_clear]
  | size => exact ⟨congrArg Store.Answer.count h.size_eq, h⟩
  | isEmpty =>
      refine ⟨?_, h⟩
      show Store.Answer.truth (t.size == 0) = _
      rw [h.size_eq]
      rfl

end Represents

end lawful

/-- A table answers operations as a finite map does and ends with the same entries, and the entry of
each key is the one that the history of operations leaves for it. -/
theorem run_create_eq_dict [EquivBEq K] [LawfulHashable K] (shape : Shape) (requested : Nat)
    (ops : List (Store.Op K V)) :
    let r := Store.run (create (shape.factory K V) requested).1 () ops
    let d := Dict.empty.run ops
    r.answer = d.1 ∧ r.state.entries.Perm d.2.entries ∧
      ∀ k, r.state.entries.find? (fun e => e.1 == k) = Dict.latest k ops := by
  intro r d
  have hf : (shape.factory K V).Lawful := shape.factory_lawful
  have hstart : Represents (create (shape.factory K V) requested).1 (Dict.empty : Dict K V) :=
    ⟨sound_create hf requested, by rw [entries_create hf]; rfl⟩
  obtain ⟨hans, hrep⟩ := Dict.run_of_apply (fun h op => h.apply op) hstart ops
  refine ⟨hans, hrep.perm, fun k => ?_⟩
  have hperm : r.state.entries.Perm d.2.entries := hrep.perm
  have hfind := find_perm isSameness_beq (d.2.distinct.perm isSameness_beq hperm.symm) hperm
    (k := k)
  exact hfind.trans (Dict.find_run Dict.empty k ops)

/-- A third new key makes one bucket two, and no answer shows it. -/
theorem run_create_three_keys :
    EquivBEq UInt64 ∧ LawfulHashable UInt64 ∧
      let ops : List (Store.Op UInt64 Nat) :=
        [.set 1 10, .set 2 20, .set 1 11, .set 3 30, .delete 2, .get 1, .contains 2, .size]
      let r := Store.run (create ((Shape.striped 2 .append).factory UInt64 Nat) 0).1 () ops
      r.state.capacity = 2 ∧
        r.answer = [.outcome (.ok ()), .outcome (.ok ()), .outcome (.ok ()), .outcome (.ok ()),
          .outcome (.ok ()), .value (some 11), .truth false, .count 2] ∧
        r.state.entries.Perm [(1, 11), (3, 30)] ∧
        ∀ k, r.state.entries.find? (fun e => e.1 == k) = Dict.latest k ops :=
  ⟨inferInstance, inferInstance, by rfl, run_create_eq_dict (.striped 2 .append) 0
    [.set 1 10, .set 2 20, .set 1 11, .set 3 30, .delete 2, .get 1, .contains 2, .size]⟩

end Table
end HashStore
