import HashStore.Proofs.Overlap.Step

/-! # The count under overlapping operations

The count of a table and its entries change in different steps of an operation, and in between other
operations take theirs.  At every moment the count and the entries differ by what is owed: by the
insertions that are not counted yet and the removals that are (`Accounted`).  Whoever owes something
shares the lock, so nothing is owed when a step takes the lock alone: a table that is emptied or
grows counts its entries, and so does a table on which nothing is under way.

Each step keeps the balance because it changes the entries and what is owed by as much, or the count
and what is owed (`Task.Advances.balance`). -/

namespace HashStore

open Entries Surroundings

variable {β K V : Type} [BEq K] [Hashable K] [Bucket β K V] [LawfulBucket β K V]

namespace Task.Advances

variable {t t' : Table β} {locked : Bool} {task task' : Task K V}
  (h : Advances t locked task task' t') (hp : t.Placed)

include h hp

theorem placed : t'.Placed := by
  cases h with
  | begin | stay | miss | find => exact hp
  | update k v | insert k v => exact hp.stored k v
  | add | owe | subtract => exact hp.counting _
  | grow _ _ _ hd => exact hd.sound.toPlaced
  | late k | erase k => exact hp.erased k
  | clear => exact hp.clear

/-- A step changes the entries or the count by as much as what the task owes. -/
theorem balance [EquivBEq K] :
    t'.count - t'.entries.length + task'.owesInsertion.toNat - task'.owesRemoval.toNat =
      t.count - t.entries.length + task.owesInsertion.toNat - task.owesRemoval.toNat := by
  have hstored : ∀ k v, (t.stored k v).entries.length = t.entries.length +
      (!has (meets (Table.place β t.capacity)) k t.entries).toNat := by
    intro k v
    rw [(hp.wrote_stored k v).perm_put.length_eq, length_put]
  have herased : ∀ k, (t.erased k).entries.length +
      (has (meets (Table.place β t.capacity)) k t.entries).toNat = t.entries.length := by
    intro k
    rw [hp.entries_erased, length_remove (isSameness_meets _) hp.distinct]
  cases h with
  | begin | stay | miss | find => rfl
  | update k v hk =>
      have hlen := hstored k v
      simp only [hk, Bool.not_true, Bool.toNat_false, Nat.add_zero] at hlen
      simp [owesInsertion, owesRemoval, hlen]
  | insert k v hk =>
      have hlen := hstored k v
      simp only [hk, Bool.not_false, Bool.toNat_true] at hlen
      simp only [owesInsertion, owesRemoval, Table.stored_count, hlen, Bool.toNat_true,
        Bool.toNat_false]
      omega
  | add | owe | subtract =>
      simp only [owesInsertion, owesRemoval, Table.counting_count, Table.counting_entries,
        Bool.toNat_true, Bool.toNat_false]
      omega
  | grow hlocked hs hover hd =>
      simp [owesInsertion, owesRemoval, hs.count_eq, hd.sound.count_eq]
  | late k hk =>
      have hlen := herased k
      simp only [hk, Bool.toNat_false, Nat.add_zero] at hlen
      simp [owesInsertion, owesRemoval, hlen]
  | erase k hk =>
      have hlen := herased k
      simp only [hk, Bool.toNat_true] at hlen
      simp only [owesInsertion, owesRemoval, Table.erased_count, ← hlen, Bool.toNat_true,
        Bool.toNat_false]
      omega
  | clear hlocked hs =>
      simp [owesInsertion, owesRemoval, hs.count_eq, hs.clear.count_eq]

end Task.Advances

namespace Overlap

/-! ### Runs -/

/-- Entries are in their places, and what is owed makes up for the difference between the count and
their number. -/
structure Accounted (o : Overlap β K V Unit) : Prop where
  placed : o.table.Placed
  balance : o.table.count + o.tasks.countP Task.owesInsertion - o.tasks.countP Task.owesRemoval =
    o.table.entries.length

/-- While nobody shares the lock, a table is as it is between operations. -/
theorem accounted_iff {o : Overlap β K V Unit} (hlocked : o.locked = false) :
    o.Accounted ↔ o.table.Sound := by
  have hshares := locked_eq_false_iff.mp hlocked
  have hins : o.tasks.countP Task.owesInsertion = 0 :=
    countP_eq_zero Task.sharesLock_of_owesInsertion hshares
  have hrem : o.tasks.countP Task.owesRemoval = 0 :=
    countP_eq_zero Task.sharesLock_of_owesRemoval hshares
  constructor
  · rintro ⟨hplaced, hbalance⟩
    exact ⟨hplaced, by omega⟩
  · intro hs
    have hcount := hs.count_eq
    exact ⟨hs.toPlaced, by omega⟩

theorem accounted_start {t : Table β} (hs : t.Sound) (calls : List (Store.Op K V)) :
    (start t calls).Accounted :=
  (accounted_iff (idle_start t calls).locked_eq_false).mpr hs

namespace Accounted

variable {o o' : Overlap β K V Unit} (h : o.Accounted)

include h

theorem sound (hlocked : o.locked = false) : o.table.Sound := (accounted_iff hlocked).mp h

variable [EquivBEq K]

theorem step {i : Nat} (hstep : o.step i = some o') : o'.Accounted := by
  obtain ⟨task, task', -, hsteps⟩ := exists_steps h.placed h.sound hstep
  obtain ⟨n, hins, hins'⟩ := hsteps.exists_countP Task.owesInsertion
  obtain ⟨m, hrem, hrem'⟩ := hsteps.exists_countP Task.owesRemoval
  have hone := hsteps.advances.balance h.placed
  have hall := h.balance
  refine ⟨hsteps.advances.placed h.placed, ?_⟩
  rw [hins, hrem] at hall
  rw [hins', hrem']
  omega

theorem run (schedule : List Nat) : (o.run schedule).Accounted :=
  run_of_step (fun h hstep => h.step hstep) h schedule

/-- A step that takes the lock alone finds the count right, and leaves it so. -/
theorem sound_of_needsLock {i : Nat} {task : Task K V} (htask : o.tasks[i]? = some task)
    (hneeds : task.needsLock = true) (hstep : o.step i = some o') :
    o.table.Sound ∧ o'.table.Sound := by
  obtain ⟨task, task', htask', hsteps⟩ := exists_steps h.placed h.sound hstep
  cases htask.symm.trans htask'
  have hadvances := hsteps.advances
  cases task with
  | growing =>
      generalize o'.table = t' at hadvances
      cases hadvances with
      | grow _ hs _ hd => exact ⟨hs, hd.sound⟩
      | stay _ hs => exact ⟨hs, hs⟩
  | clearing =>
      generalize o'.table = t' at hadvances
      cases hadvances with
      | clear _ hs => exact ⟨hs, hs.clear⟩
  | _ => cases hneeds

end Accounted

/-! ### Tables between operations -/

/-- The tables that can be there while no operation is under way: new ones, those behind a run of
operations one after another, and those behind operations that have overlapped and come to their
end. -/
inductive Reached (σ : Type) [Access σ β K V] [Surroundings σ] (factory : Factory β) :
    Table β → Prop
  | create (requested : Nat) : Reached σ factory (Table.create factory requested).1
  | run {t : Table β} {env : σ} (h : Reached σ factory t) (ht : Truthful env)
      (ops : List (Store.Op K V)) : Reached σ factory (Store.run t env ops).state
  | overlap {t : Table β} (h : Reached σ factory t) (calls : List (Store.Op K V))
      (schedule : List Nat) (hidle : ((start t calls).run schedule).Idle) :
      Reached σ factory ((start t calls).run schedule).table

section reached

variable [EquivBEq K] {σ : Type} [Access σ β K V] [Surroundings σ] [TruthfulAccess σ β K V]
  {factory : Factory β} (hf : factory.Lawful) {t : Table β} (h : Reached σ factory t)

include hf h

theorem Reached.sound : t.Sound := by
  induction h with
  | create requested => exact Table.sound_create hf requested
  | run _ ht ops ih => exact (ih.run ht ops).1
  | overlap _ calls schedule hidle ih =>
      exact ((accounted_start ih calls).run schedule).sound hidle.locked_eq_false

/-- At every moment of overlapping operations none of which is refused a call, the count and what is
owed make up the number of entries. -/
theorem run_start_count (calls : List (Store.Op K V)) (schedule : List Nat) :
    let o := (start t calls).run schedule
    o.table.count + o.tasks.countP Task.owesInsertion - o.tasks.countP Task.owesRemoval =
        o.table.entries.length ∧
      (∀ i task o', o.tasks[i]? = some task → task.needsLock = true → o.step i = some o' →
        o.table.count = o.table.entries.length ∧ o'.table.count = o'.table.entries.length) ∧
      (o.Idle → o.table.count = o.table.entries.length ∧
        o.table.size = o.table.entries.length) := by
  intro o
  have ho : o.Accounted := (accounted_start (Reached.sound hf h) calls).run schedule
  refine ⟨ho.balance, fun i task o' htask hneeds hstep => ?_, fun hidle => ?_⟩
  · obtain ⟨hs, hs'⟩ := ho.sound_of_needsLock htask hneeds hstep
    exact ⟨hs.count_eq, hs'.count_eq⟩
  · have hs := ho.sound hidle.locked_eq_false
    exact ⟨hs.count_eq, hs.size_eq⟩

end reached

/-- Two writes and a removal have worked in their buckets and changed no count yet.  When they have
done so, one of the writes is to let the table grow, and can do it before the table is emptied. -/
theorem run_start_count_of_five_calls :
    let factory := (Shape.striped 2 .append).factory UInt64 Nat
    let faults : Faults := { Faults.none with onSet := fun i => if i = 1 then .refused else .done }
    let t := (Store.run (Table.create factory 1).1 faults [.set 1 10, .set 5 50, .set 2 20]).state
    let calls : List (Store.Op UInt64 Nat) :=
      [.set 3 30, .delete 1, .set 4 40, .clear, .set 2 21]
    let during := (start t calls).run [0, 0, 1, 1, 2, 2]
    let after := during.run [1, 0, 2]
    factory.Lawful ∧ EquivBEq UInt64 ∧ Reached Faults factory t ∧
      during.table.count = 2 ∧ during.tasks.countP Task.owesInsertion = 2 ∧
      during.tasks.countP Task.owesRemoval = 1 ∧ during.table.entries.length = 3 ∧
      after.tasks.map Task.needsLock = #[false, false, true, true, false] ∧
      (after.step 2).isSome ∧
      ∀ schedule : List Nat,
        let o := (start t calls).run schedule
        o.table.count + o.tasks.countP Task.owesInsertion - o.tasks.countP Task.owesRemoval =
            o.table.entries.length ∧
          (∀ i task o', o.tasks[i]? = some task → task.needsLock = true → o.step i = some o' →
            o.table.count = o.table.entries.length ∧
              o'.table.count = o'.table.entries.length) ∧
          (o.Idle → o.table.count = o.table.entries.length ∧
            o.table.size = o.table.entries.length) := by
  intro factory faults t calls during after
  have hf : factory.Lawful := Shape.factory_lawful _
  have ht : faults.Truthful := Faults.truthful_refusing _
  have hreached : Reached Faults factory t := .run (.create 1) ht _
  refine ⟨hf, inferInstance, hreached, ?_, ?_, ?_, ?_, ?_, ?_, run_start_count hf hreached calls⟩
  all_goals decide +kernel

end Overlap
end HashStore
