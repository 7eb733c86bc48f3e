import HashStore.Proofs.Overlap.Count
import HashStore.Proofs.Table.Recovery

/-! # The load under overlapping operations

Any number of writes may have been counted before the first of them lets the table grow, so while
operations are under way the count can be far above the load that the capacity allows.  But each
write that has found it so still owes a growth, and what the count is too large by is never more
than the number of these (`Loaded`).  A growth that is owed either doubles the capacity, or finds
that others have done so and the load is within its bound again.  When nothing is under way nothing
is owed, and the load is within its bound. -/

namespace HashStore

open Entries Surroundings

variable {β K V : Type} [BEq K] [Hashable K] [Bucket β K V] [LawfulBucket β K V]

theorem Table.Doubles.count_eq {t t' : Table β} (hd : t.Doubles t') (hs : t.Sound) :
    t'.count = t.count := by
  rw [hd.sound.count_eq, hs.count_eq, hd.perm.length_eq]

namespace Task.Advances

variable {t t' : Table β} {locked : Bool} {task task' : Task K V}
  (h : Advances t locked task task' t')

include h

/-- A step doubles the capacity if it is the growth of a table that is overloaded, and no other step
changes it. -/
theorem capacity_cases :
    task.owesGrowth = true ∧ 2 * t.capacity < t.count ∧ t'.capacity = 2 * t.capacity ∨
      ¬(task.owesGrowth = true ∧ 2 * t.capacity < t.count) ∧ t'.capacity = t.capacity := by
  cases h with
  | grow _ _ hover hd => exact Or.inl ⟨rfl, Table.overloaded_iff.mp hover, hd.capacity⟩
  | stay _ _ hover =>
      have hload := Table.overloaded_eq_false_iff.mp hover
      exact Or.inr ⟨fun hboth => absurd hboth.2 (by omega), rfl⟩
  | _ => exact Or.inr ⟨fun hboth => Bool.false_ne_true hboth.1, rfl⟩

/-- If `n` other growths are owed and this is enough with what the task owes, it is enough with what
the task owes after its step. -/
theorem load (hp : t.Placed) {n : Nat}
    (hload : t.count ≤ 2 * t.capacity + n + task.owesGrowth.toNat) :
    t'.count ≤ 2 * t'.capacity + n + task'.owesGrowth.toNat := by
  have hpos := hp.capacity_pos
  cases h with
  | begin | update | insert | miss | find | late | erase => exact hload
  | add hover =>
      have hover := Table.overloaded_eq_false_iff.mp hover
      simp only [owesGrowth]
      omega
  | owe hover =>
      simp only [owesGrowth, Table.counting_count, Bool.toNat_true, Bool.toNat_false] at hload ⊢
      show _ ≤ 2 * (t.capacity : Int) + n + _
      omega
  | grow _ hs hover hd =>
      simp only [owesGrowth, Bool.toNat_true, Bool.toNat_false] at hload ⊢
      rw [hd.count_eq hs, hd.capacity]
      omega
  | stay _ _ hover =>
      have hover := Table.overloaded_eq_false_iff.mp hover
      simp only [owesGrowth]
      omega
  | subtract =>
      simp only [owesGrowth, Table.counting_count] at hload ⊢
      show _ ≤ 2 * (t.capacity : Int) + n + _
      omega
  | clear =>
      show (0 : Int) ≤ _
      omega

end Task.Advances

namespace Overlap

/-! ### Runs -/

/-- What the count is too large by is no more than the number of growths that are owed. -/
structure Loaded (o : Overlap β K V Unit) : Prop extends o.Accounted where
  load : o.table.count ≤ 2 * o.table.capacity + o.tasks.countP Task.owesGrowth

theorem loaded_start {t : Table β} (hs : t.Sound) (hload : t.count ≤ 2 * t.capacity)
    (calls : List (Store.Op K V)) : (start t calls).Loaded where
  toAccounted := accounted_start hs calls
  load := by
    show t.count ≤ 2 * t.capacity + _
    omega

namespace Loaded

variable {o o' : Overlap β K V Unit} (h : o.Loaded)

include h

theorem excess_le : o.table.count - 2 * o.table.capacity ≤ o.tasks.countP Task.owesGrowth := by
  have hload := h.load
  omega

/-- When nothing is under way the load is within its bound. -/
theorem load_of_idle (hidle : o.Idle) : o.table.count ≤ 2 * o.table.capacity := by
  have hnone : o.tasks.countP Task.owesGrowth = 0 :=
    countP_eq_zero Task.underWay_of_owesGrowth hidle
  have hload := h.load
  omega

theorem size_le_of_idle (hidle : o.Idle) : o.table.size ≤ 2 * o.table.capacity := by
  have hload := h.load_of_idle hidle
  unfold Table.size
  omega

variable [EquivBEq K]

theorem step {i : Nat} (hstep : o.step i = some o') : o'.Loaded := by
  obtain ⟨task, task', -, hsteps⟩ := exists_steps h.placed h.sound hstep
  obtain ⟨n, hgrow, hgrow'⟩ := hsteps.exists_countP Task.owesGrowth
  have hload := h.load
  rw [hgrow] at hload
  have hone := hsteps.advances.load h.placed (n := n) (by omega)
  refine ⟨h.toAccounted.step hstep, ?_⟩
  rw [hgrow']
  omega

theorem run (schedule : List Nat) : (o.run schedule).Loaded :=
  run_of_step (fun h hstep => h.step hstep) h schedule

theorem capacity_step {i : Nat} {task : Task K V} (htask : o.tasks[i]? = some task)
    (hstep : o.step i = some o') :
    task.owesGrowth = true ∧ 2 * o.table.capacity < o.table.count ∧
        o'.table.capacity = 2 * o.table.capacity ∨
      ¬(task.owesGrowth = true ∧ 2 * o.table.capacity < o.table.count) ∧
        o'.table.capacity = o.table.capacity := by
  obtain ⟨task, task', htask', hsteps⟩ := exists_steps h.placed h.sound hstep
  cases htask.symm.trans htask'
  exact hsteps.advances.capacity_cases

end Loaded

/-- Tables that have never been refused a call are loaded within the bound. -/
theorem Reached.load [EquivBEq K] {factory : Factory β} (hf : factory.Lawful) {t : Table β}
    (h : Reached Unit factory t) : t.count ≤ 2 * t.capacity := by
  induction h with
  | create requested =>
      show (0 : Int) ≤ _
      omega
  | run h _ ops ih => exact (h.sound hf).load_run ih ops
  | overlap h calls schedule hidle ih =>
      exact ((loaded_start (h.sound hf) ih calls).run schedule).load_of_idle hidle

end Overlap
end HashStore
