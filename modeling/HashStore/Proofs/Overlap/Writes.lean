import HashStore.Proofs.Overlap.Load

/-! # Overlapping writes

Writes that overlap come to the same capacity as writes one after another (`run_start_load`).  The
capacity is in both cases the initial one, doubled as often as the number of entries at the end
needs (`Table.Grown`), and the entries at the end are those of the same keys.

That overlapping writes do not double too often is because the count never falls under them: it
stays above what was too much for the capacity when it was doubled.  That they have the same keys is
because a key is at every moment either in the table or with a write that has yet to work in its
bucket. -/

namespace HashStore

open Entries Surroundings

/-! ### Writes one after another -/

namespace Table

variable {β K V : Type} [BEq K] [Hashable K] [Bucket β K V] [LawfulBucket β K V]

theorem Grown.capacity_unique {t t' : Table β} {c₀ most : Nat} (h : t.Grown c₀ most)
    (h' : t'.Grown c₀ most) : t.capacity = t'.capacity := by
  obtain ⟨j, hcap, hleast⟩ := h.doublings
  obtain ⟨j', hcap', hleast'⟩ := h'.doublings
  rw [hcap, hcap', hleast.unique hleast']

theorem Sound.grown {t : Table β} (h : t.Sound) (hload : t.count ≤ 2 * t.capacity) :
    t.Grown t.capacity t.entries.length := by
  have hcount := h.count_eq
  refine ⟨h, Nat.le_refl _, 0, (Nat.mul_one _).symm, ?_, fun _ _ => Nat.zero_le _⟩
  show t.entries.length ≤ 2 * (t.capacity * 1)
  omega

variable [EquivBEq K]

theorem Grown.run_writes {t : Table β} {c₀ : Nat} (h : t.Grown c₀ t.entries.length)
    (writes : List (K × V)) :
    let t' := (Store.run t () (writes.map fun w => Store.Op.set w.1 w.2)).state
    t'.Grown c₀ t'.entries.length := by
  induction writes generalizing t with
  | nil => exact h
  | cons w writes ih =>
      have hstep := h.apply (.set w.1 w.2)
      have hle : t.entries.length ≤
          (Store.apply t (Store.Op.set w.1 w.2) ()).state.entries.length :=
        (Nat.le_add_right ..).trans_eq (h.length_set w.1 w.2).symm
      rw [max_eq_right hle] at hstep
      exact ih hstep

variable [LawfulHashable K]

omit [EquivBEq K] in
theorem Placed.distinct_keys {t : Table β} (hp : t.Placed) : Distinct (· == ·) t.entries := by
  have hdistinct := hp.distinct
  rwa [meets_eq_beq] at hdistinct

theorem has_of_perm_put {place : UInt64 → List Nat} {l l' : List (K × V)} {k' : K} {v : V}
    (hperm : l'.Perm (put (meets place) k' v l)) (k : K) :
    has (· == ·) k l' = (has (· == ·) k l || k' == k) := by
  rw [meets_eq_beq] at hperm
  rw [has_perm hperm, has_put isSameness_beq]

theorem Sound.has_set {t : Table β} (h : t.Sound) (k k' : K) (v : V) :
    has (· == ·) k (t.set k' v ()).state.entries =
      (has (· == ·) k t.entries || k' == k) := by
  obtain ⟨-, hperm, -⟩ := h.set_accepted truthful_unit rfl (k := k') (v := v) fun _ _ _ => rfl
  exact has_of_perm_put hperm k

theorem Sound.has_run_writes {t : Table β} (h : t.Sound) (k : K) (writes : List (K × V)) :
    has (· == ·) k (Store.run t () (writes.map fun w => Store.Op.set w.1 w.2)).state.entries =
      (has (· == ·) k t.entries || writes.any fun w => w.1 == k) := by
  induction writes generalizing t with
  | nil => simp [Store.run]
  | cons w writes ih =>
      have hs := (h.set truthful_unit w.1 w.2).1
      refine (ih hs).trans ?_
      rw [h.has_set, List.any_cons, Bool.or_assoc]

end Table

/-! ### Steps of writes -/

namespace Task

section kinds

variable {K V : Type}

/-- Whether a task is a write or done. -/
def writes : Task K V → Bool
  | setting _ _ | writing _ _ | inserted | growing | finished _ => true
  | _ => false

/-- Whether a task is a write of a key that has yet to work in its bucket. -/
def awaits [BEq K] (k : K) : Task K V → Bool
  | setting k' _ | writing k' _ => k' == k
  | _ => false

theorem underWay_of_result? {task : Task K V} (h : task.result?.isSome = true) :
    task.underWay = false := by
  cases task <;> first | rfl | cases h

theorem awaits_of_result? [BEq K] (k : K) {task : Task K V} (h : task.result?.isSome = true) :
    task.awaits k = false := by
  cases task <;> first | rfl | cases h

end kinds

namespace Advances

variable {β K V : Type} [BEq K] [Hashable K] [Bucket β K V] [LawfulBucket β K V]
  {t t' : Table β} {locked : Bool} {task task' : Task K V}
  (h : Advances t locked task task' t') (hwrites : task.writes = true)

include h hwrites

theorem writes : task'.writes = true := by
  cases h <;> first | rfl | cases hwrites

/-- A write never takes from the count. -/
theorem count_le : t.count ≤ t'.count := by
  cases h with
  | begin | update | insert | stay => exact le_rfl
  | add | owe =>
      show t.count ≤ t.count + 1
      omega
  | grow _ hs _ hd => exact (hd.count_eq hs).ge
  | _ => cases hwrites

/-- If the count has been above the load of every capacity that has been doubled, it has after a step:
it is above that of a capacity that is doubled now, and it has not fallen below the earlier ones. -/
theorem doublings {c₀ : Nat} (hdoublings : ∃ j, t.capacity = c₀ * powerOfTwo j ∧
      ∀ i < j, (2 * (c₀ * powerOfTwo i) : Nat) < t.count) :
    ∃ j, t'.capacity = c₀ * powerOfTwo j ∧
      ∀ i < j, (2 * (c₀ * powerOfTwo i) : Nat) < t'.count := by
  obtain ⟨j, hcap, hdouble⟩ := hdoublings
  have hcount := h.count_le hwrites
  rcases h.capacity_cases with ⟨-, hover, hnext⟩ | ⟨-, hnext⟩
  · refine ⟨j + 1, ?_, fun i hi => ?_⟩
    · rw [hnext, hcap, powerOfTwo_succ, Nat.mul_left_comm]
    · rcases Nat.lt_or_eq_of_le (Nat.le_of_lt_succ hi) with hlt | rfl
      · exact lt_of_lt_of_le (hdouble i hlt) hcount
      · rw [← hcap]
        push_cast
        exact lt_of_lt_of_le hover hcount
  · exact ⟨j, hnext.trans hcap, fun i hi => lt_of_lt_of_le (hdouble i hi) hcount⟩

/-- A key comes to the table when the write of it leaves off waiting. -/
theorem has_or_awaits [EquivBEq K] [LawfulHashable K] (hp : t.Placed) (k : K) :
    (has (· == ·) k t'.entries || task'.awaits k) =
      (has (· == ·) k t.entries || task.awaits k) := by
  have hstored : ∀ k' v, has (· == ·) k (t.stored k' v).entries =
      (has (· == ·) k t.entries || k' == k) :=
    fun k' v => Table.has_of_perm_put (hp.wrote_stored k' v).perm_put k
  cases h with
  | begin | add | owe | stay => rfl
  | update k' v | insert k' v => simp only [hstored, awaits, Bool.or_false]
  | grow _ _ _ hd => simp only [has_perm hd.perm, awaits]
  | _ => cases hwrites

end Advances
end Task

namespace Overlap

variable {β K V : Type} [BEq K] [Hashable K] [Bucket β K V] [LawfulBucket β K V]

/-! ### Runs of writes -/

/-- All tasks are writes, the count has been above the load of every capacity that has been doubled,
and the keys that are in the table or on their way to it are `keys`. -/
structure Writing (o : Overlap β K V Unit) (c₀ : Nat) (keys : K → Bool) : Prop
    extends o.Loaded where
  writes : ∀ task ∈ o.tasks, task.writes = true
  doublings : ∃ j, o.table.capacity = c₀ * powerOfTwo j ∧
    ∀ i < j, (2 * (c₀ * powerOfTwo i) : Nat) < o.table.count
  keys_eq : ∀ k, (has (· == ·) k o.table.entries || o.tasks.any (Task.awaits k)) = keys k

namespace Writing

variable {o o' : Overlap β K V Unit} {c₀ : Nat} {keys : K → Bool} (h : o.Writing c₀ keys)

include h

theorem step [EquivBEq K] [LawfulHashable K] {i : Nat} (hstep : o.step i = some o') :
    o'.Writing c₀ keys := by
  obtain ⟨task, task', htask, hsteps⟩ := exists_steps h.placed h.sound hstep
  have hwrite : task.writes = true := h.writes task (Array.mem_of_getElem? htask)
  refine ⟨h.toLoaded.step hstep, hsteps.forall_tasks h.writes (hsteps.advances.writes hwrite),
    hsteps.advances.doublings hwrite h.doublings, fun k => ?_⟩
  have hkeys := h.keys_eq k
  have hone := hsteps.advances.has_or_awaits hwrite h.placed k
  obtain ⟨a, b, hold, hnew⟩ := hsteps.split
  rw [← Array.any_toList, hold] at hkeys
  rw [← Array.any_toList, hnew, ← hkeys, List.any_append, List.any_append, List.any_cons,
    List.any_cons, Bool.or_left_comm, ← Bool.or_assoc (has _ _ _), hone, Bool.or_assoc,
    Bool.or_left_comm]

theorem run [EquivBEq K] [LawfulHashable K] (schedule : List Nat) :
    (o.run schedule).Writing c₀ keys :=
  run_of_step (P := fun o => o.Writing c₀ keys) (fun h hstep => h.step hstep) h schedule

/-- When all writes are done, the table has been doubled as often as its entries need, and all keys
are there. -/
theorem grown_of_done (hdone : ∀ task ∈ o.tasks, task.result?.isSome = true) :
    o.table.Grown c₀ o.table.entries.length ∧
      ∀ k, has (· == ·) k o.table.entries = keys k := by
  have hidle : o.Idle := fun task htask => Task.underWay_of_result? (hdone task htask)
  have hs := h.sound hidle.locked_eq_false
  have hload := h.load_of_idle hidle
  have hcount := hs.count_eq
  obtain ⟨j, hcap, hdouble⟩ := h.doublings
  constructor
  · refine ⟨hs, Nat.le_refl _, j, hcap, ?_, fun i hi => ?_⟩
    · show _ ≤ 2 * (c₀ * powerOfTwo j)
      rw [← hcap]
      omega
    · by_contra hlt
      have hmore := hdouble i (by omega)
      have hi : o.table.entries.length ≤ 2 * (c₀ * powerOfTwo i) := hi
      omega
  · intro k
    have hnone : o.tasks.any (Task.awaits k) = false := by
      rw [Array.any_eq_false']
      intro task htask
      rw [Task.awaits_of_result? k (hdone task htask)]
      exact Bool.false_ne_true
    rw [← h.keys_eq k, hnone, Bool.or_false]

end Writing

theorem writing_start {t : Table β} (hs : t.Sound) (hload : t.count ≤ 2 * t.capacity)
    (writes : List (K × V)) :
    (start t (writes.map fun w => .set w.1 w.2)).Writing t.capacity fun k =>
      has (· == ·) k t.entries || writes.any fun w => w.1 == k := by
  have htasks : (start t (writes.map fun w => .set w.1 w.2)).tasks.toList =
      writes.map fun w => Task.setting w.1 w.2 := by
    rw [start, List.filterMap_map]
    exact congrFun (List.filterMap_eq_map (f := fun w : K × V => Task.setting w.1 w.2)) writes
  have hnone : ∀ i < 0, (2 * (t.capacity * powerOfTwo i) : Nat) < t.count :=
    fun _ hi => absurd hi (Nat.not_lt_zero _)
  refine ⟨loaded_start hs hload _, ?_, ⟨0, (Nat.mul_one _).symm, hnone⟩, ?_⟩
  · intro task htask
    rw [← Array.mem_toList_iff, htasks] at htask
    obtain ⟨w, -, rfl⟩ := List.mem_map.mp htask
    rfl
  · intro k
    rw [← Array.any_toList, htasks, List.any_map]
    rfl

/-- Writes that overlap come to the capacity to which they come one after another. -/
theorem capacity_run_writes [EquivBEq K] [LawfulHashable K] {t : Table β} (hs : t.Sound)
    (hload : t.count ≤ 2 * t.capacity) (writes : List (K × V)) (schedule : List Nat)
    (hdone : ∀ task ∈ ((start t (writes.map fun w => .set w.1 w.2)).run schedule).tasks,
      task.result?.isSome = true) :
    ((start t (writes.map fun w => .set w.1 w.2)).run schedule).table.capacity =
      (Store.run t () (writes.map fun w => Store.Op.set w.1 w.2)).state.capacity := by
  obtain ⟨hgrown, hkeys⟩ := ((writing_start hs hload writes).run schedule).grown_of_done hdone
  have hsingle := (hs.grown hload).run_writes writes
  have hlength := hgrown.distinct_keys.length_eq isSameness_beq hsingle.distinct_keys fun k =>
    (hkeys k).trans (hs.has_run_writes k writes).symm
  rw [hlength] at hgrown
  exact hgrown.capacity_unique hsingle

/-- While operations overlap and are not refused any call, what the count is too large by is never
more than the number of growths that are owed, and a step doubles the capacity only if it is one of
these and the count is too large when it is taken.  When nothing is under way the load is within its
bound.  Writes alone come to the capacity to which they come one after another. -/
theorem run_start_load [EquivBEq K] [LawfulHashable K] {σ : Type} [Access σ β K V] [Surroundings σ]
    [TruthfulAccess σ β K V] {factory : Factory β} (hf : factory.Lawful) :
    (∀ t : Table β, Reached Unit factory t → t.count ≤ 2 * t.capacity) ∧
      ∀ t : Table β, Reached σ factory t → t.count ≤ 2 * t.capacity →
        (∀ (calls : List (Store.Op K V)) (schedule : List Nat),
          let o := (start t calls).run schedule
          o.table.count - 2 * o.table.capacity ≤ o.tasks.countP Task.owesGrowth ∧
            (∀ i task o', o.tasks[i]? = some task → o.step i = some o' →
              task.owesGrowth = true ∧ 2 * o.table.capacity < o.table.count ∧
                  o'.table.capacity = 2 * o.table.capacity ∨
                ¬(task.owesGrowth = true ∧ 2 * o.table.capacity < o.table.count) ∧
                  o'.table.capacity = o.table.capacity) ∧
            (o.Idle → o.table.size ≤ 2 * o.table.capacity)) ∧
        ∀ (writes : List (K × V)) (schedule : List Nat),
          let calls := writes.map fun w => Store.Op.set w.1 w.2
          let o := (start t calls).run schedule
          (∀ task ∈ o.tasks, task.result?.isSome = true) →
            o.table.capacity = (Store.run t () calls).state.capacity := by
  refine ⟨fun t h => h.load hf, fun t h hload => ?_⟩
  have hs := h.sound hf
  refine ⟨fun calls schedule => ?_, fun writes schedule => ?_⟩
  · have ho := (loaded_start hs hload calls).run schedule
    exact ⟨ho.excess_le, fun _ _ _ htask hstep => ho.capacity_step htask hstep, ho.size_le_of_idle⟩
  · exact capacity_run_writes hs hload writes schedule

/-- Four keys come into a table of one bucket, and are counted before the first of three writes that
owe a growth pays it.  The last of the three finds that nothing is left to do. -/
theorem run_start_load_of_four_keys :
    let factory := (Shape.striped 2 .append).factory UInt64 Nat
    let faults : Faults := { Faults.none with onSet := fun i => if i = 0 then .refused else .done }
    let t := (Store.run (Table.create factory 1).1 faults [.set 9 90, .set 1 10]).state
    let writes : List (UInt64 × Nat) := [(2, 20), (3, 30), (4, 40), (5, 50), (1, 11)]
    let calls := writes.map fun w => Store.Op.set w.1 w.2
    let during := (start t calls).run [0, 0, 0, 1, 1, 1, 2, 2, 2, 3, 3, 3]
    let after := during.run [3, 2, 1, 4, 4]
    factory.Lawful ∧ EquivBEq UInt64 ∧ LawfulHashable UInt64 ∧ Reached Faults factory t ∧
      t.count ≤ 2 * t.capacity ∧ during.table.count = 5 ∧ during.table.capacity = 1 ∧
      during.tasks.countP Task.owesGrowth = 3 ∧
      after.tasks.all (fun task => task.result?.isSome) = true ∧ after.table.capacity = 4 ∧
      (∀ t : Table _, Reached Unit factory t → t.count ≤ 2 * t.capacity) ∧
      ∀ t : Table _, Reached Faults factory t → t.count ≤ 2 * t.capacity →
        (∀ (calls : List (Store.Op UInt64 Nat)) (schedule : List Nat),
          let o := (start t calls).run schedule
          o.table.count - 2 * o.table.capacity ≤ o.tasks.countP Task.owesGrowth ∧
            (∀ i task o', o.tasks[i]? = some task → o.step i = some o' →
              task.owesGrowth = true ∧ 2 * o.table.capacity < o.table.count ∧
                  o'.table.capacity = 2 * o.table.capacity ∨
                ¬(task.owesGrowth = true ∧ 2 * o.table.capacity < o.table.count) ∧
                  o'.table.capacity = o.table.capacity) ∧
            (o.Idle → o.table.size ≤ 2 * o.table.capacity)) ∧
        ∀ (writes : List (UInt64 × Nat)) (schedule : List Nat),
          let calls := writes.map fun w => Store.Op.set w.1 w.2
          let o := (start t calls).run schedule
          (∀ task ∈ o.tasks, task.result?.isSome = true) →
            o.table.capacity = (Store.run t () calls).state.capacity := by
  intro factory faults t writes calls during after
  have hf : factory.Lawful := Shape.factory_lawful _
  have ht : faults.Truthful := Faults.truthful_refusing _
  have hreached : Reached Faults factory t := .run (.create 1) ht _
  refine ⟨hf, inferInstance, inferInstance, hreached, ?_, ?_, ?_, ?_, ?_, ?_, run_start_load hf⟩
  all_goals decide +kernel

end Overlap
end HashStore
