import HashStore.Proofs.Overlap.Writes
import HashStore.Proofs.Sharded.Divided

/-! # Overlapping operations on a sharded table

Each shard has a lock of its own, so operations on different shards never wait for each other.  While
no call is refused, the operations on one shard go as they would on a table of its own: they are the
`Part` of the whole that concerns the shard, and they take their turns in the order in which the
schedule of the whole has them (`turns`).  A step of the whole is a step of the part whose turn it is
(`Part.takeTurn`) and nothing to all other parts (`Part.pass`), so the part of a run is a run of the
part (`Part.run`).

What holds of overlapping operations on one table thus holds of each shard: the balance of its count,
the bound of its load, the capacity that writes alone come to.  Tasks stay on the shard that their key
is routed to, so a sharded table is divided as before when nothing is under way (`divided_run`). -/

namespace HashStore

/-! ### The keys of one table -/

section keys

variable {β K V : Type} {P : K → Prop}

/-- Whether the key that a task still works with is among those of `P`. -/
def Task.Keyed (P : K → Prop) : Task K V → Prop
  | setting k _ | writing k _ | deleting k | erasing k => P k
  | _ => True

variable [BEq K] [Hashable K] [Bucket β K V] [LawfulBucket β K V]

/-- A step brings no key to a table but that of its task. -/
theorem Task.Advances.keyed {t t' : Table β} {locked : Bool} {task task' : Task K V}
    (h : Advances t locked task task' t') (hp : t.Placed) (ht : ∀ e ∈ t.entries, P e.1)
    (htask : task.Keyed P) : (∀ e ∈ t'.entries, P e.1) ∧ task'.Keyed P := by
  cases h with
  | begin | find => exact ⟨ht, htask⟩
  | add | owe | stay | miss | subtract => exact ⟨ht, trivial⟩
  | update k v | insert k v => exact ⟨(hp.wrote_stored k v).forall_key ht htask, trivial⟩
  | grow _ _ _ hd => exact ⟨fun e he => ht e (hd.perm.mem_iff.mp he), trivial⟩
  | late k | erase k =>
      refine ⟨fun e he => ?_, trivial⟩
      rw [hp.entries_erased] at he
      exact ht e (List.mem_filter.mp he).1
  | clear =>
      refine ⟨fun e he => ?_, trivial⟩
      rw [hp.entries_clear] at he
      cases he

namespace Overlap

/-- All keys are among those of `P`: those of the entries, and those of the tasks. -/
structure Keyed (P : K → Prop) (o : Overlap β K V Unit) : Prop extends o.Accounted where
  entries : ∀ e ∈ o.table.entries, P e.1
  tasks : ∀ task ∈ o.tasks, task.Keyed P

theorem Keyed.step [EquivBEq K] {o o' : Overlap β K V Unit} (h : o.Keyed P) {i : Nat}
    (hstep : o.step i = some o') : o'.Keyed P := by
  obtain ⟨task, task', htask, hsteps⟩ := exists_steps h.placed h.sound hstep
  obtain ⟨hentries, htask'⟩ :=
    hsteps.advances.keyed h.placed h.entries (h.tasks task (Array.mem_of_getElem? htask))
  exact ⟨h.toAccounted.step hstep, hentries, hsteps.forall_tasks h.tasks htask'⟩

theorem Keyed.run [EquivBEq K] {o : Overlap β K V Unit} (h : o.Keyed P) (schedule : List Nat) :
    (o.run schedule).Keyed P :=
  run_of_step (fun h hstep => h.step hstep) h schedule

end Overlap

end keys

namespace ShardedOverlap

/-! ### Turns -/

/-- The number that operation `i` has among those on shard `j`, if it is one of these.  The numbers of
the shards of all operations are `shards`. -/
def turn? (shards : List Nat) (j i : Nat) : Option Nat :=
  if shards[i]? = some j then some ((shards.take i).count j) else none

/-- The turns that a schedule gives to the operations on shard `j`. -/
def turns (shards : List Nat) (j : Nat) (schedule : List Nat) : List Nat :=
  schedule.filterMap (turn? shards j)

section tasks

variable {K V : Type} {j : Nat}

/-- A task, if it is on shard `j`. -/
def onShard? (j : Nat) (placed : Nat × Task K V) : Option (Task K V) :=
  if placed.1 = j then some placed.2 else none

theorem onShard?_own (task : Task K V) : onShard? j (j, task) = some task := if_pos rfl

theorem onShard?_other {i : Nat} (h : i ≠ j) (task : Task K V) : onShard? j (i, task) = none :=
  if_neg h

theorem length_filterMap_onShard? (l : List (Nat × Task K V)) :
    (l.filterMap (onShard? j)).length = (l.map Prod.fst).count j := by
  induction l with
  | nil => rfl
  | cons placed l ih =>
      obtain ⟨i, task⟩ := placed
      by_cases h : i = j
      · subst h
        rw [List.filterMap_cons_some (onShard?_own task), List.length_cons, ih, List.map_cons,
          List.count_cons_self]
      · rw [List.filterMap_cons_none (onShard?_other h task), ih, List.map_cons,
          List.count_cons_of_ne h]

variable {l : List (Nat × Task K V)} {i : Nat} {task : Task K V}

theorem getElem?_filterMap_own (h : l[i]? = some (j, task)) :
    (l.filterMap (onShard? j))[((l.map Prod.fst).take i).count j]? = some task := by
  obtain ⟨a, b, rfl, rfl, -⟩ := exists_split_of_getElem? h
  rw [← List.map_take, ← length_filterMap_onShard?, List.take_left, List.filterMap_append,
    List.filterMap_cons_some (onShard?_own task), List.getElem?_append_right (le_refl _),
    Nat.sub_self, List.getElem?_cons_zero]

theorem filterMap_set_own (h : l[i]? = some (j, task)) (task' : Task K V) :
    (l.set i (j, task')).filterMap (onShard? j) =
      (l.filterMap (onShard? j)).set (((l.map Prod.fst).take i).count j) task' := by
  obtain ⟨a, b, rfl, rfl, hset⟩ := exists_split_of_getElem? h
  rw [hset, ← List.map_take, ← length_filterMap_onShard?, List.take_left, List.filterMap_append,
    List.filterMap_append, List.filterMap_cons_some (onShard?_own task),
    List.filterMap_cons_some (onShard?_own task'), List.set_append_right _ _ (le_refl _),
    Nat.sub_self, List.set_cons_zero]

theorem filterMap_set_other {j' : Nat} (h : l[i]? = some (j', task)) (hne : j' ≠ j)
    (task' : Task K V) :
    (l.set i (j', task')).filterMap (onShard? j) = l.filterMap (onShard? j) := by
  obtain ⟨a, b, rfl, rfl, hset⟩ := exists_split_of_getElem? h
  rw [hset, List.filterMap_append, List.filterMap_append,
    List.filterMap_cons_none (onShard?_other hne task),
    List.filterMap_cons_none (onShard?_other hne task')]

end tasks

/-! ### The part of one shard -/

section part

variable {β K V : Type} {o o' : ShardedOverlap β K V Unit} {p : Overlap β K V Unit} {i j n : Nat}

/-- The numbers of the shards that the tasks are on. -/
def shardNumbers (o : ShardedOverlap β K V Unit) : List Nat := o.tasks.toList.map Prod.fst

theorem getElem?_shardNumbers {task : Task K V} (h : o.tasks[i]? = some (j, task)) :
    o.shardNumbers[i]? = some j := by
  rw [shardNumbers, List.getElem?_map, Array.getElem?_toList, h]
  rfl

theorem exists_of_turn? (h : turn? o.shardNumbers j i = some n) :
    n = (o.shardNumbers.take i).count j ∧ ∃ task, o.tasks[i]? = some (j, task) := by
  rw [turn?] at h
  split at h
  · rename_i hnumber
    rw [shardNumbers, List.getElem?_map, Array.getElem?_toList] at hnumber
    obtain ⟨⟨j', task⟩, htask, rfl⟩ := Option.map_eq_some_iff.mp hnumber
    exact ⟨(Option.some.inj h).symm, task, htask⟩
  · cases h

/-- The operations on shard `j`, as operations on a table of its own. -/
structure Part (o : ShardedOverlap β K V Unit) (j : Nat) (p : Overlap β K V Unit) : Prop where
  table : o.store.shards[j]? = some p.table
  tasks : p.tasks.toList = o.tasks.toList.filterMap (onShard? j)
  events : p.events.Sublist o.events

theorem Part.countP (h : o.Part j p) (owes : Task K V → Bool) :
    p.tasks.countP owes = o.tasks.countP fun placed => placed.1 == j && owes placed.2 := by
  rw [← Array.countP_toList, ← Array.countP_toList, h.tasks, List.countP_filterMap]
  refine List.countP_congr fun placed _ => ?_
  by_cases hj : placed.1 = j <;> simp [onShard?, hj]

theorem Part.locked_eq (h : o.Part j p) : o.locked j = p.locked := by
  rw [locked, Overlap.locked, ← Array.any_toList, ← Array.any_toList, h.tasks, List.any_filterMap]
  refine congrArg (List.any _) (funext fun placed => ?_)
  by_cases hj : placed.1 = j <;> simp [onShard?, hj]

variable [Hashable K] [Bucket β K V]

/-- A step advances a task and changes the shard that it is on. -/
theorem step_eq {task : Task K V} (htask : o.tasks[i]? = some (j, task))
    (hj : j < o.store.shards.size) :
    o.step i = (task.step (o.store.shard ⟨j, hj⟩) o.env (o.locked j)).map fun r =>
      ⟨o.store.withShard ⟨j, hj⟩ r.state, o.tasks.setIfInBounds i (j, r.answer), r.env,
        o.events ++ r.events⟩ := by
  rw [step, htask]
  show (if h : j < o.store.shards.size then _ else none) = _
  rw [dif_pos hj]
  exact Option.map_eq_bind.symm

theorem exists_of_step (h : o.step i = some o') :
    ∃ (j : Nat) (task : Task K V) (hj : j < o.store.shards.size)
      (r : Reply (Task K V) (Table β) Unit), o.tasks[i]? = some (j, task) ∧
      o' = ⟨o.store.withShard ⟨j, hj⟩ r.state, o.tasks.setIfInBounds i (j, r.answer), r.env,
        o.events ++ r.events⟩ := by
  obtain ⟨⟨j, task⟩, htask, hrest⟩ := Option.bind_eq_some_iff.mp h
  by_cases hj : j < o.store.shards.size
  · rw [step_eq htask hj] at h
    obtain ⟨r, -, rfl⟩ := Option.map_eq_some_iff.mp h
    exact ⟨j, task, hj, r, htask, rfl⟩
  · cases (dif_neg hj).symm.trans hrest

/-- A step leaves every task on its shard, and changes neither the routing nor the number of shards. -/
theorem step_keeps (h : o.step i = some o') : o'.shardNumbers = o.shardNumbers ∧
    o'.store.routing = o.store.routing ∧ o'.store.shards.size = o.store.shards.size := by
  obtain ⟨j, task, hj, r, htask, rfl⟩ := exists_of_step h
  obtain ⟨a, b, hold, -, hnew⟩ := exists_split_of_getElem? (Array.getElem?_toList.trans htask)
  refine ⟨?_, rfl, ShardedTable.size_withShard ..⟩
  rw [shardNumbers, shardNumbers, Array.toList_setIfInBounds, hnew, hold, List.map_append,
    List.map_append]
  rfl

theorem getD_step_keeps (o : ShardedOverlap β K V Unit) (i : Nat) :
    ((o.step i).getD o).shardNumbers = o.shardNumbers ∧
      ((o.step i).getD o).store.routing = o.store.routing ∧
      ((o.step i).getD o).store.shards.size = o.store.shards.size := by
  cases h : o.step i with
  | none => exact ⟨rfl, rfl, rfl⟩
  | some o' => exact step_keeps h

namespace Part

variable (h : o.Part j p)

include h

/-- An operation on another shard changes nothing of the part. -/
theorem pass (hturn : turn? o.shardNumbers j i = none) : ((o.step i).getD o).Part j p := by
  cases hstep : o.step i with
  | none => exact h
  | some o' =>
      obtain ⟨j', task, hj', r, htask, rfl⟩ := exists_of_step hstep
      have hne : j' ≠ j := by
        rintro rfl
        rw [turn?, if_pos (getElem?_shardNumbers htask)] at hturn
        cases hturn
      refine ⟨?_, ?_, h.events.trans (List.sublist_append_left ..)⟩
      · exact (Array.getElem?_set_ne hj' hne).trans h.table
      · show _ = (o.tasks.setIfInBounds i (j', r.answer)).toList.filterMap _
        rw [Array.toList_setIfInBounds, filterMap_set_other (Array.getElem?_toList.trans htask) hne]
        exact h.tasks

/-- An operation on the shard takes its turn in the part, and waits for the lock if it has to there. -/
theorem takeTurn (hturn : turn? o.shardNumbers j i = some n) :
    ((o.step i).getD o).Part j ((p.step n).getD p) := by
  obtain ⟨rfl, task, htask⟩ := exists_of_turn? hturn
  obtain ⟨hj, hshard⟩ := Array.getElem?_eq_some_iff.mp h.table
  have hown := Array.getElem?_toList.trans htask
  have htask' : p.tasks[(o.shardNumbers.take i).count j]? = some task := by
    rw [← Array.getElem?_toList, h.tasks]
    exact getElem?_filterMap_own hown
  have hpart : p.step ((o.shardNumbers.take i).count j) =
      (task.step p.table p.env p.locked).map fun r => ⟨r.state,
        p.tasks.setIfInBounds ((o.shardNumbers.take i).count j) r.answer, r.env,
        p.events ++ r.events⟩ := by
    rw [Overlap.step, htask']
    exact Option.map_eq_bind.symm
  have htable : o.store.shard ⟨j, hj⟩ = p.table := hshard
  rw [step_eq htask hj, htable, h.locked_eq, hpart]
  cases task.step p.table () p.locked with
  | none => exact h
  | some r =>
      refine ⟨Array.getElem?_set_self hj, ?_, h.events.append_right r.events⟩
      show (p.tasks.setIfInBounds _ r.answer).toList =
        (o.tasks.setIfInBounds i (j, r.answer)).toList.filterMap _
      rw [Array.toList_setIfInBounds, Array.toList_setIfInBounds, filterMap_set_own hown, h.tasks]
      rfl

/-- The part of a run is a run of the part. -/
theorem run (schedule : List Nat) :
    (o.run schedule).Part j (p.run (turns o.shardNumbers j schedule)) := by
  induction schedule generalizing o p with
  | nil => exact h
  | cons i schedule ih =>
      have hnumbers := (getD_step_keeps o i).1
      cases hturn : turn? o.shardNumbers j i with
      | none =>
          rw [turns, List.filterMap_cons_none hturn, ← hnumbers]
          exact ih (h.pass hturn)
      | some n =>
          rw [turns, List.filterMap_cons_some hturn, ← hnumbers]
          exact ih (h.takeTurn hturn)

end Part

/-- However operations overlap, keys are routed as before. -/
theorem index_run (o : ShardedOverlap β K V Unit) (schedule : List Nat) :
    (o.run schedule).store.shards.size = o.store.shards.size ∧
      ∀ u, ((o.run schedule).store.index u).val = (o.store.index u).val := by
  have hroutes : (o.run schedule).store.routing = o.store.routing ∧
      (o.run schedule).store.shards.size = o.store.shards.size := by
    induction schedule generalizing o with
    | nil => exact ⟨rfl, rfl⟩
    | cons i schedule ih =>
        obtain ⟨-, hrouting, hsize⟩ := getD_step_keeps o i
        obtain ⟨hrouting', hsize'⟩ := ih ((o.step i).getD o)
        exact ⟨hrouting'.trans hrouting, hsize'.trans hsize⟩
  refine ⟨hroutes.2, fun u => ?_⟩
  show (o.run schedule).store.routing.index _ u = o.store.routing.index _ u
  rw [hroutes.1, hroutes.2]

end part

/-! ### Calls on a sharded table -/

section start

variable {β K V : Type}

/-- A sharded table on which operations are about to begin, those that write or remove one key. -/
def start [Hashable K] (s : ShardedTable β) (calls : List (Store.Op K V)) :
    ShardedOverlap β K V Unit :=
  ⟨s, (calls.filterMap (place? s)).toArray, (), []⟩

/-- The calls that are carried out on shard `j`. -/
def callsTo [Hashable K] (s : ShardedTable β) (j : Nat) (calls : List (Store.Op K V)) :
    List (Store.Op K V) :=
  calls.filter fun op => (place? s op).any fun placed => placed.1 == j

def Idle (o : ShardedOverlap β K V Unit) : Prop := ∀ placed ∈ o.tasks, placed.2.underWay = false

/-- How many tasks on shard `j` owe something of a kind. -/
def owed (o : ShardedOverlap β K V Unit) (j : Nat) (owes : Task K V → Bool) : Nat :=
  o.tasks.countP fun placed => placed.1 == j && owes placed.2

theorem Part.forall_tasks {o : ShardedOverlap β K V Unit} {p : Overlap β K V Unit} {j : Nat}
    (h : o.Part j p) {Q : Task K V → Prop} (hall : ∀ placed ∈ o.tasks, Q placed.2) :
    ∀ task ∈ p.tasks, Q task := by
  intro task htask
  rw [← Array.mem_toList_iff, h.tasks, List.mem_filterMap] at htask
  obtain ⟨placed, hplaced, hown⟩ := htask
  rw [onShard?] at hown
  split at hown
  · obtain rfl := Option.some.inj hown
    exact hall placed (Array.mem_toList_iff.mp hplaced)
  · cases hown

variable [Hashable K] {s : ShardedTable β} {j : Nat} {t : Table β} (ht : s.shards[j]? = some t)
  (calls : List (Store.Op K V))

include ht

theorem part_start : (start s calls).Part j (Overlap.start t (callsTo s j calls)) := by
  refine ⟨ht, ?_, List.Sublist.refl _⟩
  rw [Overlap.start, start, List.toList_toArray, List.toList_toArray, callsTo, List.filterMap_filter,
    List.filterMap_filterMap]
  refine List.filterMap_congr fun op _ => ?_
  cases op <;> simp [place?, onShard?, Task.ofOp?]

/-- Among calls on a sharded table, those on one shard overlap as on a table of its own. -/
theorem run_start_part [Bucket β K V] (schedule : List Nat) :
    ((start s calls).run schedule).Part j ((Overlap.start t (callsTo s j calls)).run
      (turns (start s calls).shardNumbers j schedule)) :=
  (part_start ht calls).run schedule

example :
    let s := (ShardedTable.create (Shape.append.factory UInt64 Nat) ⟨2, 1, .modulo⟩).1
    let calls : List (Store.Op UInt64 Nat) := [.set 2 20, .set 1 10, .clear, .delete 4, .delete 3]
    callsTo s 1 calls = [.set 1 10, .delete 3] ∧
      turns (start s calls).shardNumbers 1 [3, 0, 1, 2, 3] = [1, 0, 1] := by
  decide +kernel

end start

/-! ### Shards -/

section lawful

variable {β K V : Type} [BEq K] [Hashable K] [Bucket β K V] [LawfulBucket β K V]
  {s : ShardedTable β}

/-- Calls on a shard bring no keys to it that are routed to another. -/
theorem keyed_start {t : Table β} {j : Nat} (hs : t.Sound)
    (ht : ∀ e ∈ t.entries, (s.index (hash e.1)).val = j) (calls : List (Store.Op K V)) :
    (Overlap.start t (callsTo s j calls)).Keyed fun k => (s.index (hash k)).val = j := by
  refine ⟨Overlap.accounted_start hs _, ht, fun task htask => ?_⟩
  rw [Overlap.start, List.mem_toArray, List.mem_filterMap] at htask
  obtain ⟨op, hop, htask⟩ := htask
  have hplaced := (List.mem_filter.mp hop).2
  cases op with
  | set k v | delete k =>
      cases htask
      exact eq_of_beq hplaced
  | _ => cases hplaced

variable (h : s.Divided) (calls : List (Store.Op K V)) (schedule : List Nat)

include h

/-- A shard on which operations overlap with those on other shards is the table of its part. -/
theorem exists_part {j : Nat} (hj : j < ((start s calls).run schedule).store.shards.size) :
    ∃ t, s.shards[j]? = some t ∧ t.Sound ∧ (∀ e ∈ t.entries, (s.index (hash e.1)).val = j) ∧
      let p := (Overlap.start t (callsTo s j calls)).run
        (turns (start s calls).shardNumbers j schedule)
      ((start s calls).run schedule).Part j p ∧
        ((start s calls).run schedule).store.shards[j] = p.table := by
  have hj' : j < s.shards.size := (index_run (start s calls) schedule).1 ▸ hj
  have ht : s.shards[j]? = some s.shards[j] := Array.getElem?_eq_getElem hj'
  have hpart := run_start_part ht calls schedule
  refine ⟨s.shards[j], ht, h.sound j hj', h.placed j hj', hpart, ?_⟩
  exact Option.some.inj ((Array.getElem?_eq_getElem hj).symm.trans hpart.table)

variable [EquivBEq K]

/-- At every moment the count of each shard and what is owed to it make up the number of its
entries. -/
theorem run_start_balance :
    let o := (start s calls).run schedule
    ∀ j (hj : j < o.store.shards.size),
      o.store.shards[j].count + o.owed j Task.owesInsertion - o.owed j Task.owesRemoval =
        o.store.shards[j].entries.length := by
  intro o j hj
  obtain ⟨t, -, hs, -, hpart, htable⟩ := exists_part h calls schedule hj
  have hp := (Overlap.accounted_start hs (callsTo s j calls)).run
    (turns (start s calls).shardNumbers j schedule)
  have hbalance := hp.balance
  rw [hpart.countP, hpart.countP, ← htable] at hbalance
  exact hbalance

/-- When nothing is under way, the shards are sound again, each with the keys that are routed to it, and
the size shown is the number of all entries. -/
theorem divided_run (hidle : ((start s calls).run schedule).Idle) :
    ((start s calls).run schedule).store.Divided ∧
      ((start s calls).run schedule).store.size =
        ((start s calls).run schedule).store.entries.length := by
  have hshard : ∀ j (hj : j < ((start s calls).run schedule).store.shards.size),
      ((start s calls).run schedule).store.shards[j].Sound ∧
        ∀ e ∈ ((start s calls).run schedule).store.shards[j].entries,
          (s.index (hash e.1)).val = j := by
    intro j hj
    obtain ⟨t, -, hs, hplaced, hpart, htable⟩ := exists_part h calls schedule hj
    have hp := (keyed_start hs hplaced calls).run (turns (start s calls).shardNumbers j schedule)
    have hdone : Overlap.Idle _ := hpart.forall_tasks hidle
    rw [htable]
    exact ⟨hp.sound hdone.locked_eq_false, hp.entries⟩
  refine ⟨⟨fun j hj => (hshard j hj).1, fun j hj e he => ?_⟩,
    ShardedTable.size_eq_length fun j hj => (hshard j hj).1⟩
  rw [(index_run (start s calls) schedule).2]
  exact (hshard j hj).2 e he

variable (hload : ∀ t ∈ s.shards, t.count ≤ 2 * t.capacity)

include hload

/-- What the count of a shard is too large by is never more than the number of growths that are owed to
it.  When nothing is under way, no shard counts too much. -/
theorem run_start_excess :
    let o := (start s calls).run schedule
    ∀ j (hj : j < o.store.shards.size),
      o.store.shards[j].count - 2 * o.store.shards[j].capacity ≤ o.owed j Task.owesGrowth ∧
        (o.Idle → o.store.shards[j].count ≤ 2 * o.store.shards[j].capacity) := by
  intro o j hj
  obtain ⟨t, ht, hs, -, hpart, htable⟩ := exists_part h calls schedule hj
  have hp := (Overlap.loaded_start hs (hload t (Array.mem_of_getElem? ht)) (callsTo s j calls)).run
    (turns (start s calls).shardNumbers j schedule)
  have hexcess := hp.excess_le
  rw [hpart.countP, ← htable] at hexcess
  refine ⟨hexcess, fun hidle => ?_⟩
  rw [htable]
  exact hp.load_of_idle (hpart.forall_tasks hidle)

omit calls in
/-- Writes that overlap leave each shard with the capacity to which they come one after another. -/
theorem run_start_capacities [LawfulHashable K] (writes : List (K × V)) :
    let calls := writes.map fun w => Store.Op.set w.1 w.2
    let o := (start s calls).run schedule
    (∀ placed ∈ o.tasks, placed.2.result?.isSome = true) → ∀ j (hj : j < o.store.shards.size),
      (Store.run s () calls).state.shards[j]?.map Table.capacity =
        some o.store.shards[j].capacity := by
  intro calls o hdone j hj
  obtain ⟨t, ht, hs, -, hpart, htable⟩ := exists_part h calls schedule hj
  let own := writes.filter fun w => (s.index (hash w.1)).val == j
  have hcalls : callsTo s j calls = own.map fun w => Store.Op.set w.1 w.2 := List.filter_map
  have hreached : calls.filter (s.reaches j) = own.map fun w => Store.Op.set w.1 w.2 :=
    List.filter_map
  have hown : ∀ task ∈ ((Overlap.start t (callsTo s j calls)).run
      (turns (start s calls).shardNumbers j schedule)).tasks, task.result?.isSome = true :=
    hpart.forall_tasks hdone
  rw [(ShardedTable.run_shard ht calls).1, htable, hreached, Option.map_some]
  rw [hcalls] at hown ⊢
  rw [Overlap.capacity_run_writes hs (hload t (Array.mem_of_getElem? ht)) own _ hown]

end lawful
end ShardedOverlap
end HashStore
