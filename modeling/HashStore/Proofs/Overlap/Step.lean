import HashStore.Overlap.Basic
import HashStore.Proofs.Table.Update

/-! # Steps of overlapping operations

`Task.Advances` says what a single step can do, case by case, while no call is refused: to the
operation that takes it, and to the table.  A step that needs the lock alone finds the table as it
is between operations, and every other step finds it at least with its entries in their places.

`Overlap.Steps` puts such a step among the other operations, which stay as they are. -/

namespace HashStore

open Entries

namespace Task

section kinds

variable {K V : Type}

/-- Whether a task has inserted an entry that is not counted yet. -/
def owesInsertion : Task K V → Bool
  | inserted => true
  | _ => false

/-- Whether a task has removed an entry that is still counted. -/
def owesRemoval : Task K V → Bool
  | erased => true
  | _ => false

/-- Whether a task has yet to let the table grow. -/
def owesGrowth : Task K V → Bool
  | growing => true
  | _ => false

/-- Whether a task takes its next step with the lock alone. -/
def needsLock : Task K V → Bool
  | growing | clearing => true
  | _ => false

/-- Whether a task has begun and is not done. -/
def underWay : Task K V → Bool
  | writing _ _ | inserted | growing | erasing _ | erased => true
  | _ => false

theorem underWay_of_sharesLock {task : Task K V} (h : task.sharesLock = true) :
    task.underWay = true := by
  cases task <;> first | rfl | cases h

theorem sharesLock_of_owesInsertion {task : Task K V} (h : task.owesInsertion = true) :
    task.sharesLock = true := by
  cases task <;> first | rfl | cases h

theorem sharesLock_of_owesRemoval {task : Task K V} (h : task.owesRemoval = true) :
    task.sharesLock = true := by
  cases task <;> first | rfl | cases h

theorem underWay_of_owesGrowth {task : Task K V} (h : task.owesGrowth = true) :
    task.underWay = true := by
  cases task <;> first | rfl | cases h

theorem underWay_of_ofOp? {op : Store.Op K V} {task : Task K V} (h : ofOp? op = some task) :
    task.underWay = false := by
  cases op <;> cases h <;> rfl

end kinds

variable {β K V : Type} [BEq K] [Hashable K] [Bucket β K V] [LawfulBucket β K V]

/-- What a step of a task does: the task before it and after it, and the table after it. -/
inductive Advances (t : Table β) (locked : Bool) : Task K V → Task K V → Table β → Prop
  | begin (k : K) (v : V) : Advances t locked (setting k v) (writing k v) t
  | update (k : K) (v : V) (hk : has (meets (Table.place β t.capacity)) k t.entries = true) :
      Advances t locked (writing k v) (finished (.ok ())) (t.stored k v)
  | insert (k : K) (v : V) (hk : has (meets (Table.place β t.capacity)) k t.entries = false) :
      Advances t locked (writing k v) inserted (t.stored k v)
  | add (hover : (t.counting 1).overloaded = false) :
      Advances t locked inserted (finished (.ok ())) (t.counting 1)
  | owe (hover : (t.counting 1).overloaded = true) :
      Advances t locked inserted growing (t.counting 1)
  | grow {t' : Table β} (hlocked : locked = false) (hs : t.Sound) (hover : t.overloaded = true)
      (hd : t.Doubles t') : Advances t locked growing (finished (.ok ())) t'
  | stay (hlocked : locked = false) (hs : t.Sound) (hover : t.overloaded = false) :
      Advances t locked growing (finished (.ok ())) t
  | miss (k : K) : Advances t locked (deleting k) (finished (.error .notFound)) t
  | find (k : K) : Advances t locked (deleting k) (erasing k) t
  | late (k : K) (hk : has (meets (Table.place β t.capacity)) k t.entries = false) :
      Advances t locked (erasing k) (finished (.error .notFound)) (t.erased k)
  | erase (k : K) (hk : has (meets (Table.place β t.capacity)) k t.entries = true) :
      Advances t locked (erasing k) erased (t.erased k)
  | subtract : Advances t locked erased (finished (.ok ())) (t.counting (-1))
  | clear (hlocked : locked = false) (hs : t.Sound) :
      Advances t locked clearing (finished (.ok ())) t.clear.1

/-- These are all the steps of a task. -/
theorem advances_of_step [EquivBEq K] {t : Table β} {locked : Bool} (hp : t.Placed)
    (hs : locked = false → t.Sound) {task : Task K V}
    {r : Reply (Task K V) (Table β) Unit} (h : task.step t () locked = some r) :
    Advances t locked task r.answer r.state := by
  cases task with
  | setting k v =>
      cases h
      exact .begin k v
  | writing k v =>
      rw [step, Table.write_allowed truthful_unit rfl] at h
      have hreport := hp.report_eq k v
      cases hk : has (meets (Table.place β t.capacity)) k t.entries with
      | true =>
          rw [hk, if_pos rfl] at hreport
          rw [hreport] at h
          cases h
          exact .update k v hk
      | false =>
          rw [hk, if_neg Bool.false_ne_true] at hreport
          rw [hreport] at h
          cases h
          exact .insert k v hk
  | inserted =>
      cases h
      cases hover : (t.counting 1).overloaded with
      | true =>
          rw [if_pos rfl]
          exact .owe hover
      | false =>
          rw [if_neg Bool.false_ne_true]
          exact .add hover
  | growing =>
      cases locked with
      | true => cases h
      | false =>
          have hs := hs rfl
          cases hover : t.overloaded with
          | true =>
              obtain ⟨t', heq, hd, -⟩ := hs.rehash_allowed truthful_unit fun _ _ => rfl
              rw [step, Table.resize, hover, if_pos rfl, heq] at h
              cases h
              exact .grow rfl hs hover hd
          | false =>
              rw [step, Table.resize, hover] at h
              cases h
              exact .stay rfl hs hover
  | deleting k =>
      rw [step, hp.contains_eq truthful_unit] at h
      cases hk : has (meets (Table.place β t.capacity)) k t.entries with
      | true =>
          rw [hk] at h
          cases h
          exact .find k
      | false =>
          rw [hk] at h
          cases h
          exact .miss k
  | erasing k =>
      rw [step, hp.erase_allowed truthful_unit rfl] at h
      cases hk : has (meets (Table.place β t.capacity)) k t.entries with
      | true =>
          rw [hk] at h
          cases h
          exact .erase k hk
      | false =>
          rw [hk] at h
          cases h
          exact .late k hk
  | erased =>
      cases h
      exact .subtract
  | clearing =>
      cases locked with
      | true => cases h
      | false =>
          cases h
          exact .clear rfl (hs rfl)
  | finished result => cases h

end Task

/-- A list with one of its members brought out, and with others in its place. -/
theorem exists_split_of_getElem? {α : Type} {l : List α} {i : Nat} {x : α} (h : l[i]? = some x) :
    ∃ a b, l = a ++ x :: b ∧ a.length = i ∧ ∀ y, l.set i y = a ++ y :: b := by
  obtain ⟨hi, rfl⟩ := List.getElem?_eq_some_iff.mp h
  refine ⟨l.take i, l.drop (i + 1), ?_, List.length_take_of_le hi.le, fun y => ?_⟩
  · rw [← List.drop_eq_getElem_cons hi, List.take_append_drop]
  · rw [List.set_eq_take_append_cons_drop, if_pos hi]

namespace Overlap

section start

variable {β K V : Type}

/-- A table on which operations are about to begin, those that change it. -/
def start (t : Table β) (calls : List (Store.Op K V)) : Overlap β K V Unit :=
  ⟨t, (calls.filterMap Task.ofOp?).toArray, (), []⟩

/-- Whether no operation has begun that is not done. -/
def Idle (o : Overlap β K V Unit) : Prop := ∀ task ∈ o.tasks, task.underWay = false

theorem idle_start (t : Table β) (calls : List (Store.Op K V)) : (start t calls).Idle := by
  intro task htask
  rw [start, List.mem_toArray, List.mem_filterMap] at htask
  obtain ⟨op, -, hop⟩ := htask
  exact Task.underWay_of_ofOp? hop

/-- Nothing is owed if whoever owes it is of a kind that there is not. -/
theorem countP_eq_zero {o : Overlap β K V Unit} {p q : Task K V → Bool}
    (hle : ∀ {task : Task K V}, p task = true → q task = true)
    (h : ∀ task ∈ o.tasks, q task = false) : o.tasks.countP p = 0 := by
  rw [Array.countP_eq_zero]
  intro task htask hp
  have hq := hle hp
  rw [h task htask] at hq
  cases hq

theorem locked_eq_false_iff {o : Overlap β K V Unit} :
    o.locked = false ↔ ∀ task ∈ o.tasks, task.sharesLock = false := by
  unfold locked
  simp only [Array.any_eq_false', Bool.not_eq_true]

theorem Idle.locked_eq_false {o : Overlap β K V Unit} (h : o.Idle) : o.locked = false := by
  rw [locked_eq_false_iff]
  intro task htask
  rw [← Bool.not_eq_true]
  intro hshares
  have hway := Task.underWay_of_sharesLock hshares
  rw [h task htask] at hway
  cases hway

end start

variable {β K V : Type} [BEq K] [Hashable K] [Bucket β K V] [LawfulBucket β K V]

/-- A step of one task among the others. -/
structure Steps (o o' : Overlap β K V Unit) (task task' : Task K V) : Prop where
  advances : Task.Advances o.table o.locked task task' o'.table
  split : ∃ a b, o.tasks.toList = a ++ task :: b ∧ o'.tasks.toList = a ++ task' :: b

theorem exists_steps [EquivBEq K] {o o' : Overlap β K V Unit} {i : Nat} (hp : o.table.Placed)
    (hs : o.locked = false → o.table.Sound) (h : o.step i = some o') :
    ∃ task task', o.tasks[i]? = some task ∧ o.Steps o' task task' := by
  obtain ⟨task, htask, h⟩ := Option.bind_eq_some_iff.mp h
  obtain ⟨r, hr, h⟩ := Option.bind_eq_some_iff.mp h
  cases h
  obtain ⟨a, b, hold, -, hnew⟩ := exists_split_of_getElem? (Array.getElem?_toList.trans htask)
  refine ⟨task, r.answer, htask, Task.advances_of_step hp hs hr, a, b, hold, ?_⟩
  rw [Array.toList_setIfInBounds, hnew]

/-- What holds of all tasks and of the one after its step holds of all tasks after the step. -/
theorem Steps.forall_tasks {o o' : Overlap β K V Unit} {task task' : Task K V} {Q : Task K V → Prop}
    (h : o.Steps o' task task') (hall : ∀ task ∈ o.tasks, Q task) (htask' : Q task') :
    ∀ task ∈ o'.tasks, Q task := by
  obtain ⟨a, b, hold, hnew⟩ := h.split
  intro other hother
  rw [← Array.mem_toList_iff, hnew, List.mem_append, List.mem_cons] at hother
  have hothers : ∀ other ∈ a ++ task :: b, Q other := by
    intro other hother
    rw [← hold, Array.mem_toList_iff] at hother
    exact hall other hother
  rcases hother with hother | rfl | hother
  · exact hothers other (by simp [hother])
  · exact htask'
  · exact hothers other (by simp [hother])

/-- What is owed by all tasks changes by what the one task owes. -/
theorem Steps.exists_countP {o o' : Overlap β K V Unit} {task task' : Task K V}
    (h : o.Steps o' task task') (p : Task K V → Bool) :
    ∃ n, o.tasks.countP p = n + (p task).toNat ∧ o'.tasks.countP p = n + (p task').toNat := by
  obtain ⟨a, b, hold, hnew⟩ := h.split
  refine ⟨a.countP p + b.countP p, ?_, ?_⟩
  · rw [← Array.countP_toList, hold, List.countP_append, List.countP_cons,
      ← Nat.add_assoc]
    cases p task <;> rfl
  · rw [← Array.countP_toList, hnew, List.countP_append, List.countP_cons,
      ← Nat.add_assoc]
    cases p task' <;> rfl

/-- What every step keeps holds after every schedule. -/
theorem run_of_step {σ β K V : Type} [Hashable K] [Access σ β K V] {P : Overlap β K V σ → Prop}
    (hstep : ∀ {o o' i}, P o → o.step i = some o' → P o') {o : Overlap β K V σ} (h : P o)
    (schedule : List Nat) : P (o.run schedule) := by
  induction schedule generalizing o with
  | nil => exact h
  | cons i schedule ih =>
      have hnext : P ((o.step i).getD o) := by
        cases ho' : o.step i with
        | none => exact h
        | some o' => exact hstep h ho'
      exact ih hnext

end Overlap
end HashStore
