import HashStore.Store

/-! # Operations in steps

Operations on one table may overlap.  Each of them is then a `Task` that advances in steps, under a
lock that is shared or exclusive.

* A write takes the lock as a sharer, works in the bucket of its key, and, if the bucket reports an
  insertion, adds one to the count and gives the lock back.  If the count was then too large it later
  takes the lock alone, looks at the count again, and lets the table grow.
* A removal takes the lock as a sharer and asks whether the key is there, works in the bucket, and, if
  the bucket reports that it was carried out, takes one from the count and gives the lock back.
* Emptying the table is one step that takes the lock alone.

A step that needs the lock alone is possible only while nobody shares it.  A task that is advanced on
its own does what the operation does undivided. -/

namespace HashStore

/-- An operation on a table, and how far it has come. -/
inductive Task (K V : Type) where
  /-- A write that has not begun. -/
  | setting (k : K) (v : V)
  /-- A write that is about to work in its bucket. -/
  | writing (k : K) (v : V)
  /-- A write whose insertion is not counted yet. -/
  | inserted
  /-- A write after which the table was too small. -/
  | growing
  /-- A removal that has not begun. -/
  | deleting (k : K)
  /-- A removal that is about to work in its bucket. -/
  | erasing (k : K)
  /-- A removal that is not counted yet. -/
  | erased
  /-- An emptying that has not begun. -/
  | clearing
  /-- An operation that is done. -/
  | finished (result : Except StoreError Unit)

namespace Task

/-- The task that carries out an operation, if it is one that changes the table. -/
def ofOp? {K V : Type} : Store.Op K V → Option (Task K V)
  | .set k v => some (.setting k v)
  | .delete k => some (.deleting k)
  | .clear => some .clearing
  | _ => none

/-- What a task has to answer, once it is done. -/
def result? {K V : Type} : Task K V → Option (Except StoreError Unit)
  | finished result => some result
  | _ => none

def sharesLock {K V : Type} : Task K V → Bool
  | writing _ _ | inserted | erasing _ | erased => true
  | _ => false

variable {σ β K V : Type} [Hashable K] [Access σ β K V]

/-- The next step of a task, if it is possible while the lock is shared by others (`locked`) or not.
The answer is the task after the step. -/
def step (t : Table β) (env : σ) (locked : Bool) :
    Task K V → Option (Reply (Task K V) (Table β) σ)
  | setting k v => some ⟨writing k v, t, env, []⟩
  | writing k v =>
    match t.write k v env with
    | (.error err, t, env) => some ⟨finished (.error err), t, env, []⟩
    | (.ok .updated, t, env) => some ⟨finished (.ok ()), t, env, []⟩
    | (.ok .inserted, t, env) => some ⟨inserted, t, env, []⟩
  | inserted =>
    let t := t.counting 1
    some ⟨if t.overloaded then growing else finished (.ok ()), t, env, []⟩
  | growing => if locked then none else some ((t.resize env).map finished)
  | deleting k =>
    match t.contains k env with
    | (false, env) => some ⟨finished (.error .notFound), t, env, []⟩
    | (true, env) => some ⟨erasing k, t, env, []⟩
  | erasing k =>
    match t.erase k env with
    | (.error err, t, env) => some ⟨finished (.error err), t, env, []⟩
    | (.ok false, t, env) => some ⟨finished (.error .notFound), t, env, []⟩
    | (.ok true, t, env) => some ⟨erased, t, env, []⟩
  | erased => some ⟨finished (.ok ()), t.counting (-1), env, []⟩
  | clearing =>
    if locked then none
    else
      let r := t.clear
      some ⟨finished (.ok ()), r.1, env, r.2⟩
  | finished _ => none

end Task

end HashStore
