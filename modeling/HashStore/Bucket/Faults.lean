import HashStore.Bucket.Access

/-! # Faulty buckets

Surroundings in which calls to buckets go wrong on purpose.  `Faults` settles for each write and
each removal, by its number since the faults were set, whether the bucket carries it out, refuses it
without doing anything, or reports something else than what it did. -/

namespace HashStore

/-- What becomes of a write. -/
inductive SetFate where
  /-- It is carried out. -/
  | done
  /-- It fails and has no effect. -/
  | refused
  /-- It is carried out and reported as `how`. -/
  | reported (how : Written)
deriving DecidableEq

/-- What becomes of a removal. -/
inductive DeleteFate where
  /-- It is carried out. -/
  | done
  /-- It fails and has no effect. -/
  | refused
  /-- It has no effect and the key is reported absent. -/
  | ignored
  /-- It is carried out and the key is reported to have been present. -/
  | claimed
deriving DecidableEq

/-- Faults of buckets, and the numbers of the next calls. -/
structure Faults where
  /-- What becomes of the write with a given number. -/
  onSet : Nat → SetFate
  /-- What becomes of the removal with a given number. -/
  onDelete : Nat → DeleteFate
  /-- Whether every key is reported present when a bucket is asked. -/
  claimsAll : Bool
  /-- The number of the next write. -/
  sets : Nat
  /-- The number of the next removal. -/
  deletes : Nat

namespace Faults

/-- All goes well. -/
def none : Faults := ⟨fun _ => .done, fun _ => .done, false, 0, 0⟩

/-- The same fate for every write, and for every removal.  Where removals are claimed to have found
their key, so is every key that is asked for. -/
def always (write : SetFate) (removal : DeleteFate) : Faults :=
  ⟨fun _ => write, fun _ => removal, removal == .claimed, 0, 0⟩

/-- The same faults for the next `allowed` writes, and refusal of every later one. -/
def refusingAfter (allowed : Nat) (faults : Faults) : Faults :=
  { faults with
    onSet := fun i => if i < faults.sets + allowed then faults.onSet i else .refused }

variable {β K V : Type} [Bucket β K V]

def set (b : β) (k : K) (v : V) (faults : Faults) : Except StoreError Written × β × Faults :=
  let next := { faults with sets := faults.sets + 1 }
  match faults.onSet faults.sets with
  | .refused => (.error .notFound, b, next)
  | .done => let r := Bucket.set b k v; (.ok r.1, r.2, next)
  | .reported how => (.ok how, (Bucket.set b k v).2, next)

def delete (b : β) (k : K) (faults : Faults) : Except StoreError Bool × β × Faults :=
  let next := { faults with deletes := faults.deletes + 1 }
  match faults.onDelete faults.deletes with
  | .refused => (.error .notFound, b, next)
  | .ignored => (.ok false, b, next)
  | .done => let r := Bucket.delete b k; (.ok r.1, r.2, next)
  | .claimed => (.ok true, (Bucket.delete b k).2, next)

instance : Access Faults β K V where
  get b k faults := (Bucket.get b k, faults)
  contains b k faults := (faults.claimsAll || Bucket.contains b k, faults)
  set := set
  delete := delete
  forEach b visit w := (Bucket.forEach (fun _ => b) visit w).2

end Faults

end HashStore
