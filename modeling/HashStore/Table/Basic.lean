import HashStore.Bucket.Access
import HashStore.Reply

/-! # Hash tables

A table is an array of buckets and a count of its entries.  A key lives in the bucket numbered by its
hash modulo the number of buckets.  The table counts what its buckets report, so with buckets that
report wrongly the count may drift from the content, even below zero; the size it shows is never
negative.

This module holds the table, its making and emptying, and what a single call to a bucket does. -/

namespace HashStore

/-- A hash table over buckets `β`. -/
structure Table (β : Type) where
  buckets : Array β
  /-- The number of buckets. -/
  capacity : Nat
  /-- Reported insertions less reported removals. -/
  count : Int
  /-- How new buckets are made. -/
  factory : Factory β

namespace Table

/-- The number of buckets of a table for which no number was chosen. -/
def defaultCapacity : Nat := 16

/-- The number of entries per bucket beyond which a table grows. -/
def loadFactor : Nat := 2

section

variable {β : Type}

/-- A table without entries, and what is reported while it is made.  At least one bucket is made. -/
def create (factory : Factory β) (requested : Nat) : Table β × List Event :=
  let capacity := max 1 requested
  (⟨factory.products capacity, capacity, 0, factory⟩,
    (if requested = 0 then [.zeroCapacity] else []) ++ factory.notesOf capacity)

/-- The number of entries that a table shows. -/
def size (t : Table β) : Nat := t.count.toNat

def isEmpty (t : Table β) : Bool := t.size == 0

/-- Whether a table counts more entries than it should hold before it grows. -/
def overloaded (t : Table β) : Bool := (loadFactor * t.capacity : Int) < t.count

theorem overloaded_iff {t : Table β} :
    t.overloaded = true ↔ (2 * t.capacity : Int) < t.count := decide_eq_true_iff

theorem overloaded_eq_false_iff {t : Table β} :
    t.overloaded = false ↔ t.count ≤ 2 * t.capacity := by
  rw [← Bool.not_eq_true, overloaded_iff, Int.not_lt]

/-- A table emptied: every bucket is replaced by a fresh one. -/
def clear (t : Table β) : Table β × List Event :=
  ({ t with buckets := t.factory.products t.capacity, count := 0 },
    t.factory.notesOf t.capacity ++ [.cleared t.capacity])

/-- The bucket of a hash. -/
def index (t : Table β) (h : UInt64) : Nat := h.toNat % t.capacity

def bucketAt (t : Table β) (i : Nat) : β := t.buckets.getD i t.factory.fresh

def withBucket (t : Table β) (i : Nat) (b : β) : Table β :=
  { t with buckets := t.buckets.setIfInBounds i b }

/-- Adds to the count of entries. -/
def counting (t : Table β) (change : Int) : Table β := { t with count := t.count + change }

/-- The entries as they lie, bucket by bucket. -/
def layout {K V : Type} [Bucket β K V] (t : Table β) : List (Layout K V) :=
  t.buckets.toList.map Bucket.layout

/-- The entries, one bucket after another. -/
def entries {K V : Type} [Bucket β K V] (t : Table β) : List (K × V) :=
  t.layout.flatMap Layout.entries

end

variable {σ β K V : Type} [Hashable K] [Access σ β K V]

def get (t : Table β) (k : K) (env : σ) : Option V × σ :=
  Access.get (t.bucketAt (t.index (hash k))) k env

def contains (t : Table β) (k : K) (env : σ) : Bool × σ :=
  Access.contains (t.bucketAt (t.index (hash k))) k env

/-- Hands a write to the bucket of the key.  The count stays as it is. -/
def write (t : Table β) (k : K) (v : V) (env : σ) : Except StoreError Written × Table β × σ :=
  let i := t.index (hash k)
  let r := Access.set (t.bucketAt i) k v env
  (r.1, t.withBucket i r.2.1, r.2.2)

/-- Hands a removal to the bucket of the key.  The count stays as it is. -/
def erase (t : Table β) (k : K) (env : σ) : Except StoreError Bool × Table β × σ :=
  let i := t.index (hash k)
  let r := Access.delete (t.bucketAt i) k env
  (r.1, t.withBucket i r.2.1, r.2.2)

@[simp] theorem write_capacity (t : Table β) (k : K) (v : V) (env : σ) :
    (t.write k v env).2.1.capacity = t.capacity := rfl

@[simp] theorem write_count (t : Table β) (k : K) (v : V) (env : σ) :
    (t.write k v env).2.1.count = t.count := rfl

@[simp] theorem write_factory (t : Table β) (k : K) (v : V) (env : σ) :
    (t.write k v env).2.1.factory = t.factory := rfl

@[simp] theorem erase_capacity (t : Table β) (k : K) (env : σ) :
    (t.erase k env).2.1.capacity = t.capacity := rfl

@[simp] theorem erase_count (t : Table β) (k : K) (env : σ) :
    (t.erase k env).2.1.count = t.count := rfl

@[simp] theorem erase_factory (t : Table β) (k : K) (env : σ) :
    (t.erase k env).2.1.factory = t.factory := rfl

end Table

end HashStore
