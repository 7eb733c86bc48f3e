import HashStore.Proofs.Bucket.Striping
import HashStore.Proofs.Table.Balance
import HashStore.Proofs.Table.Rehash

/-! # Tables with checked numbers

A key is looked for in a table by numbers that come from its hash: that of a bucket, and those of the
stripes at every level.  Here the operations of a table are carried out once more with all of these
numbers checked (`Table.perform?`): an operation comes to nothing if a remainder is taken modulo zero,
or if a number is out of the range of what is looked up by it.

A table is in range between operations (`Table.InRange`), whatever its buckets report or refuse, and
also at every moment of a growth.  So the checks never fail, and the checked operations do what the
operations do (`Table.Placed.perform?_eq`). -/

namespace HashStore

variable {α β K V : Type}

/-! ### Stripes -/

/-- The number of the stripe of a hash as 64-bit words are shifted.  A shift by all 64 places is no
shift of a word, and stands for zero. -/
def stripeNumber (bits : Nat) (u : UInt64) : Nat :=
  if 64 - bits < 64 then ((u * spread) >>> UInt64.ofNat (64 - bits)).toNat else 0

theorem stripeNumber_eq (bits : Nat) (u : UInt64) : stripeNumber bits u = stripeIndex bits u := by
  unfold stripeNumber stripeIndex
  split
  · rename_i hshift
    have hword : 64 - bits < 2 ^ 64 := by omega
    rw [UInt64.toNat_shiftRight, UInt64.toNat_ofNat', Nat.mod_eq_of_lt hword,
      Nat.mod_eq_of_lt hshift]
  · rename_i hall
    have hbits : 64 - bits = 64 := by omega
    rw [hbits, Nat.shiftRight_eq_div_pow, Nat.div_eq_of_lt (UInt64.toNat_lt _)]

namespace Striped

variable {bits : Nat}

/-- Carries out `f` on the stripe of a hash, if there is a stripe of its number. -/
def reach? (u : UInt64) (f : β → Option (α × β)) (s : Striped bits β) :
    Option (α × Striped bits β) :=
  if h : stripeNumber bits u < powerOfTwo bits then do
    let r ← f (s.stripe ⟨stripeNumber bits u, h⟩)
    some (r.1, s.withStripe ⟨stripeNumber bits u, h⟩ r.2)
  else none

/-- There is a stripe of the number.  A variable stands for the number, which keeps the product from being
computed. -/
theorem reach?_eq [Hashable K] {s : Striped bits β} {k : K} {f : β → Option (α × β)} {r : α × β}
    (hf : f (s.stripe (slot bits k)) = some r) :
    s.reach? (hash k) f = some (r.1, s.withStripe (slot bits k) r.2) := by
  have hslot : (slot bits k).val = stripeNumber bits (hash k) :=
    (stripeNumber_eq bits (hash k)).symm
  rw [reach?]
  generalize stripeNumber bits (hash k) = i at hslot
  subst hslot
  rw [dif_pos (slot bits k).isLt, hf]
  rfl

theorem withStripe_stripe (s : Striped bits β) (i : Fin (powerOfTwo bits)) :
    s.withStripe i (s.stripe i) = s := by
  simp only [withStripe, stripe, Fin.getElem_fin, Vector.set_getElem_self]

end Striped

namespace Shape

/-- Carries out `f` on the list to which a hash leads, with the number of the stripe checked at every
level. -/
def reach? (u : UInt64) : (shape : Shape) →
    (shape.core.Content K V → α × shape.core.Content K V) →
    shape.Content K V → Option (α × shape.Content K V)
  | append, f => fun l => some (f l)
  | push, f => fun l => some (f l)
  | striped _ inner, f => Striped.reach? u (inner.reach? u f)

variable [Hashable K]

/-- A call that every striped bucket hands on to the stripe of a key. -/
def HandedOn (k : K) (call : (shape : Shape) → shape.Content K V → α × shape.Content K V) : Prop :=
  ∀ (requested : Nat) (inner : Shape) (s : Striped (stripeBits requested) (inner.Content K V)),
    call (.striped requested inner) s = ((call inner (s.stripe (Striped.slot _ k))).1,
      s.withStripe (Striped.slot _ k) (call inner (s.stripe (Striped.slot _ k))).2)

theorem reach?_eq {k : K} {call : (shape : Shape) → shape.Content K V → α × shape.Content K V}
    (hcall : HandedOn k call) (shape : Shape) (b : shape.Content K V) :
    shape.reach? (hash k) (call shape.core) b = some (call shape b) := by
  induction shape with
  | append => rfl
  | push => rfl
  | striped requested inner ih =>
      have hhanded := (hcall requested inner b).symm
      exact (Striped.reach?_eq (ih _)).trans (congrArg some hhanded)

variable [BEq K] (k : K)

theorem handedOn_get :
    HandedOn k fun shape (b : shape.Content K V) => (Bucket.get b k, b) := by
  intro requested inner s
  rw [Striped.withStripe_stripe]
  rfl

theorem handedOn_contains :
    HandedOn k fun shape (b : shape.Content K V) => (Bucket.contains b k, b) := by
  intro requested inner s
  rw [Striped.withStripe_stripe]
  rfl

theorem handedOn_set (v : V) :
    HandedOn k fun shape (b : shape.Content K V) => Bucket.set b k v := fun _ _ _ => rfl

theorem handedOn_delete :
    HandedOn k fun shape (b : shape.Content K V) => Bucket.delete b k := fun _ _ _ => rfl

end Shape

/-! ### Tables -/

namespace Table

/-- There are buckets, and as many as the capacity says. -/
structure InRange (t : Table β) : Prop where
  capacity_pos : 0 < t.capacity
  size_buckets : t.buckets.size = t.capacity

theorem Placed.inRange [BEq K] [Hashable K] [Bucket β K V] [LawfulBucket β K V] {t : Table β}
    (h : t.Placed) : t.InRange := ⟨h.capacity_pos, h.size_buckets⟩

theorem inRange_create (factory : Factory β) (requested : Nat) :
    (create factory requested).1.InRange :=
  ⟨Nat.le_max_left 1 requested, Array.size_replicate⟩

namespace InRange

variable {t : Table β} (h : t.InRange)

include h

theorem index_lt (u : UInt64) : t.index u < t.buckets.size := by
  rw [h.size_buckets]
  exact Nat.mod_lt _ h.capacity_pos

theorem withBucket (i : Nat) (b : β) : (t.withBucket i b).InRange :=
  ⟨h.capacity_pos, t.size_withBucket i b ▸ h.size_buckets⟩

theorem counting (change : Int) : (t.counting change).InRange := ⟨h.capacity_pos, h.size_buckets⟩

theorem clear : t.clear.1.InRange := ⟨h.capacity_pos, Array.size_replicate⟩

theorem doubled : t.doubled.InRange :=
  ⟨Nat.mul_pos Nat.two_pos h.capacity_pos, Array.size_replicate⟩

variable {σ : Type} [Hashable K] [Access σ β K V]

theorem delete (k : K) (env : σ) : (t.delete k env).state.InRange :=
  delete_preserves h (fun _ => h.withBucket _ _) (fun _ h => h.counting (-1)) env

variable [QuietAccess σ β K V]

/-- Whatever the buckets report, a growth leaves a table in range. -/
theorem rehash (env : σ) : (t.rehash env).state.InRange := by
  have htarget : (Rebuild.takeAll t.buckets.toList ⟨t.doubled, 0, env, none⟩).target.InRange :=
    Rebuild.takeAll_preserves (P := InRange) (fun _ _ _ _ h => h.withBucket _ _) _ _ h.doubled
  rw [Table.rehash]
  split
  · exact h
  · exact htarget

theorem set (k : K) (v : V) (env : σ) : (t.set k v env).state.InRange :=
  set_preserves (h.withBucket _ _) (fun _ h => h.counting 1) fun _ env h => h.rehash env

theorem apply (op : Store.Op K V) (env : σ) : (Store.apply t op env).state.InRange := by
  cases op with
  | set k v => exact h.set k v env
  | delete k => exact h.delete k env
  | clear => exact h.clear
  | _ => exact h

theorem run (ops : List (Store.Op K V)) (env : σ) : (Store.run t env ops).state.InRange := by
  induction ops generalizing t env with
  | nil => exact h
  | cons op ops ih => exact ih (h.apply op env) _

end InRange

/-- Carries out `f` on the bucket of a hash, if the table has buckets and one of its number. -/
def reach? (u : UInt64) (f : β → Option (α × β)) (t : Table β) : Option (α × Table β) :=
  if h : t.capacity ≠ 0 ∧ u.toNat % t.capacity < t.buckets.size then do
    let r ← f (t.buckets[u.toNat % t.capacity])
    some (r.1, t.withBucket (u.toNat % t.capacity) r.2)
  else none

theorem InRange.reach?_eq {t : Table β} (h : t.InRange) {u : UInt64} {f : β → Option (α × β)}
    {r : α × β} (hf : f (t.bucketAt (t.index u)) = some r) :
    t.reach? u f = some (r.1, t.withBucket (t.index u) r.2) := by
  have hi := h.index_lt u
  have hpos : t.capacity ≠ 0 := Nat.ne_of_gt h.capacity_pos
  rw [bucketAt_eq hi] at hf
  rw [reach?, dif_pos ⟨hpos, hi⟩]
  exact congrArg (Option.bind · _) hf

variable [BEq K] [Hashable K] {shape : Shape}

/-- Carries out a call on the list to which a key leads. -/
def call? (t : Table (shape.Content K V)) (k : K)
    (f : shape.core.Content K V → α × shape.core.Content K V) :
    Option (α × Table (shape.Content K V)) :=
  t.reach? (hash k) (shape.reach? (hash k) f)

/-- Writes with checked numbers.  The count stays as it is. -/
def write? (t : Table (shape.Content K V)) (k : K) (v : V) :
    Option (Written × Table (shape.Content K V)) :=
  t.call? k fun list => Bucket.set list k v

/-- Moves all entries into twice as many buckets, with the number checked for each of them. -/
def rehash? (t : Table (shape.Content K V)) : Option (Table (shape.Content K V)) :=
  t.entries.foldlM (fun target e => (target.write? e.1 e.2).map (·.2)) t.doubled

def set? (t : Table (shape.Content K V)) (k : K) (v : V) :
    Option (Table (shape.Content K V)) := do
  match ← t.write? k v with
  | (.updated, t) => some t
  | (.inserted, t) =>
    if (t.counting 1).overloaded then (t.counting 1).rehash? else some (t.counting 1)

/-- Removes the entry of a key with checked numbers, and fails if there is none. -/
def delete? (t : Table (shape.Content K V)) (k : K) :
    Option (Except StoreError Unit × Table (shape.Content K V)) := do
  match ← t.call? k fun list => (Bucket.contains list k, list) with
  | (false, t) => some (.error .notFound, t)
  | (true, t) =>
    match ← t.call? k fun list => Bucket.delete list k with
    | (false, t) => some (.error .notFound, t)
    | (true, t) => some (.ok (), t.counting (-1))

/-- Carries out an operation with checked numbers. -/
def perform? (t : Table (shape.Content K V)) :
    Store.Op K V → Option (Store.Answer V × Table (shape.Content K V))
  | .get k => do
    let r ← t.call? k fun list => (Bucket.get list k, list)
    some (.value r.1, r.2)
  | .set k v => do some (.outcome (.ok ()), ← t.set? k v)
  | .delete k => do
    let r ← t.delete? k
    some (.outcome r.1, r.2)
  | .contains k => do
    let r ← t.call? k fun list => (Bucket.contains list k, list)
    some (.truth r.1, r.2)
  | .clear => some (.done, t.clear.1)
  | .size => some (.count t.size, t)
  | .isEmpty => some (.truth t.isEmpty, t)

section inRange

variable {t : Table (shape.Content K V)} (h : t.InRange) (k : K)

include h

omit [BEq K] in
theorem InRange.call?_eq {call : (shape : Shape) → shape.Content K V → α × shape.Content K V}
    (hcall : Shape.HandedOn k call) :
    t.call? k (call shape.core) = some ((call shape (t.bucketAt (t.index (hash k)))).1,
      t.withBucket (t.index (hash k)) (call shape (t.bucketAt (t.index (hash k)))).2) :=
  h.reach?_eq (shape.reach?_eq hcall _)

theorem InRange.write?_eq (v : V) : t.write? k v = some (t.report k v, t.stored k v) :=
  h.call?_eq k (Shape.handedOn_set k v)

end inRange

/-- The numbers of all entries are in range as they go over, one after another. -/
theorem foldlM_write?_eq (es : List (K × V)) {r : Rebuild (shape.Content K V) Unit}
    (hr : r.target.InRange) :
    es.foldlM (fun target e => (target.write? e.1 e.2).map (·.2)) r.target =
        some (visitAll Rebuild.take es r).2.target ∧
      (visitAll Rebuild.take es r).2.failure = r.failure := by
  induction es generalizing r with
  | nil => exact ⟨rfl, rfl⟩
  | cons e es ih =>
      have htake := Rebuild.take_allowed e.1 e.2 (r := r) truthful_unit rfl
      have hstored : (r.target.stored e.1 e.2).InRange := hr.withBucket _ _
      rw [List.foldlM_cons, hr.write?_eq, visitAll, htake]
      exact ih (r := ⟨r.target.stored e.1 e.2, r.moved + 1, (), r.failure⟩) hstored

variable [EquivBEq K] {t : Table (shape.Content K V)}

namespace Placed

variable (h : t.Placed)

include h

theorem rehash?_eq :
    t.rehash? = some (t.rehash ()).state ∧ (t.rehash ()).answer = .ok () := by
  obtain ⟨hfold, hfail⟩ :=
    foldlM_write?_eq t.entries (r := ⟨t.doubled, 0, (), none⟩) h.inRange.doubled
  rw [rehash?, hfold, rehash, h.takeAll_eq, hfail]
  exact ⟨rfl, rfl⟩

variable (k : K)

theorem get?_eq :
    t.call? k (fun list => (Bucket.get list k, list)) = some ((t.get k ()).1, t) := by
  have hcall := h.inRange.call?_eq k (Shape.handedOn_get (V := V) k)
  rw [h.withBucket_bucketAt] at hcall
  exact hcall

theorem contains?_eq :
    t.call? k (fun list => (Bucket.contains list k, list)) = some ((t.contains k ()).1, t) := by
  have hcall := h.inRange.call?_eq k (Shape.handedOn_contains (V := V) k)
  rw [h.withBucket_bucketAt] at hcall
  exact hcall

theorem set?_eq (v : V) :
    t.set? k v = some (t.set k v ()).state ∧ (t.set k v ()).answer = .ok () := by
  have hwrite := t.write_allowed truthful_unit rfl k v
  rw [set?, h.inRange.write?_eq, Table.set, hwrite]
  cases t.report k v with
  | updated => exact ⟨rfl, rfl⟩
  | inserted =>
      have hplaced : ((t.stored k v).counting 1).Placed := (h.stored k v).counting 1
      cases hover : ((t.stored k v).counting 1).overloaded with
      | false => simp [hover]
      | true =>
          obtain ⟨hrehash, hans⟩ := hplaced.rehash?_eq
          simp [hover, resize, hrehash, hans]

theorem delete?_eq :
    t.delete? k = some ((t.delete k ()).answer, (t.delete k ()).state) := by
  have herase := h.inRange.call?_eq k (Shape.handedOn_delete (V := V) k)
  have hanswer : t.erase k () =
      (.ok (Bucket.delete (t.bucketAt (t.index (hash k))) k).1, t.erased k, ()) := rfl
  rw [delete?, h.contains?_eq, Table.delete]
  cases hfound : t.contains k () with
  | mk found env =>
    cases found with
    | false => rfl
    | true =>
        simp only [Option.bind_eq_bind, Option.bind_some, herase, hanswer]
        cases (Bucket.delete (t.bucketAt (t.index (hash k))) k).1 with
        | false => rfl
        | true => rfl

theorem perform?_eq (op : Store.Op K V) :
    t.perform? op = some ((Store.apply t op ()).answer, (Store.apply t op ()).state) := by
  cases op with
  | get k => rw [perform?, h.get?_eq]; rfl
  | set k v =>
      obtain ⟨hset, hans⟩ := h.set?_eq k v
      rw [perform?, hset]
      show some (Store.Answer.outcome _, _) = some (Store.Answer.outcome _, _)
      rw [hans]
      rfl
  | delete k => rw [perform?, h.delete?_eq]; rfl
  | contains k => rw [perform?, h.contains?_eq]; rfl
  | clear => rfl
  | size => rfl
  | isEmpty => rfl

end Placed
end Table

end HashStore
