import HashStore.Proofs.Table.Update

/-! # What a growth makes of each bucket

The entries of a bucket go to two of twice as many buckets: an entry of bucket `i` among `c` goes to
bucket `i` or `i + c`, as its hash says, and stays in its stripe at every level.  In a row the entries
keep their order where new ones go to the end, and come to lie in the reverse order where new ones go
to the front (`Shape.refill`).  `Placed.rehash_redistributes` says this of every bucket at once: its
layout is that of the old one, with a selection made from each row.

Nothing is asked of the surroundings but that they refuse none of the writes.  What a bucket reports of
a write plays no part, so a growth then goes as it does without surroundings
(`Placed.rehash_of_unrefused`). -/

namespace HashStore

open Entries Surroundings

/-! ### The order in a row that is written anew -/

namespace Shape

/-- A row as it comes to lie when its entries are written, one after another, to an empty row of a
bucket of some shape. -/
def refill {α : Type} : Shape → List α → List α
  | append, row => row
  | push, row => row.reverse
  | striped _ inner, row => inner.refill row

theorem refill_perm {α : Type} (shape : Shape) (row : List α) : (shape.refill row).Perm row := by
  induction shape with
  | append => exact .refl _
  | push => exact List.reverse_perm _
  | striped requested inner ih => exact ih

theorem extended_nil_eq_refill {K V : Type} [BEq K] [EquivBEq K] [Hashable K] (shape : Shape)
    (row : List (K × V)) :
    extended (LawfulBucket.front (shape.Content K V)) [] row = shape.refill row := by
  induction shape with
  | append => exact List.nil_append _
  | push => exact List.append_nil _
  | striped requested inner ih => exact ih

end Shape

/-! ### Growth that is not refused -/

namespace Rebuild

variable {β K V : Type} [Hashable K] [Bucket β K V]

theorem take_unrefused (k : K) (v : V) {r : Rebuild β Faults}
    (hgo : r.env.onSet r.env.sets ≠ .refused) :
    take k v r = (true, ⟨r.target.stored k v, r.moved + 1, afterSet r.env, r.failure⟩) := by
  have hset : ∃ how, Faults.set (r.target.bucketAt (r.target.index (hash k))) k v r.env =
      (.ok how, (Bucket.set (r.target.bucketAt (r.target.index (hash k))) k v).2,
        afterSet r.env) := by
    cases hfate : r.env.onSet r.env.sets with
    | done => exact ⟨_, by rw [Faults.set, hfate]; rfl⟩
    | refused => exact absurd hfate hgo
    | reported how => exact ⟨how, by rw [Faults.set, hfate]; rfl⟩
  obtain ⟨how, hset⟩ := hset
  have hwrite : r.target.write k v r.env = (.ok how, r.target.stored k v, afterSet r.env) := by
    rw [Table.write]
    simp only [Access.set, hset]
    rfl
  rw [take, hwrite]

/-- Entries that are not refused are taken over as they are without surroundings. -/
theorem visitAll_take_unrefused (es : List (K × V)) : ∀ {r : Rebuild β Faults},
    (∀ i < es.length, r.env.onSet (r.env.sets + i) ≠ .refused) →
    let plain := visitAll take es (⟨r.target, r.moved, (), r.failure⟩ : Rebuild β Unit)
    visitAll take es r = (plain.1, ⟨plain.2.target, plain.2.moved,
      { r.env with sets := r.env.sets + es.length }, plain.2.failure⟩) := by
  induction es with
  | nil => exact fun _ => rfl
  | cons e es ih =>
      intro r hgo
      have hrest : ∀ i < es.length,
          (afterSet r.env).onSet ((afterSet r.env).sets + i) ≠ .refused := by
        intro i hi
        show r.env.onSet (r.env.sets + 1 + i) ≠ .refused
        rw [Nat.add_assoc, Nat.add_comm 1 i]
        exact hgo (i + 1) (Nat.succ_lt_succ hi)
      have hfirst := take_unrefused e.1 e.2 (hgo 0 (Nat.succ_pos _))
      have hplain := take_allowed e.1 e.2 (r := ⟨r.target, r.moved, (), r.failure⟩)
        truthful_unit rfl
      have ih := ih (r := ⟨r.target.stored e.1 e.2, r.moved + 1, afterSet r.env, r.failure⟩) hrest
      simp only [visitAll, hfirst, hplain, if_true, ih]
      rw [List.length_cons, Nat.add_comm es.length 1, ← Nat.add_assoc]
      rfl

end Rebuild

namespace Table

variable {K V : Type} [BEq K] [Hashable K]

namespace Placed

section lawful

variable {β : Type} [Bucket β K V] [LawfulBucket β K V] {t : Table β} (h : t.Placed)

include h

/-- If no write is refused, the surroundings settle nothing about a growth. -/
theorem rehash_of_unrefused {faults : Faults}
    (hgo : ∀ i < t.entries.length, faults.onSet (faults.sets + i) ≠ .refused) :
    t.rehash faults = ⟨(t.rehash ()).answer, (t.rehash ()).state,
      { faults with sets := faults.sets + t.entries.length }, (t.rehash ()).events⟩ := by
  have hvisit := Rebuild.visitAll_take_unrefused t.entries
    (r := ⟨t.doubled, 0, faults, none⟩) hgo
  rw [rehash, rehash, h.takeAll_eq, h.takeAll_eq, hvisit]
  generalize visitAll Rebuild.take t.entries ⟨t.doubled, 0, (), none⟩ = plain
  obtain ⟨-, target, moved, env, failure⟩ := plain
  cases failure <;> rfl

end lawful

variable [EquivBEq K] {shape : Shape} {t t' : Table (shape.Content K V)}

/-- Where the rows of one table are those of another among twice as many buckets, every bucket is
made of the bucket with the same number modulo the old capacity. -/
theorem layout_bucketAt_of_rows (h : t.Placed) (h' : t'.Placed)
    (hcap : t'.capacity = 2 * t.capacity)
    (hrows : ∀ p, rowAt (place (shape.Content K V) (2 * t.capacity)) p t'.entries =
      extended (LawfulBucket.front (shape.Content K V)) []
        (rowAt (place (shape.Content K V) (2 * t.capacity)) p t.entries))
    {j : Nat} (hj : j < 2 * t.capacity) :
    Bucket.layout (t'.bucketAt j) = (Bucket.layout (t.bucketAt (j % t.capacity))).mapRows fun row =>
      shape.refill (row.filter fun e => (hash e.1).toNat % (2 * t.capacity) = j) := by
  have hnew : j < t'.buckets.size := by rwa [h'.size_buckets, hcap]
  have hold : j % t.capacity < t.buckets.size := by
    rw [h.size_buckets]
    exact Nat.mod_lt _ h.capacity_pos
  rw [bucketAt_eq hnew, bucketAt_eq hold]
  refine shape.layout_of_rowsDiffer (h.sound _ hold) (h'.sound _ hnew) fun p => ?_
  rw [← h'.rowAt_bucket hnew, hcap, hrows, rowAt_double, h.rowAt_bucket hold,
    shape.extended_nil_eq_refill]

end Placed

omit [BEq K] in
/-- The entries of a bucket are those that go to the bucket of the same number among twice as many,
and those that go to the one as far beyond it as there were buckets. -/
theorem perm_filter_double {capacity i : Nat} {l : List (K × V)} (hpos : 0 < capacity)
    (hl : ∀ e ∈ l, (hash e.1).toNat % capacity = i) :
    l.Perm (l.filter (fun e => (hash e.1).toNat % (2 * capacity) = i) ++
      l.filter fun e => (hash e.1).toNat % (2 * capacity) = i + capacity) := by
  have hother : l.filter (fun e => (hash e.1).toNat % (2 * capacity) = i + capacity) =
      l.filter fun e => !decide ((hash e.1).toNat % (2 * capacity) = i) := by
    refine List.filter_congr fun e he => ?_
    have hmul := Nat.mod_mul (x := (hash e.1).toNat) (a := capacity) (b := 2)
    rw [hl e he, Nat.mul_comm capacity 2] at hmul
    rw [← decide_not]
    refine decide_eq_decide.mpr ?_
    rcases Nat.mod_two_eq_zero_or_one ((hash e.1).toNat / capacity) with hbit | hbit
    · rw [hbit] at hmul
      omega
    · rw [hbit] at hmul
      omega
  rw [hother]
  exact (List.filter_append_perm _ _).symm

variable [EquivBEq K]

/-- A growth that is not refused, bucket by bucket: bucket `j` of the new table holds what old bucket
`j % c` holds of hashes that are `j` modulo the new capacity, every entry in the stripe where it was
and every row in its order or in the reverse of it.  So the entries of an old bucket are divided
between two new ones, none is lost or doubled, and as many are reported as there are. -/
theorem Placed.rehash_redistributes {shape : Shape} {t : Table (shape.Content K V)} (h : t.Placed)
    {faults : Faults}
    (hgo : ∀ i < t.entries.length, faults.onSet (faults.sets + i) ≠ .refused) :
    let c := t.capacity
    let r := t.rehash faults
    let t' := r.state
    r.answer = .ok () ∧ t'.Placed ∧ t'.capacity = 2 * c ∧ t'.buckets.size = 2 * c ∧
      t'.count = t.count ∧
      (∀ j < 2 * c, Bucket.layout (t'.bucketAt j) = (Bucket.layout (t.bucketAt (j % c))).mapRows
        fun row => shape.refill (row.filter fun e => (hash e.1).toNat % (2 * c) = j)) ∧
      (∀ i < c, (Bucket.entries (t.bucketAt i)).Perm
        (Bucket.entries (t'.bucketAt i) ++ Bucket.entries (t'.bucketAt (i + c)))) ∧
      t'.entries.Perm t.entries ∧
      r.events = t.factory.notesOf (2 * c) ++ [.resized c (2 * c) t.entries.length] := by
  intro c r t'
  obtain ⟨t₂, heq, hplaced, hperm, hrows, hcap, hcount, -, -⟩ :=
    h.rehash_of_allowed truthful_unit fun _ _ => rfl
  have hr : r = ⟨.ok (), t₂, { faults with sets := faults.sets + t.entries.length },
      t.factory.notesOf (2 * c) ++ [.resized c (2 * c) t.entries.length]⟩ := by
    show t.rehash faults = _
    rw [h.rehash_of_unrefused hgo, heq]
  have ht' : t' = t₂ := congrArg Reply.state hr
  have hlayout : ∀ j < 2 * c, Bucket.layout (t'.bucketAt j) =
      (Bucket.layout (t.bucketAt (j % c))).mapRows fun row =>
        shape.refill (row.filter fun e => (hash e.1).toNat % (2 * c) = j) := by
    rw [ht']
    exact fun j hj => h.layout_bucketAt_of_rows hplaced hcap hrows hj
  have hselects : ∀ j < 2 * c, (Bucket.entries (t'.bucketAt j)).Perm
      ((Bucket.entries (t.bucketAt (j % c))).filter fun e => (hash e.1).toNat % (2 * c) = j) := by
    intro j hj
    rw [Bucket.entries, hlayout j hj]
    exact Layout.perm_entries_mapRows (fun _ => shape.refill_perm _) _
  rw [← ht'] at hplaced hperm hcap hcount
  refine ⟨congrArg Reply.answer hr, hplaced, hcap, hplaced.size_buckets.trans hcap, hcount, hlayout,
    fun i hi => ?_, hperm, congrArg Reply.events hr⟩
  have hlow := hselects i (by omega)
  have hhigh := hselects (i + c) (by omega)
  rw [Nat.mod_eq_of_lt hi] at hlow
  rw [Nat.add_mod_right, Nat.mod_eq_of_lt hi] at hhigh
  have hi' : i < t.buckets.size := by rwa [h.size_buckets]
  have hold : ∀ e ∈ Bucket.entries (t.bucketAt i), (hash e.1).toNat % c = i := by
    rw [bucketAt_eq hi']
    exact h.placed i hi'
  exact (perm_filter_double h.capacity_pos hold).trans (hlow.append hhigh).symm

/-- Two buckets of stripes that grow at the front become four.  The entries with values 1 and 2 have
equal keys and lie in two stripes, since their hashes are 0 and 6; the second one goes to bucket 2. -/
theorem rehash_redistributes_custom_keys :
    let shape := Shape.striped 2 .push
    let ops : List (Store.Op Key Nat) :=
      [.set (.custom 7 0) 1, .set (.custom 7 6) 2, .set (.custom 8 0) 3, .set (.custom 9 4) 4]
    let t := (Store.run (create (shape.factory Key Nat) 2).1 () ops).state
    let faults := Faults.none.refusingAfter 4
    let c := t.capacity
    let r := t.rehash faults
    let t' := r.state
    EquivBEq Key ∧ t.Placed ∧
      (∀ i < t.entries.length, faults.onSet (faults.sets + i) ≠ .refused) ∧
      t.buckets.toList.map (fun b => (Bucket.layout b).rows.map fun list => list.map (·.2)) =
        [[[4, 3, 1], [2]], [[], []]] ∧
      t'.buckets.toList.map (fun b => (Bucket.layout b).rows.map fun list => list.map (·.2)) =
        [[[1, 3, 4], []], [[], []], [[], [2]], [[], []]] ∧
      (r.answer = .ok () ∧ t'.Placed ∧ t'.capacity = 2 * c ∧ t'.buckets.size = 2 * c ∧
        t'.count = t.count ∧
        (∀ j < 2 * c, Bucket.layout (t'.bucketAt j) = (Bucket.layout (t.bucketAt (j % c))).mapRows
          fun row => shape.refill (row.filter fun e => (hash e.1).toNat % (2 * c) = j)) ∧
        (∀ i < c, (Bucket.entries (t.bucketAt i)).Perm
          (Bucket.entries (t'.bucketAt i) ++ Bucket.entries (t'.bucketAt (i + c)))) ∧
        t'.entries.Perm t.entries ∧
        r.events = t.factory.notesOf (2 * c) ++ [.resized c (2 * c) t.entries.length]) := by
  intro shape ops t faults
  have hplaced : t.Placed :=
    ((sound_create shape.factory_lawful 2).run truthful_unit ops).1.toPlaced
  have hgo : ∀ i < t.entries.length, faults.onSet (faults.sets + i) ≠ .refused := by
    have hlen : t.entries.length = 4 := by decide +kernel
    rw [hlen]
    decide +kernel
  refine ⟨inferInstance, hplaced, hgo, ?_, ?_, hplaced.rehash_redistributes hgo⟩
  · decide +kernel
  · decide +kernel

end Table
end HashStore
