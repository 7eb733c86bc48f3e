import HashStore.Proofs.Bucket.Rows
import HashStore.Proofs.Table.Sound
import Mathlib.Logic.Function.Iterate

/-! # Rebuilding a table

A table is rebuilt by writing its entries, one after another, to twice as many buckets.  No entry
ever meets one that has gone over before: keys that count as one among twice as many buckets count
as one among the old ones as well (`distinct_double`).  So if no write is refused every entry
arrives (`Placed.rehash_of_allowed`), in the order of its old row or in the reverse of it, as new
entries go to the end or to the front; and if one is refused the table stays as it was
(`Placed.rehash_refused`). -/

namespace HashStore

open Entries Surroundings

namespace Rebuild

variable {σ β K V : Type} [Hashable K] [Access σ β K V]

theorem take_fst (k : K) (v : V) {r : Rebuild β σ} (h : r.failure = none) :
    (take k v r).1 = (take k v r).2.failure.isNone := by
  unfold take
  split
  · simp [h]
  · rfl

theorem visitAll_take_fst (es : List (K × V)) {r : Rebuild β σ} (h : r.failure = none) :
    (visitAll take es r).1 = (visitAll take es r).2.failure.isNone := by
  induction es generalizing r with
  | nil => simp [visitAll, h]
  | cons e es ih =>
      have hfst := take_fst e.1 e.2 h
      rw [visitAll]
      split
      · rename_i hgo
        rw [hgo, eq_comm, Option.isNone_iff_eq_none] at hfst
        exact ih hfst
      · exact hfst

variable [Bucket β K V] [Surroundings σ] [TruthfulAccess σ β K V]

theorem take_allowed (k : K) (v : V) {r : Rebuild β σ} (ht : Truthful r.env)
    (hallow : allowsSet r.env = true) :
    take k v r =
      (true, ⟨r.target.stored k v, r.moved + 1, afterSet r.env, r.failure⟩) := by
  rw [take, Table.write_allowed ht hallow]

variable [BEq K] [LawfulBucket β K V]

theorem take_refused (k : K) (v : V) {r : Rebuild β σ} (hp : r.target.Placed)
    (ht : Truthful r.env) (hrefuse : allowsSet r.env = false) :
    take k v r = (false, ⟨r.target, r.moved, afterSet r.env, some .notFound⟩) := by
  rw [take, hp.write_refused ht hrefuse]

/-- Going through the buckets is going through the entries.  A visit is cut short exactly when a failure
is recorded, so the record tells between two buckets what the answer of a visit tells within one. -/
theorem takeAll_eq_visitAll (bs : List β) (hbs : ∀ b ∈ bs, LawfulBucket.Sound b)
    {r : Rebuild β σ} (h : r.failure = none) :
    takeAll bs r = (visitAll take (bs.flatMap Bucket.entries) r).2 := by
  induction bs generalizing r with
  | nil => rfl
  | cons b bs ih =>
      have hb := hbs b (List.mem_cons_self ..)
      have hrest : ∀ b ∈ bs, LawfulBucket.Sound b := fun b hb => hbs b (List.mem_cons_of_mem _ hb)
      have hfst := visitAll_take_fst (Bucket.entries b) h
      rw [takeAll, TruthfulAccess.forEach_eq, LawfulBucket.forEach_const take r hb,
        List.flatMap_cons, visitAll_append]
      cases hfail : (visitAll take (Bucket.entries b) r).2.failure with
      | none =>
          rw [hfail] at hfst
          rw [hfst]
          exact ih hrest hfail
      | some err =>
          rw [hfail] at hfst
          rw [hfst]
          rfl

/-- A write that is refused ends the visit, wherever it comes. -/
theorem visitAll_take_refused (es : List (K × V)) : ∀ {r : Rebuild β σ}, r.target.Placed →
    Truthful r.env → (∃ j < es.length, allowsSet (afterSet^[j] r.env) = false) →
    (visitAll take es r).2.failure = some .notFound ∧ Truthful (visitAll take es r).2.env := by
  induction es with
  | nil => exact fun _ _ ⟨_, hj, _⟩ => absurd hj (Nat.not_lt_zero _)
  | cons e es ih =>
      intro r hp ht ⟨j, hj, hrefuse⟩
      obtain ⟨k, v⟩ := e
      rw [visitAll]
      cases hallow : allowsSet r.env with
      | false =>
          rw [take_refused k v hp ht hallow]
          exact ⟨rfl, truthful_afterSet ht⟩
      | true =>
          rw [take_allowed k v ht hallow]
          cases j with
          | zero =>
              rw [Function.iterate_zero_apply, hallow] at hrefuse
              cases hrefuse
          | succ j =>
              exact ih (hp.stored k v) (truthful_afterSet ht)
                ⟨j, Nat.lt_of_succ_lt_succ hj, hrefuse⟩

variable [EquivBEq K]

/-- As long as no write is refused, entries that do not meet arrive one beside the other: what has gone
over and what is still to go stay distinct together. -/
theorem visitAll_take_allowed (es : List (K × V)) : ∀ {r : Rebuild β σ}, r.target.Placed →
    Truthful r.env → (∀ j < es.length, allowsSet (afterSet^[j] r.env) = true) →
    Distinct (meets (Table.place β r.target.capacity)) (r.target.entries ++ es) →
    ∃ target, visitAll take es r =
        (true, ⟨target, r.moved + es.length, afterSet^[es.length] r.env, r.failure⟩) ∧
      target.Placed ∧ target.entries.Perm (r.target.entries ++ es) ∧
      (∀ p, rowAt (Table.place β r.target.capacity) p target.entries =
        extended (LawfulBucket.front β) (rowAt (Table.place β r.target.capacity) p r.target.entries)
          (rowAt (Table.place β r.target.capacity) p es)) ∧
      target.capacity = r.target.capacity ∧ target.count = r.target.count ∧
      target.factory = r.target.factory ∧ Truthful (afterSet^[es.length] r.env) := by
  induction es with
  | nil =>
      intro r hp ht _ _
      exact ⟨r.target, rfl, hp, by rw [List.append_nil], fun _ => (extended_nil _ _).symm, rfl, rfl,
        rfl, ht⟩
  | cons e es ih =>
      intro r hp ht hallow hd
      obtain ⟨k, v⟩ := e
      have hnew : has (meets (Table.place β r.target.capacity)) k r.target.entries = false := by
        rw [has_eq_false_iff]
        intro e he
        exact (List.pairwise_append.mp hd).2.2 e he (k, v) (List.mem_cons_self ..)
      have hwrote := hp.wrote_stored k v
      have hput : (r.target.stored k v).entries.Perm (r.target.entries ++ [(k, v)]) := by
        have := hwrote.perm_put
        rwa [put, if_neg (Bool.eq_false_iff.mp hnew)] at this
      have hperm : ((r.target.stored k v).entries ++ es).Perm
          (r.target.entries ++ (k, v) :: es) := by
        rw [List.append_cons]
        exact hput.append_right es
      rw [visitAll, take_allowed k v ht (hallow 0 (Nat.succ_pos _))]
      simp only [if_true]
      obtain ⟨target, hvisit, hplaced, hentries, hrows, hcap, hcount, hfact, htruth⟩ :=
        ih (r := ⟨r.target.stored k v, r.moved + 1, afterSet r.env, r.failure⟩) (hp.stored k v)
          (truthful_afterSet ht)
          (fun j hj => hallow (j + 1) (Nat.succ_lt_succ hj))
          (hd.perm (isSameness_meets _) hperm.symm)
      refine ⟨target, ?_, hplaced, hentries.trans hperm, fun p => ?_, hcap, hcount, hfact, htruth⟩
      · rw [hvisit, List.length_cons]
        simp only [Function.iterate_succ_apply]
        rw [Nat.add_right_comm, Nat.add_assoc]
      · have hreport : r.target.report k v = .inserted := by rw [hp.report_eq, hnew]; rfl
        rw [hreport] at hwrote
        have hrow := hrows p
        rw [Table.stored_capacity, hwrote.rowAt_inserted p, extended_append,
          ← rowAt_append] at hrow
        exact hrow

end Rebuild

namespace Table

variable {σ β K V : Type} [BEq K] [Hashable K] [Bucket β K V] [LawfulBucket β K V]

theorem place_of_place_double {capacity : Nat} {u v : UInt64}
    (h : place β (2 * capacity) u = place β (2 * capacity) v) :
    place β capacity u = place β capacity v := by
  obtain ⟨hmod, hin⟩ := List.cons.inj h
  have hdvd : capacity ∣ 2 * capacity := Nat.dvd_mul_left _ _
  rw [place, place, ← Nat.mod_mod_of_dvd u.toNat hdvd, hmod, Nat.mod_mod_of_dvd _ hdvd, hin]

/-- Keys that are distinct among some buckets are distinct among twice as many. -/
theorem distinct_double {capacity : Nat} {l : List (K × V)}
    (hd : Distinct (meets (place β capacity)) l) :
    Distinct (meets (place β (2 * capacity))) l :=
  hd.mono fun _ _ => meets_of_meets fun _ _ => place_of_place_double

/-- The rows of a bucket are rows of the table. -/
theorem Placed.rowAt_bucket {t : Table β} (h : t.Placed) {i : Nat} (hi : i < t.buckets.size)
    (p : List Nat) :
    rowAt (place β t.capacity) (i :: p) t.entries =
      rowAt (LawfulBucket.place β) p (Bucket.entries t.buckets[i]) := by
  have hi' : i < t.buckets.toList.length := by simpa using hi
  obtain ⟨a, b, hsplit, -, hother⟩ := exists_flatMap_set t.index hi' h.placed_toList
  rw [entries_eq, hsplit, Array.getElem_toList]
  exact rowAt_layer (h.placed i hi) hother p

/-- Among twice as many buckets a row is that part of an old row that goes to the one bucket. -/
theorem rowAt_double (capacity j : Nat) (p : List Nat) (l : List (K × V)) :
    rowAt (place β (2 * capacity)) (j :: p) l =
      (rowAt (place β capacity) (j % capacity :: p) l).filter fun e =>
        (hash e.1).toNat % (2 * capacity) = j := by
  have hdvd : capacity ∣ 2 * capacity := Nat.dvd_mul_left _ _
  rw [rowAt, rowAt, List.filter_filter]
  refine List.filter_congr fun e _ => ?_
  rw [← Bool.decide_and]
  refine decide_eq_decide.mpr ?_
  rw [place, place, List.cons.injEq, List.cons.injEq]
  constructor
  · rintro ⟨hj, hp⟩
    exact ⟨hj, by rw [← Nat.mod_mod_of_dvd _ hdvd, hj], hp⟩
  · rintro ⟨hj, -, hp⟩
    exact ⟨hj, hp⟩

/-- What the growth of a table makes of it: the same entries, row by row in the order of their old
row or in the reverse of it, in twice as many buckets. -/
structure Doubles (t t' : Table β) : Prop where
  sound : t'.Sound
  perm : t'.entries.Perm t.entries
  rows : ∀ p, rowAt (place β (2 * t.capacity)) p t'.entries =
    extended (LawfulBucket.front β) [] (rowAt (place β (2 * t.capacity)) p t.entries)
  capacity : t'.capacity = 2 * t.capacity
  factory : t'.factory = t.factory

variable [Access σ β K V] [Surroundings σ] [TruthfulAccess σ β K V] {t : Table β} {env : σ}

namespace Placed

variable (h : t.Placed)

include h

theorem placed_doubled : t.doubled.Placed :=
  placed_products h.factory (Nat.mul_pos Nat.two_pos h.capacity_pos) t.count

theorem entries_doubled : t.doubled.entries = [] := entries_products h.factory _ _

theorem takeAll_eq :
    Rebuild.takeAll t.buckets.toList (⟨t.doubled, 0, env, none⟩ : Rebuild β σ) =
      (visitAll Rebuild.take t.entries ⟨t.doubled, 0, env, none⟩).2 := by
  rw [entries_eq]
  refine Rebuild.takeAll_eq_visitAll _ (fun b hb => ?_) rfl
  obtain ⟨i, hi, rfl⟩ := List.getElem_of_mem hb
  exact h.sound i (by simpa using hi)

variable (ht : Truthful env)

include ht

theorem rehash_refused
    (hrefuse : ∃ j < t.entries.length, allowsSet (afterSet^[j] env) = false) :
    ∃ env', t.rehash env = ⟨.error .notFound, t, env',
        t.factory.notesOf (2 * t.capacity) ++ [.aborted .notFound t.capacity]⟩ ∧
      Truthful env' := by
  obtain ⟨hfail, htruth⟩ := Rebuild.visitAll_take_refused t.entries
    (r := ⟨t.doubled, 0, env, none⟩) h.placed_doubled ht hrefuse
  refine ⟨_, ?_, htruth⟩
  rw [rehash, h.takeAll_eq, hfail]

/-- The count of a table plays no part in its growth. -/
theorem rehash_of_allowed [EquivBEq K]
    (hallow : ∀ j < t.entries.length, allowsSet (afterSet^[j] env) = true) :
    ∃ t' : Table β, t.rehash env = ⟨.ok (), t', afterSet^[t.entries.length] env,
        t.factory.notesOf (2 * t.capacity) ++
          [.resized t.capacity (2 * t.capacity) t.entries.length]⟩ ∧
      t'.Placed ∧ t'.entries.Perm t.entries ∧
      (∀ p, rowAt (place β (2 * t.capacity)) p t'.entries =
        extended (LawfulBucket.front β) [] (rowAt (place β (2 * t.capacity)) p t.entries)) ∧
      t'.capacity = 2 * t.capacity ∧ t'.count = t.count ∧ t'.factory = t.factory ∧
      Truthful (afterSet^[t.entries.length] env) := by
  have hd : Distinct (meets (place β (2 * t.capacity))) (t.doubled.entries ++ t.entries) := by
    rw [h.entries_doubled, List.nil_append]
    exact distinct_double h.distinct
  obtain ⟨target, hvisit, hplaced, hentries, hrows, hcap, hcount, hfact, htruth⟩ :=
    Rebuild.visitAll_take_allowed t.entries (r := ⟨t.doubled, 0, env, none⟩)
      h.placed_doubled ht hallow hd
  rw [h.entries_doubled, List.nil_append] at hentries
  rw [h.entries_doubled] at hrows
  refine ⟨target, ?_, hplaced, hentries, hrows, hcap, hcount, hfact, htruth⟩
  rw [rehash, h.takeAll_eq, hvisit]
  simp only [Nat.zero_add]

end Placed

theorem Sound.rehash_allowed [EquivBEq K] (h : t.Sound) (ht : Truthful env)
    (hallow : ∀ j < t.entries.length, allowsSet (afterSet^[j] env) = true) :
    ∃ t' : Table β, t.rehash env = ⟨.ok (), t', afterSet^[t.entries.length] env,
        t.factory.notesOf (2 * t.capacity) ++
          [.resized t.capacity (2 * t.capacity) t.entries.length]⟩ ∧
      t.Doubles t' ∧ Truthful (afterSet^[t.entries.length] env) := by
  obtain ⟨t', heq, hplaced, hperm, hrows, hcap, hcount, hfact, htruth⟩ :=
    h.rehash_of_allowed ht hallow
  have hcount' : t'.count = t'.entries.length := by
    rw [hcount, hperm.length_eq]
    exact h.count_eq
  exact ⟨t', heq, ⟨⟨hplaced, hcount'⟩, hperm, hrows, hcap, hfact⟩, htruth⟩

end Table
end HashStore
