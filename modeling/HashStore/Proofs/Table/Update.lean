import HashStore.Proofs.Bucket.Striped
import HashStore.Proofs.Key
import HashStore.Proofs.Table.Rehash

/-! # Writes, removals and runs of a table

`set_refused`, `set_of_not_due` and `set_of_due` are the three ways of a write, `delete_absent`,
`delete_allowed` and `delete_refused` those of a removal.  Each leaves the table sound, hence so does
every run (`Sound.run`): whatever calls are refused, entries lie where their keys are looked for, no two
that count as one are in one table, and the count is their number. -/

namespace HashStore

open Entries Surroundings

theorem Surroundings.allowed_or_refused {σ : Type} [Surroundings σ] (env : σ) (n : Nat) :
    (∀ j < n, allowsSet (afterSet^[j] env) = true) ∨
      ∃ j < n, allowsSet (afterSet^[j] env) = false := by
  by_cases h : ∃ j < n, allowsSet (afterSet^[j] env) = false
  · exact Or.inr h
  · refine Or.inl fun j hj => ?_
    rw [← Bool.not_eq_false]
    exact fun hfalse => h ⟨j, hj, hfalse⟩

namespace Table

variable {σ β K V : Type} [Hashable K] [Bucket β K V]

/-- The table after a bucket has taken a write and the count has been brought up to date. -/
def written (t : Table β) (k : K) (v : V) : Table β :=
  (t.stored k v).counting (if t.report k v = .inserted then 1 else 0)

/-- Whether a write makes a table grow. -/
def due (t : Table β) (k : K) (v : V) : Bool :=
  t.report k v == .inserted && (t.written k v).overloaded

theorem written_of_updated {t : Table β} {k : K} {v : V} (h : t.report k v = .updated) :
    t.written k v = t.stored k v := by
  rw [written, h]
  show (t.stored k v).counting 0 = _
  rw [counting, Int.add_zero]

theorem written_of_inserted {t : Table β} {k : K} {v : V} (h : t.report k v = .inserted) :
    t.written k v = (t.stored k v).counting 1 := by
  rw [written, if_pos h]

section set

variable [Access σ β K V] [Surroundings σ] [TruthfulAccess σ β K V] {t : Table β} {env : σ}
  (ht : Truthful env) (hallow : allowsSet env = true) {k : K} {v : V}

include ht hallow

theorem set_of_not_due (hdue : t.due k v = false) :
    t.set k v env = ⟨.ok (), t.written k v, afterSet env, []⟩ := by
  rw [set, write_allowed ht hallow]
  cases hr : t.report k v with
  | updated => rw [written_of_updated hr]
  | inserted =>
      rw [due, hr, written_of_inserted hr] at hdue
      rw [written_of_inserted hr]
      exact if_neg (Bool.eq_false_iff.mp hdue)

theorem set_of_due (hdue : t.due k v = true) :
    t.set k v env = (t.written k v).rehash (afterSet env) := by
  rw [set, write_allowed ht hallow]
  obtain ⟨hr, hover⟩ := Bool.and_eq_true_iff.mp hdue
  have hr := eq_of_beq hr
  rw [written_of_inserted hr] at hover ⊢
  rw [hr]
  simp only [hover, if_true, resize]

end set

variable [BEq K] [LawfulBucket β K V]

theorem Placed.due_iff {t : Table β} (h : t.Placed) (k : K) (v : V) :
    t.due k v = true ↔ has (meets (place β t.capacity)) k t.entries = false ∧
      (2 * t.capacity : Int) < t.count + 1 := by
  have hr := h.report_eq k v
  rw [due]
  cases hk : has (meets (place β t.capacity)) k t.entries with
  | true =>
      rw [hk, if_pos rfl] at hr
      rw [hr]
      simp
  | false =>
      rw [hk, if_neg Bool.false_ne_true] at hr
      rw [written_of_inserted hr, hr]
      exact ⟨fun hover => ⟨rfl, of_decide_eq_true hover⟩, fun hover => decide_eq_true hover.2⟩

namespace Sound

variable {t : Table β} (h : t.Sound)

include h

theorem perm_written (k : K) (v : V) :
    (t.written k v).entries.Perm (put (meets (place β t.capacity)) k v t.entries) :=
  (h.wrote_stored k v).perm_put

theorem written (k : K) (v : V) : (t.written k v).Sound where
  toPlaced := (h.stored k v).counting _
  count_eq := by
    rw [(h.perm_written k v).length_eq, length_put, Table.written, counting, stored_count,
      h.report_eq, h.count_eq]
    cases has (meets (place β t.capacity)) k t.entries <;> simp

theorem erased [EquivBEq K] {k : K}
    (hk : has (meets (place β t.capacity)) k t.entries = true) :
    ((t.erased k).counting (-1)).Sound where
  toPlaced := (h.toPlaced.erased k).counting _
  count_eq := by
    have hlen := length_remove (isSameness_meets _) (k := k) h.distinct
    rw [hk] at hlen
    rw [counting_count, counting_entries, erased_count, h.entries_erased, h.count_eq, ← hlen,
      Bool.toNat_true]
    omega

section access

variable [Access σ β K V] [Surroundings σ] [TruthfulAccess σ β K V] {env : σ}
  (ht : Truthful env)

include ht

theorem set_refused (hrefuse : allowsSet env = false) (k : K) (v : V) :
    t.set k v env = ⟨.error .notFound, t, afterSet env, []⟩ := by
  rw [Table.set, h.write_refused ht hrefuse]

theorem delete_absent {k : K} (hk : has (meets (place β t.capacity)) k t.entries = false) :
    t.delete k env = ⟨.error .notFound, t, env, []⟩ := by
  rw [Table.delete, h.contains_eq ht, hk]

theorem delete_allowed {k : K} (hk : has (meets (place β t.capacity)) k t.entries = true)
    (hallow : allowsDelete env = true) :
    t.delete k env = ⟨.ok (), (t.erased k).counting (-1), afterDelete env, []⟩ := by
  simp only [Table.delete, h.contains_eq ht, hk, h.erase_allowed ht hallow]

theorem delete_refused {k : K} (hk : has (meets (place β t.capacity)) k t.entries = true)
    (hrefuse : allowsDelete env = false) :
    t.delete k env = ⟨.error .notFound, t, afterDelete env, []⟩ := by
  rcases h.erase_refused ht hrefuse k with he | he
  · simp only [Table.delete, h.contains_eq ht, hk, he]
  · simp only [Table.delete, h.contains_eq ht, hk, he]

/-- A removal leaves the table as it was, or the entry of the key is gone. -/
theorem delete_cases (k : K) :
    ((t.delete k env).state = t ∨ has (meets (place β t.capacity)) k t.entries = true ∧
      (t.delete k env).state = (t.erased k).counting (-1)) ∧ Truthful (t.delete k env).env := by
  cases hk : has (meets (place β t.capacity)) k t.entries with
  | false =>
      rw [h.delete_absent ht hk]
      exact ⟨Or.inl rfl, ht⟩
  | true =>
      cases hallow : allowsDelete env with
      | false =>
          rw [h.delete_refused ht hk hallow]
          exact ⟨Or.inl rfl, truthful_afterDelete ht⟩
      | true =>
          rw [h.delete_allowed ht hk hallow]
          exact ⟨Or.inr ⟨rfl, rfl⟩, truthful_afterDelete ht⟩

/-- A write that is not refused, but after which an entry is refused when the table has to grow. -/
theorem set_unmoved (hallow : allowsSet env = true) {k : K} {v : V} (hdue : t.due k v = true)
    (hmove : ∃ j < (t.written k v).entries.length,
      allowsSet (afterSet^[j] (afterSet env)) = false) :
    (t.set k v env).answer = .error .notFound ∧ (t.set k v env).state = t.written k v := by
  obtain ⟨env', heq, _⟩ := (h.written k v).rehash_refused (truthful_afterSet ht) hmove
  rw [set_of_due ht hallow hdue, heq]
  exact ⟨rfl, rfl⟩

variable [EquivBEq K]

/-- A write that is not refused, and after which no entry is refused if the table has to grow. -/
theorem set_accepted (hallow : allowsSet env = true) {k : K} {v : V}
    (hmove : t.due k v = true →
      ∀ j < (t.written k v).entries.length, allowsSet (afterSet^[j] (afterSet env)) = true) :
    (t.set k v env).answer = .ok () ∧
      (t.set k v env).state.entries.Perm (put (meets (place β t.capacity)) k v t.entries) ∧
      (t.set k v env).state.capacity = if t.due k v then 2 * t.capacity else t.capacity := by
  cases hdue : t.due k v with
  | false =>
      rw [set_of_not_due ht hallow hdue]
      exact ⟨rfl, h.perm_written k v, rfl⟩
  | true =>
      obtain ⟨t', heq, hdoubles, _⟩ :=
        (h.written k v).rehash_allowed (truthful_afterSet ht) (hmove hdue)
      rw [set_of_due ht hallow hdue, heq]
      exact ⟨rfl, hdoubles.perm.trans (h.perm_written k v), hdoubles.capacity⟩

/-- A write leaves the table as it was, or has been carried out, and then the table may have doubled.
That a growth is given up makes no difference to the write. -/
theorem set_cases (k : K) (v : V) :
    ((t.set k v env).state = t ∨ (t.set k v env).state = t.written k v ∨
      (t.written k v).Doubles (t.set k v env).state) ∧ Truthful (t.set k v env).env := by
  cases hallow : allowsSet env with
  | false =>
      rw [h.set_refused ht hallow]
      exact ⟨Or.inl rfl, truthful_afterSet ht⟩
  | true =>
      have hw := h.written k v
      have htruth := truthful_afterSet ht
      cases hdue : t.due k v with
      | false =>
          rw [set_of_not_due ht hallow hdue]
          exact ⟨Or.inr (Or.inl rfl), htruth⟩
      | true =>
          rw [set_of_due ht hallow hdue]
          rcases allowed_or_refused (afterSet env) (t.written k v).entries.length with ha | hr
          · obtain ⟨t', heq, hdoubles, htruth'⟩ := hw.rehash_allowed htruth ha
            rw [heq]
            exact ⟨Or.inr (Or.inr hdoubles), htruth'⟩
          · obtain ⟨env', heq, htruth'⟩ := hw.rehash_refused htruth hr
            rw [heq]
            exact ⟨Or.inr (Or.inl rfl), htruth'⟩

theorem set (k : K) (v : V) :
    (t.set k v env).state.Sound ∧ Truthful (t.set k v env).env := by
  obtain ⟨hstate, htruth⟩ := h.set_cases ht k v
  refine ⟨?_, htruth⟩
  rcases hstate with hsame | hwritten | hdoubles
  · rw [hsame]
    exact h
  · rw [hwritten]
    exact h.written k v
  · exact hdoubles.sound

theorem delete (k : K) :
    (t.delete k env).state.Sound ∧ Truthful (t.delete k env).env := by
  obtain ⟨hstate, htruth⟩ := h.delete_cases ht k
  refine ⟨?_, htruth⟩
  rcases hstate with hsame | ⟨hk, herased⟩
  · rw [hsame]
    exact h
  · rw [herased]
    exact h.erased hk

/-! ### Runs -/

theorem apply (op : Store.Op K V) :
    (Store.apply t op env).state.Sound ∧ Truthful (Store.apply t op env).env := by
  cases op with
  | get k => exact ⟨h, by show Truthful (t.get k env).2; rw [h.get_eq ht]; exact ht⟩
  | set k v => exact h.set ht k v
  | delete k => exact h.delete ht k
  | contains k => exact ⟨h, by show Truthful (t.contains k env).2; rw [h.contains_eq ht]; exact ht⟩
  | clear => exact ⟨h.clear, ht⟩
  | size => exact ⟨h, ht⟩
  | isEmpty => exact ⟨h, ht⟩

theorem run (ops : List (Store.Op K V)) :
    (Store.run t env ops).state.Sound ∧ Truthful (Store.run t env ops).env := by
  induction ops generalizing t env with
  | nil => exact ⟨h, ht⟩
  | cons op ops ih =>
      obtain ⟨hs, htruth⟩ := h.apply ht op
      exact ih hs htruth

end access

end Sound

/-- After every run, whatever calls are refused: there are as many buckets as the capacity says, each
is sound down to its lists and holds only entries of its number, and the count is the number of
entries. -/
theorem run_create_invariant {K V : Type} [BEq K] [EquivBEq K] [Hashable K] (shape : Shape)
    (requested : Nat) {faults : Faults} (ht : faults.Truthful) (ops : List (Store.Op K V)) :
    let t := (Store.run (create (shape.factory K V) requested).1 faults ops).state
    1 ≤ t.capacity ∧ t.buckets.size = t.capacity ∧
      (∀ i (hi : i < t.buckets.size), shape.Sound t.buckets[i] ∧
        ∀ e ∈ Bucket.entries t.buckets[i], (hash e.1).toNat % t.capacity = i) ∧
      t.count = t.entries.length := by
  intro t
  have hs : t.Sound := ((sound_create shape.factory_lawful requested).run ht ops).1
  refine ⟨hs.capacity_pos, hs.size_buckets, fun i hi => ⟨?_, hs.placed i hi⟩, hs.count_eq⟩
  exact (shape.sound_iff _).mp (hs.sound i hi)

/-- Two equal keys of different hashes lie side by side in a table that has been refused a removal, an
attempt to grow and a write. -/
theorem run_create_invariant_refused :
    let shape := Shape.striped 2 .append
    let faults := (Faults.always .done .ignored).refusingAfter 4
    let ops : List (Store.Op Key Nat) := [.set (.custom 7 0) 1, .set (.custom 7 1) 2,
      .delete (.custom 7 0), .set (.custom 8 0) 3, .set (.custom 9 0) 4]
    let t := (Store.run (create (shape.factory Key Nat) 1).1 faults ops).state
    faults.Truthful ∧ EquivBEq Key ∧ t.count = 3 ∧
      (1 ≤ t.capacity ∧ t.buckets.size = t.capacity ∧
        (∀ i (hi : i < t.buckets.size), shape.Sound t.buckets[i] ∧
          ∀ e ∈ Bucket.entries t.buckets[i], (hash e.1).toNat % t.capacity = i) ∧
        t.count = t.entries.length) := by
  intro shape faults ops
  have ht : faults.Truthful :=
    (Faults.truthful_always (Or.inl rfl) (by decide)).refusingAfter 4
  refine ⟨ht, inferInstance, ?_, run_create_invariant shape 1 ht ops⟩
  decide +kernel

end Table
end HashStore
