import Mathlib.Data.List.DropRight
import HashStore.Proofs.Bucket.Quiet
import HashStore.Store

/-! # The count of a table

A table counts what its buckets report, and nothing else.  `Table.posting?` says what a single
operation reports to the count: an insertion, a removal, or that the table has been emptied.  The
`balance` of such postings is that of the insertions and the removals since the table was last
emptied.  The count follows the postings in each operation (`Table.count_apply`), however wrong the
reports are, so it is their balance after every run (`Store.count_eq_balance`).  The writes by which
a table is rebuilt are not among them: a growth leaves the count as it is, whether it comes about or
is given up (`Table.rehash_keeps`).

A write attempts a growth if and only if it has posted an insertion that leaves the count above its
bound (`Table.attempts_set_iff`). -/

namespace HashStore

/-! ### Postings -/

/-- What an operation reports to the count of a table. -/
inductive Posting where
  /-- A bucket has reported an insertion. -/
  | inserted
  /-- A bucket has reported that a removal was carried out. -/
  | removed
  /-- The table has been emptied. -/
  | cleared
deriving DecidableEq

/-- What a posting makes of a count. -/
def Posting.book : Posting → Int → Int
  | inserted, n => n + 1
  | removed, n => n - 1
  | cleared, _ => 0

/-- What has been posted since the table was last emptied. -/
def recent (postings : List Posting) : List Posting := postings.rtakeWhile (· != .cleared)

/-- The insertions less the removals that have been posted since the table was last emptied. -/
def balance (postings : List Posting) : Int :=
  ((recent postings).count .inserted : Int) - (recent postings).count .removed

theorem recent_concat (postings : List Posting) {posting : Posting} (h : posting ≠ .cleared) :
    recent (postings ++ [posting]) = recent postings ++ [posting] := by
  rw [recent, List.rtakeWhile_concat, if_pos (bne_iff_ne.mpr h)]
  rfl

theorem balance_concat (postings : List Posting) (posting : Posting) :
    balance (postings ++ [posting]) = posting.book (balance postings) := by
  cases posting with
  | inserted =>
      have hcount : [Posting.inserted].count .removed = 0 := rfl
      rw [balance, recent_concat postings (by decide), List.count_append, List.count_append,
        List.count_singleton_self, hcount, Posting.book, balance]
      omega
  | removed =>
      have hcount : [Posting.removed].count .inserted = 0 := rfl
      rw [balance, recent_concat postings (by decide), List.count_append, List.count_append,
        List.count_singleton_self, hcount, Posting.book, balance]
      omega
  | cleared =>
      rw [balance, recent, List.rtakeWhile_concat]
      rfl

theorem natAbs_balance_le (postings : List Posting) :
    (balance postings).natAbs ≤ postings.length := by
  have hlen : (recent postings).length ≤ postings.length :=
    (List.rtakeWhile_suffix _ postings).length_le
  have hins := List.count_le_length (a := Posting.inserted) (l := recent postings)
  have hrem := List.count_le_length (a := Posting.removed) (l := recent postings)
  unfold balance
  omega

namespace Store

variable {S σ K V : Type} [Store S σ K V]

/-- What the operations of a run post, if `post` says what a single one posts. -/
def postings (post : S → Op K V → σ → Option Posting) (s : S) (env : σ) :
    List (Op K V) → List Posting
  | [] => []
  | op :: ops =>
    let r := apply s op env
    (post s op env).toList ++ postings post r.state r.env ops

variable {post : S → Op K V → σ → Option Posting}

theorem length_postings_le (s : S) (env : σ) (ops : List (Op K V)) :
    (postings post s env ops).length ≤ ops.length := by
  induction ops generalizing s env with
  | nil => exact Nat.le_refl 0
  | cons op ops ih =>
      have hrest := ih (apply s op env).state (apply s op env).env
      rw [postings, List.length_append, List.length_cons]
      cases post s op env with
      | none => exact Nat.le_succ_of_le (by simpa using hrest)
      | some posting =>
          rw [Option.toList_some, List.length_singleton]
          omega

theorem natAbs_balance_postings_le (s : S) (env : σ) (ops : List (Op K V)) :
    (balance (postings post s env ops)).natAbs ≤ ops.length :=
  (natAbs_balance_le _).trans (length_postings_le s env ops)

/-- If a count follows the postings in each operation, it is their balance after every run. -/
theorem count_eq_balance {count : S → Int}
    (hstep : ∀ s op env, count (apply s op env).state =
      (post s op env).elim (count s) fun posting => posting.book (count s))
    {s : S} {before : List Posting} (hs : count s = balance before) (env : σ)
    (ops : List (Op K V)) :
    count (run s env ops).state = balance (before ++ postings post s env ops) := by
  induction ops generalizing s env before with
  | nil => rw [postings, List.append_nil]; exact hs
  | cons op ops ih =>
      have hnext := hstep s op env
      rw [postings, ← List.append_assoc]
      refine ih ?_ (apply s op env).env
      rw [hnext, hs]
      cases post s op env with
      | none => rw [Option.toList_none, List.append_nil]; rfl
      | some posting => rw [Option.toList_some, balance_concat]; rfl

end Store

/-! ### Growth -/

/-- Whether a report tells of an attempt to grow. -/
def Event.tellsGrowth : Event → Bool
  | resized .. | aborted .. => true
  | _ => false

/-- Whether an operation has attempted a growth. -/
def Reply.attempts {α S σ : Type} (r : Reply α S σ) : Bool := r.events.any Event.tellsGrowth

variable {σ β K V : Type} [Hashable K] [Access σ β K V]

namespace Rebuild

theorem take_target (k : K) (v : V) (r : Rebuild β σ) :
    (take k v r).2.target = (r.target.write k v r.env).2.1 := by
  unfold take
  split <;> rename_i hwrite <;> rw [hwrite]

theorem takeAll_preserves [QuietAccess σ β K V] {P : Table β → Prop}
    (hwrite : ∀ t k v (env : σ), P t → P (t.write k v env).2.1) (bs : List β) (r : Rebuild β σ)
    (hr : P r.target) : P (takeAll bs r).target := by
  induction bs generalizing r with
  | nil => exact hr
  | cons b bs ih =>
      have hb : P (Access.forEach σ b take r).target := by
        refine QuietAccess.forEach_preserves (P := fun r : Rebuild β σ => P r.target) b
          (fun k v r hr => ?_) r hr
        rw [take_target]
        exact hwrite r.target k v r.env hr
      rw [takeAll]
      split
      · exact hb
      · exact ih _ hb

end Rebuild

namespace Table

theorem rehash_keeps [QuietAccess σ β K V] (t : Table β) (env : σ) :
    (t.rehash env).state.count = t.count ∧ (t.rehash env).state.factory = t.factory ∧
      ((t.rehash env).state.capacity = t.capacity ∨
        (t.rehash env).state.capacity = 2 * t.capacity) := by
  obtain ⟨hcount, hfactory, hcapacity⟩ := Rebuild.takeAll_preserves
    (P := fun t' => t'.count = t.count ∧ t'.factory = t.factory ∧ t'.capacity = 2 * t.capacity)
    (fun _ _ _ _ h => h) t.buckets.toList (⟨t.doubled, 0, env, none⟩ : Rebuild β σ)
    ⟨rfl, rfl, rfl⟩
  rw [rehash]
  split
  · exact ⟨rfl, rfl, Or.inl rfl⟩
  · exact ⟨hcount, hfactory, Or.inr hcapacity⟩

theorem attempts_rehash (t : Table β) (env : σ) : (t.rehash env).attempts = true := by
  rw [rehash, Reply.attempts]
  split
  · exact List.any_eq_true.mpr ⟨_, List.mem_append_right _ (List.mem_singleton_self _), rfl⟩
  · exact List.any_eq_true.mpr ⟨_, List.mem_append_right _ (List.mem_singleton_self _), rfl⟩

/-! ### Single operations -/

/-- What an operation on a table posts: whatever the bucket of a key is asked for, its answer is
believed. -/
def posting? (t : Table β) (op : Store.Op K V) (env : σ) : Option Posting :=
  match op with
  | .set k v =>
    match (Access.set (t.bucketAt (t.index (hash k))) k v env).1 with
    | .ok .inserted => some .inserted
    | _ => none
  | .delete k =>
    let b := t.bucketAt (t.index (hash k))
    let asked := Access.contains b k env
    match asked.1, (Access.delete b k asked.2).1 with
    | true, .ok true => some .removed
    | _, _ => none
  | .clear => some .cleared
  | _ => none

theorem write_answer (t : Table β) (k : K) (v : V) (env : σ) :
    (t.write k v env).1 = (Access.set (t.bucketAt (t.index (hash k))) k v env).1 := rfl

/-- A write that is not reported as an insertion is not counted. -/
theorem set_of_not_inserted {t : Table β} {k : K} {v : V} {env : σ}
    (h : (t.write k v env).1 ≠ .ok .inserted) :
    (t.set k v env).state = (t.write k v env).2.1 ∧ (t.set k v env).events = [] := by
  rw [set]
  split
  · rename_i hw
    rw [hw]
    exact ⟨rfl, rfl⟩
  · rename_i hw
    rw [hw]
    exact ⟨rfl, rfl⟩
  · rename_i hw
    rw [hw] at h
    exact absurd rfl h

/-- A write that is reported as an insertion is counted, and then the table may have to grow. -/
theorem set_of_inserted {t : Table β} {k : K} {v : V} {env : σ}
    (h : (t.write k v env).1 = .ok .inserted) :
    t.set k v env =
      if ((t.write k v env).2.1.counting 1).overloaded then
        ((t.write k v env).2.1.counting 1).rehash (t.write k v env).2.2
      else ⟨.ok (), (t.write k v env).2.1.counting 1, (t.write k v env).2.2, []⟩ := by
  obtain ⟨t', env', hw⟩ : ∃ t' env', t.write k v env = (.ok .inserted, t', env') :=
    ⟨_, _, Prod.ext h rfl⟩
  simp only [set, hw]
  split
  · rename_i hover
    rw [resize, if_pos hover]
  · rfl

/-- What the call to a bucket leaves, and counting and growth preserve, a write leaves. -/
theorem set_preserves {P : Table β → Prop} {t : Table β} {k : K} {v : V} {env : σ}
    (hwrite : P (t.write k v env).2.1) (hcounting : ∀ t, P t → P (t.counting 1))
    (hrehash : ∀ t (env : σ), P t → P (t.rehash env).state) : P (t.set k v env).state := by
  by_cases hnew : (t.write k v env).1 = .ok .inserted
  · rw [set_of_inserted hnew]
    split
    · exact hrehash _ _ (hcounting _ hwrite)
    · exact hcounting _ hwrite
  · rw [(set_of_not_inserted hnew).1]
    exact hwrite

/-- What holds of a table and after the call to a bucket, and is preserved by counting, holds after a
removal. -/
theorem delete_preserves {P : Table β → Prop} {t : Table β} (ht : P t) {k : K}
    (herase : ∀ env : σ, P (t.erase k env).2.1) (hcounting : ∀ t, P t → P (t.counting (-1)))
    (env : σ) : P (t.delete k env).state := by
  rw [delete]
  split
  · exact ht
  · rename_i env' _
    have hcall := herase env'
    split <;> rename_i he <;> rw [he] at hcall
    · exact hcall
    · exact hcall
    · exact hcounting _ hcall

/-- A write attempts a growth if and only if the bucket of its key reports an insertion, and the count
is then above its bound. -/
theorem attempts_set_iff (t : Table β) (k : K) (v : V) (env : σ) :
    (t.set k v env).attempts = true ↔
      (Access.set (t.bucketAt (t.index (hash k))) k v env).1 = .ok .inserted ∧ 0 < t.count + 1 ∧
        (2 * t.capacity : Int) < t.count + 1 := by
  rw [← write_answer]
  by_cases h : (t.write k v env).1 = .ok .inserted
  · rw [set_of_inserted h]
    have hover : ((t.write k v env).2.1.counting 1).overloaded = true ↔
        (2 * t.capacity : Int) < t.count + 1 := overloaded_iff
    split
    · rename_i hyes
      have hbound := hover.mp hyes
      exact iff_of_true (attempts_rehash _ _) ⟨h, by omega, hbound⟩
    · rename_i hno
      exact iff_of_false Bool.false_ne_true fun hall => hno (hover.mpr hall.2.2)
  · rw [Reply.attempts, (set_of_not_inserted h).2]
    exact iff_of_false Bool.false_ne_true fun hall => h hall.1

/-- A removal is counted if it is reported as carried out, and changes no capacity. -/
theorem delete_keeps (t : Table β) (k : K) (env : σ) :
    (t.delete k env).state.count =
      ((t.posting? (.delete k) env).elim t.count fun posting => posting.book t.count) ∧
      (t.delete k env).state.factory = t.factory ∧
      (t.delete k env).state.capacity = t.capacity := by
  rw [delete, contains, posting?]
  obtain ⟨found, env'⟩ := Access.contains (t.bucketAt (t.index (hash k))) k env
  cases found with
  | false => exact ⟨rfl, rfl, rfl⟩
  | true =>
      simp only [erase]
      obtain ⟨result, b', env''⟩ := Access.delete (t.bucketAt (t.index (hash k))) k env'
      match result with
      | .error _ | .ok false | .ok true => exact ⟨rfl, rfl, rfl⟩

variable [QuietAccess σ β K V]

theorem set_keeps (t : Table β) (k : K) (v : V) (env : σ) :
    (t.set k v env).state.factory = t.factory ∧
      ((t.set k v env).state.capacity = t.capacity ∨
        (t.set k v env).state.capacity = 2 * t.capacity) := by
  by_cases h : (t.write k v env).1 = .ok .inserted
  · rw [set_of_inserted h]
    split
    · exact (rehash_keeps _ _).2
    · exact ⟨rfl, Or.inl rfl⟩
  · rw [(set_of_not_inserted h).1]
    exact ⟨rfl, Or.inl rfl⟩

/-- The count follows what is posted. -/
theorem count_apply (t : Table β) (op : Store.Op K V) (env : σ) :
    (Store.apply t op env).state.count =
      (t.posting? op env).elim t.count fun posting => posting.book t.count := by
  cases op with
  | set k v =>
      show (t.set k v env).state.count = _
      by_cases h : (t.write k v env).1 = .ok .inserted
      · have hcount : (t.set k v env).state.count = t.count + 1 := by
          rw [set_of_inserted h]
          split
          · exact (rehash_keeps _ _).1
          · rfl
        rw [hcount, posting?, ← write_answer, h]
        rfl
      · rw [(set_of_not_inserted h).1, posting?, ← write_answer]
        split
        · rename_i hw
          exact absurd hw h
        · rfl
  | delete k => exact (delete_keeps t k env).1
  | clear => rfl
  | get k => rfl
  | contains k => rfl
  | size => rfl
  | isEmpty => rfl

end Table
end HashStore
