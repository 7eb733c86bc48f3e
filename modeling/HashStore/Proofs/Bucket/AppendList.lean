import HashStore.Bucket.AppendList
import HashStore.Proofs.Bucket.Lawful

/-! # Lists that grow at the end are lawful

An `AppendList` is one row.  `AppendList.Sound` says what holds of it between operations: no two keys
are equal, and the kept number of entries is right. -/

namespace HashStore

open Entries

/-! ### First elements where there is at most one -/

section first

variable {α : Type} {p : α → Bool} {l : List α}

theorem updateFirst_eq_map {f : α → α} (h : l.Pairwise fun a b => p a = true → p b = false) :
    updateFirst p f l = l.map fun a => if p a then f a else a := by
  induction l with
  | nil => rfl
  | cons a rest ih =>
      have hrest := ih h.of_cons
      rw [updateFirst, List.map_cons]
      cases ha : p a with
      | false =>
          rw [if_neg Bool.false_ne_true, if_neg Bool.false_ne_true, hrest]
      | true =>
          rw [if_pos rfl, if_pos rfl]
          refine congrArg (f a :: ·) ((List.map_id rest).symm.trans ?_)
          refine List.map_congr_left fun b hb => ?_
          rw [List.rel_of_pairwise_cons h hb ha]
          rfl

theorem eraseP_eq_filter (h : l.Pairwise fun a b => p a = true → p b = false) :
    l.eraseP p = l.filter fun a => !p a := by
  induction l with
  | nil => rfl
  | cons a rest ih =>
      cases ha : p a with
      | false => rw [List.eraseP_cons_of_neg (by simp [ha]), ih h.of_cons]; simp [ha]
      | true =>
          rw [List.eraseP_cons_of_pos ha, List.filter_cons_of_neg (by simp [ha])]
          refine (List.filter_eq_self.mpr fun b hb => ?_).symm
          rw [List.rel_of_pairwise_cons h hb ha, Bool.not_false]

end first

variable {K V : Type} [BEq K]

theorem Entries.Distinct.found_once [EquivBEq K] {l : List (K × V)}
    (hd : Distinct (fun a b => a == b) l) (k : K) :
    l.Pairwise fun a b => (a.1 == k) = true → (b.1 == k) = false :=
  hd.imp fun hab ha => Distinct.unique_of_same isSameness_beq hab ha

/-- The place of all hashes in a bucket of one row. -/
def onlyPlace (_ : UInt64) : List Nat := []

@[simp] theorem meets_onlyPlace [Hashable K] :
    (meets onlyPlace : K → K → Bool) = fun a b => a == b := by
  funext a b
  simp [meets, onlyPlace]

/-! ### Lists that grow at the end -/

namespace AppendList

/-- What holds of a list between operations. -/
structure Sound (l : AppendList K V) : Prop where
  length_eq : l.length = l.entries.length
  distinct : Distinct (fun a b => a == b) l.entries

theorem sound_empty : (empty : AppendList K V).Sound := ⟨rfl, List.Pairwise.nil⟩

@[simp] theorem bucket_entries (l : AppendList K V) : Bucket.entries l = l.entries :=
  Layout.entries_row _

theorem contains_eq_has (l : AppendList K V) (k : K) :
    l.contains k = has (fun a b => a == b) k l.entries := rfl

variable [EquivBEq K]

theorem Sound.set {l : AppendList K V} (h : l.Sound) (k : K) (v : V) : (l.set k v).2.Sound := by
  unfold AppendList.set
  split
  · refine ⟨?_, ?_⟩
    · rw [updateFirst_eq_map (h.distinct.found_once k), List.length_map]
      exact h.length_eq
    · rw [updateFirst_eq_map (h.distinct.found_once k)]
      exact distinct_revalue h.distinct
  · rename_i hk
    refine ⟨?_, h.distinct.append_singleton (Bool.eq_false_iff.mpr hk)⟩
    simp [h.length_eq]

theorem Sound.delete {l : AppendList K V} (h : l.Sound) (k : K) : (l.delete k).2.Sound := by
  unfold AppendList.delete
  split
  · rename_i hk
    have hfilter := eraseP_eq_filter (h.distinct.found_once k)
    refine ⟨?_, ?_⟩
    · have hlen := length_remove isSameness_beq (k := k) h.distinct
      rw [← contains_eq_has, hk] at hlen
      rw [hfilter, h.length_eq, ← hlen]
      rfl
    · rw [hfilter]
      exact h.distinct.remove k
  · exact h

theorem Sound.wrote [Hashable K] {l : AppendList K V} (h : l.Sound) (k : K) (v : V) :
    Wrote onlyPlace false k v l.entries (l.set k v).1 (l.set k v).2.entries := by
  unfold AppendList.set
  split
  · rename_i hk
    rw [updateFirst_eq_map (h.distinct.found_once k)]
    have hw : Wrote onlyPlace false k v l.entries .updated
        (revalue (meets onlyPlace) k v l.entries) :=
      Wrote.updated (by rw [meets_onlyPlace]; exact hk)
    rwa [meets_onlyPlace] at hw
  · rename_i hk
    refine Wrote.inserted (List.append_nil _).symm ?_ (by simp)
    rw [meets_onlyPlace]
    exact Bool.eq_false_iff.mpr hk

theorem Sound.entries_delete {l : AppendList K V} (h : l.Sound) (k : K) :
    (l.delete k).2.entries = remove (fun a b => a == b) k l.entries := by
  unfold AppendList.delete
  split
  · exact eraseP_eq_filter (h.distinct.found_once k)
  · rename_i hk
    exact (remove_eq_self (Bool.eq_false_iff.mpr hk)).symm

instance [Hashable K] : LawfulBucket (AppendList K V) K V where
  Sound := Sound
  place := onlyPlace
  front := false
  distinct h := by simpa using h.distinct
  get_eq k h := by
    rw [meets_onlyPlace, bucket_entries]
    rfl
  contains_eq k h := by
    rw [meets_onlyPlace, bucket_entries]
    rfl
  sound_set k v h := h.set k v
  wrote_set k v h := by
    rw [bucket_entries, bucket_entries]
    exact h.wrote k v
  sound_delete k h := h.delete k
  delete_eq {b} k h := by
    rw [meets_onlyPlace, bucket_entries, ← contains_eq_has]
    show (b.delete k).1 = _
    unfold AppendList.delete
    cases b.contains k <;> rfl
  entries_delete k h := by
    rw [meets_onlyPlace, bucket_entries, bucket_entries]
    exact h.entries_delete k
  length_eq h := by
    rw [bucket_entries]
    exact h.length_eq
  isEmpty_eq _ := rfl
  forEach_const visit w _ := by
    rw [bucket_entries]
    rfl

end AppendList

end HashStore
