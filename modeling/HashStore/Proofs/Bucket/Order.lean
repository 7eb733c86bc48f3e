import HashStore.Proofs.Bucket.PushList
import HashStore.Proofs.Dict
import HashStore.Proofs.Key

/-! # Answers and the order of entries

A bucket in which keys count as one if they are equal answers as a finite map does, in whatever order
its entries lie (`Bucket.Follows.run`).

In a bucket of one row the order is a matter of the operations alone (`Bucket.Op.onRow`), and the two
ends at which a row can grow make one order the reverse of the other (`Bucket.onRow_reverse`).  So the
two lists give the same answers and are traversed in opposite orders. -/

namespace HashStore

open Entries

/-! ### Finite maps as buckets -/

namespace Dict

variable {K V : Type} [BEq K]

/-- Carries out an operation of a bucket. -/
def perform (d : Dict K V) : Bucket.Op K V → Bucket.Answer V × Dict K V
  | .get k => (.value (d.lookup k), d)
  | .set k v => (.written (if d.contains k then .updated else .inserted), d.insert k v)
  | .delete k => (.truth (d.contains k), d.erase k)
  | .contains k => (.truth (d.contains k), d)
  | .length => (.count d.size, d)
  | .isEmpty => (.truth (d.size == 0), d)

def performAll (d : Dict K V) : List (Bucket.Op K V) → List (Bucket.Answer V) × Dict K V
  | [] => ([], d)
  | op :: ops =>
    let r := d.perform op
    let rest := r.2.performAll ops
    (r.1 :: rest.1, rest.2)

end Dict

namespace Bucket

/-! ### Answers -/

section answers

variable {β K V : Type} [BEq K] [Hashable K] [Bucket β K V] [LawfulBucket β K V]

/-- A bucket has the entries of a finite map. -/
structure Follows (b : β) (d : Dict K V) : Prop where
  sound : LawfulBucket.Sound b
  perm : (entries b).Perm d.entries

theorem Follows.of_empty {b : β} (h : LawfulBucket.Sound b) (hempty : entries b = []) :
    Follows b (Dict.empty : Dict K V) := ⟨h, by rw [hempty]; rfl⟩

variable [EquivBEq K]
  (hmeets : (meets (LawfulBucket.place β) : K → K → Bool) = fun a b => a == b)
  {b : β} {d : Dict K V}

include hmeets

theorem Follows.apply (h : Follows b d) (op : Op K V) :
    (Bucket.apply b op).1 = (d.perform op).1 ∧ Follows (Bucket.apply b op).2 (d.perform op).2 := by
  have hhas : ∀ k, has (fun a b => a == b) k (entries b) = d.contains k := fun k => has_perm h.perm
  have hlength : Bucket.length b = d.size := (LawfulBucket.length_eq h.sound).trans h.perm.length_eq
  cases op with
  | get k =>
      refine ⟨congrArg Answer.value ?_, h⟩
      have hdistinct := LawfulBucket.distinct h.sound
      rw [hmeets] at hdistinct
      rw [LawfulBucket.get_eq k h.sound, hmeets, find_perm isSameness_beq hdistinct h.perm]
      rfl
  | set k v =>
      have hwrote := LawfulBucket.wrote_set k v h.sound
      refine ⟨congrArg Answer.written ?_, LawfulBucket.sound_set k v h.sound, ?_⟩
      · rw [hwrote.how_eq, hmeets, hhas]
      · have hperm := hwrote.perm_put
        rw [hmeets] at hperm
        exact hperm.trans (put_perm h.perm)
  | delete k =>
      refine ⟨congrArg Answer.truth ?_, LawfulBucket.sound_delete k h.sound, ?_⟩
      · rw [LawfulBucket.delete_eq k h.sound, hmeets, hhas]
      · show (entries (Bucket.delete b k).2).Perm _
        rw [LawfulBucket.entries_delete k h.sound, hmeets]
        exact remove_perm h.perm
  | contains k =>
      refine ⟨congrArg Answer.truth ?_, h⟩
      rw [LawfulBucket.contains_eq k h.sound, hmeets, hhas]
  | length => exact ⟨congrArg Answer.count hlength, h⟩
  | isEmpty =>
      refine ⟨congrArg Answer.truth ?_, h⟩
      rw [LawfulBucket.isEmpty_eq h.sound, hlength]

/-- In every run a bucket answers as a finite map. -/
theorem Follows.run (h : Follows b d) (ops : List (Op K V)) :
    (Bucket.run b ops).1 = (d.performAll ops).1 ∧
      Follows (Bucket.run b ops).2 (d.performAll ops).2 := by
  induction ops generalizing b d with
  | nil => exact ⟨rfl, h⟩
  | cons op ops ih =>
      obtain ⟨hanswer, hnext⟩ := h.apply hmeets op
      obtain ⟨hrest, hend⟩ := ih hnext
      exact ⟨congrArg₂ List.cons hanswer hrest, hend⟩

end answers

/-! ### Rows -/

section rows

variable {K V : Type} [BEq K]

/-- What an operation makes of a row of entries.  A new entry goes to the front of it if `front` holds,
and to the end if not. -/
def Op.onRow (front : Bool) (op : Op K V) (row : List (K × V)) : List (K × V) :=
  match op with
  | .set k v =>
    if has (fun a b => a == b) k row then revalue (fun a b => a == b) k v row
    else if front then (k, v) :: row else row ++ [(k, v)]
  | .delete k => remove (fun a b => a == b) k row
  | _ => row

theorem onRow_reverse (op : Op K V) (row : List (K × V)) :
    op.onRow true row.reverse = (op.onRow false row).reverse := by
  cases op with
  | set k v =>
      have hhas : has (fun a b => a == b) k row.reverse = has (fun a b => a == b) k row :=
        has_perm row.reverse_perm
      unfold Op.onRow
      dsimp only
      rw [hhas]
      split
      · exact List.map_reverse
      · simp
  | delete k => exact List.filter_reverse
  | _ => rfl

theorem onRow_foldl_reverse (ops : List (Op K V)) (row : List (K × V)) :
    ops.foldl (fun row op => op.onRow true row) row.reverse =
      (ops.foldl (fun row op => op.onRow false row) row).reverse := by
  induction ops generalizing row with
  | nil => rfl
  | cons op ops ih => rw [List.foldl_cons, List.foldl_cons, onRow_reverse, ih]

theorem entries_perform (d : Dict K V) (op : Op K V) :
    (d.perform op).2.entries = op.onRow false d.entries := by
  cases op <;> rfl

theorem entries_performAll (d : Dict K V) (ops : List (Op K V)) :
    (d.performAll ops).2.entries = ops.foldl (fun row op => op.onRow false row) d.entries := by
  induction ops generalizing d with
  | nil => rfl
  | cons op ops ih => rw [List.foldl_cons, ← entries_perform]; exact ih _

variable {β : Type} [Hashable K] [Bucket β K V] [LawfulBucket β K V]
  (hrow : LawfulBucket.place β = onlyPlace)

include hrow

/-- An operation on a bucket of one row is the operation on the row: all entries have one place, so none
stands on the far side of a new one. -/
theorem entries_apply_row {b : β} (h : LawfulBucket.Sound b) (op : Op K V) :
    entries (apply b op).2 = op.onRow (LawfulBucket.front β) (entries b) := by
  cases op with
  | set k v =>
      have hwrote := LawfulBucket.wrote_set k v h
      rw [hrow] at hwrote
      show entries (Bucket.set b k v).2 = _
      generalize entries (Bucket.set b k v).2 = new at hwrote ⊢
      generalize (Bucket.set b k v).1 = how at hwrote
      unfold Op.onRow
      dsimp only
      cases hwrote with
      | updated hk =>
          rw [meets_onlyPlace] at hk ⊢
          rw [if_pos hk]
      | @inserted a c hold hk hend =>
          rw [meets_onlyPlace] at hk
          rw [hk, if_neg Bool.false_ne_true, hold]
          have hnone : (if LawfulBucket.front β then a else c) = [] :=
            List.eq_nil_iff_forall_not_mem.mpr fun e he => hend e he rfl
          cases hfront : LawfulBucket.front β with
          | true =>
              rw [hfront, if_pos rfl] at hnone
              rw [hnone]
              rfl
          | false =>
              rw [hfront, if_neg Bool.false_ne_true] at hnone
              rw [hnone, List.append_nil]
              rfl
  | delete k =>
      have hdelete := LawfulBucket.entries_delete k h
      rw [hrow, meets_onlyPlace] at hdelete
      exact hdelete
  | _ => rfl

theorem entries_run_row {b : β} (h : LawfulBucket.Sound b) (ops : List (Op K V)) :
    entries (run b ops).2 =
      ops.foldl (fun row op => op.onRow (LawfulBucket.front β) row) (entries b) := by
  induction ops generalizing b with
  | nil => rfl
  | cons op ops ih =>
      rw [List.foldl_cons, ← entries_apply_row hrow h]
      exact ih (LawfulBucket.sound_apply h op)

end rows

/-! ### The order of a traversal -/

section visited

variable {β K V : Type} [Bucket β K V]

/-- The entries that a traversal visits, in the order of the visits. -/
def visited (b : β) : List (K × V) :=
  (forEach (fun _ => b) (fun k v seen => (true, seen ++ [(k, v)])) []).2

theorem visitAll_collect (es seen : List (K × V)) :
    (visitAll (fun k v seen => (true, seen ++ [(k, v)])) es seen).2 = seen ++ es := by
  induction es generalizing seen with
  | nil => exact (List.append_nil seen).symm
  | cons e es ih => exact (ih _).trans (List.append_assoc ..)

theorem visited_eq_entries [BEq K] [Hashable K] [LawfulBucket β K V] {b : β}
    (h : LawfulBucket.Sound b) : visited b = entries b := by
  rw [visited, LawfulBucket.forEach_const _ _ h, visitAll_collect, List.nil_append]

end visited

/-- Both lists answer as a finite map.  The one is traversed in the order in which the keys came in, the
other in the reverse of it, and both know how many entries a traversal visits. -/
theorem run_lists_eq_dict {K V : Type} [BEq K] [EquivBEq K] (ops : List (Op K V)) :
    let a := run (AppendList.empty : AppendList K V) ops
    let p := run (PushList.empty : PushList K V) ops
    let d := (Dict.empty : Dict K V).performAll ops
    a.1 = d.1 ∧ p.1 = d.1 ∧
      visited a.2 = d.2.entries ∧ visited p.2 = d.2.entries.reverse ∧
      length a.2 = (visited a.2).length ∧ length p.2 = (visited p.2).length := by
  intro a p d
  let anyHash : Hashable K := ⟨fun _ => 0⟩
  have hempty : entries (AppendList.empty : AppendList K V) = [] := AppendList.bucket_entries _
  have hempty' : entries (PushList.empty : PushList K V) = [] := by simp
  have ha : LawfulBucket.Sound (AppendList.empty : AppendList K V) := AppendList.sound_empty
  have hp : LawfulBucket.Sound (PushList.empty : PushList K V) := PushList.sound_empty
  obtain ⟨hanswers, hfollows⟩ := (Follows.of_empty ha hempty).run meets_onlyPlace ops
  obtain ⟨hanswers', hfollows'⟩ := (Follows.of_empty hp hempty').run meets_onlyPlace ops
  have hvisited := visited_eq_entries hfollows.sound
  have hvisited' := visited_eq_entries hfollows'.sound
  refine ⟨hanswers, hanswers', ?_, ?_, ?_, ?_⟩
  · rw [hvisited, entries_run_row rfl ha, hempty]
    exact (entries_performAll Dict.empty ops).symm
  · rw [hvisited', entries_run_row rfl hp, hempty', entries_performAll]
    exact onRow_foldl_reverse ops []
  · rw [hvisited]
    exact LawfulBucket.length_eq hfollows.sound
  · rw [hvisited']
    exact LawfulBucket.length_eq hfollows'.sound

/-- A key that comes again with another hash is the same key, and the stored one stays. -/
theorem run_lists_custom_keys :
    let ops : List (Op Key Nat) :=
      [.set (.custom 1 5) 10, .set (.custom 2 5) 20, .set (.custom 1 9) 11, .delete (.custom 3 5),
        .set (.custom 3 5) 30, .delete (.custom 2 7), .get (.custom 1 0), .length]
    let a := run (AppendList.empty : AppendList Key Nat) ops
    let p := run (PushList.empty : PushList Key Nat) ops
    let d := (Dict.empty : Dict Key Nat).performAll ops
    EquivBEq Key ∧
      a.1 = [.written .inserted, .written .inserted, .written .updated, .truth false,
        .written .inserted, .truth true, .value (some 11), .count 2] ∧
      visited a.2 = [(.custom 1 5, 11), (.custom 3 5, 30)] ∧
      a.1 = d.1 ∧ p.1 = d.1 ∧
      visited a.2 = d.2.entries ∧ visited p.2 = d.2.entries.reverse ∧
      length a.2 = (visited a.2).length ∧ length p.2 = (visited p.2).length := by
  intro ops a p d
  refine ⟨inferInstance, ?_, ?_, run_lists_eq_dict ops⟩
  · rfl
  · rfl

end Bucket
end HashStore
