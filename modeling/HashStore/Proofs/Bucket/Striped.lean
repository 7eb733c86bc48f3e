import HashStore.Bucket.Shape
import HashStore.Proofs.Bucket.AppendList
import HashStore.Proofs.Bucket.PushList

/-! # Striped buckets are lawful

Stripes over lawful buckets are a lawful bucket again, provided that every entry lies in the stripe
of its key (`Striped.Sound`).  So the buckets of every shape are lawful (`Shape.lawful`), and
`Shape.Sound` says outright what holds of them at every depth. -/

namespace HashStore

open Entries

namespace Striped

variable {bits : Nat} {β K V : Type} [Bucket β K V]

theorem toList_stripes (s : Striped bits β) :
    s.stripes.toList = (List.finRange (powerOfTwo bits)).map s.stripe := by
  refine List.ext_getElem (by simp) fun i h₁ h₂ => ?_
  simp [stripe]

omit [Bucket β K V] in
theorem stripe_withStripe (s : Striped bits β) (i : Fin (powerOfTwo bits)) (b : β)
    (j : Fin (powerOfTwo bits)) :
    (s.withStripe i b).stripe j = if i = j then b else s.stripe j := by
  simp only [withStripe, stripe, Fin.getElem_fin, Vector.getElem_set, Fin.ext_iff]

theorem visitStripes_const {ω : Type} (s : Striped bits β) (visit : K → V → ω → Bool × ω)
    (hin : ∀ i (w : ω), Bucket.forEach (fun _ => s.stripe i) visit w =
      visitAll visit (Bucket.entries (s.stripe i)) w) (is : List (Fin (powerOfTwo bits))) (w : ω) :
    visitStripes (fun _ => s) visit is w =
      visitAll visit (is.flatMap fun i => Bucket.entries (s.stripe i)) w := by
  induction is generalizing w with
  | nil => rfl
  | cons i rest ih =>
      rw [visitStripes, List.flatMap_cons, visitAll_append]
      simp only [hin, ih]

variable [Hashable K]

theorem bucket_entries (s : Striped bits β) :
    Bucket.entries s = s.stripes.toList.flatMap Bucket.entries := by
  show (Layout.stripes (s.stripes.toList.map Bucket.layout)).entries = _
  rw [Layout.entries_stripes, List.flatMap_map]
  rfl

theorem entries_eq_flatMap (s : Striped bits β) : Bucket.entries s =
    (List.finRange (powerOfTwo bits)).flatMap fun i => Bucket.entries (s.stripe i) := by
  rw [bucket_entries, toList_stripes, List.flatMap_map]

theorem entries_replicate (bits : Nat) {b : β} (hempty : Bucket.entries b = []) :
    Bucket.entries (replicate bits b) = [] := by
  rw [bucket_entries, List.flatMap_eq_nil_iff]
  intro c hc
  rw [replicate, Vector.toList_replicate] at hc
  rw [List.eq_of_mem_replicate hc, hempty]

variable [BEq K] [LawfulBucket β K V]

/-- What holds of a striped bucket between operations. -/
structure Sound (s : Striped bits β) : Prop where
  stripe : ∀ i, LawfulBucket.Sound (s.stripe i)
  placed : ∀ i, ∀ e ∈ Bucket.entries (s.stripe i), slot bits e.1 = i

/-- The way to the row of a hash: first its stripe. -/
def place (bits : Nat) (β : Type) {K V : Type} [BEq K] [Hashable K] [Bucket β K V]
    [LawfulBucket β K V] (u : UInt64) : List Nat :=
  stripeIndex bits u :: LawfulBucket.place β u

theorem sound_replicate (bits : Nat) {b : β} (hb : LawfulBucket.Sound b)
    (hempty : Bucket.entries b = []) : (replicate bits b).Sound where
  stripe i := by simpa [replicate, Striped.stripe] using hb
  placed i e he := by simp [replicate, Striped.stripe, hempty] at he

namespace Sound

variable {s : Striped bits β} (h : s.Sound)

include h

theorem index_eq (j : Nat) (hj : j < s.stripes.toList.length) :
    ∀ e ∈ Bucket.entries s.stripes.toList[j], stripeIndex bits (hash e.1) = j := by
  intro e he
  have hj' : j < powerOfTwo bits := by simpa using hj
  have := h.placed ⟨j, hj'⟩ e (by simpa [Striped.stripe] using he)
  exact congrArg Fin.val this

theorem exists_split (i : Fin (powerOfTwo bits)) :
    ∃ a b, Bucket.entries s = a ++ Bucket.entries (s.stripe i) ++ b ∧
      (∀ c, Bucket.entries (s.withStripe i c) = a ++ Bucket.entries c ++ b) ∧
      ∀ e ∈ a ++ b, stripeIndex bits (hash e.1) ≠ i := by
  have hi : i.val < s.stripes.toList.length := by simp
  obtain ⟨a, b, hold, hnew, hother⟩ := exists_flatMap_set (stripeIndex bits) hi h.index_eq
  refine ⟨a, b, ?_, ?_, hother⟩
  · rw [bucket_entries, hold]
    simp [Striped.stripe]
  · intro c
    rw [bucket_entries, ← hnew c, withStripe, Vector.toList_set]

/-- The entries of the stripe of a key all have the number of that stripe. -/
theorem index_slot (k : K) : ∀ e ∈ Bucket.entries (s.stripe (slot bits k)),
    stripeIndex bits (hash e.1) = stripeIndex bits (hash k) :=
  fun e he => congrArg Fin.val (h.placed (slot bits k) e he)

theorem withStripe {i : Fin (powerOfTwo bits)} {b : β} (hb : LawfulBucket.Sound b)
    (hplaced : ∀ e ∈ Bucket.entries b, slot bits e.1 = i) : (s.withStripe i b).Sound := by
  refine ⟨fun j => ?_, fun j e he => ?_⟩
  · rw [stripe_withStripe]
    split
    · exact hb
    · exact h.stripe j
  · rw [stripe_withStripe] at he
    split at he
    · rename_i hj
      rw [← hj]
      exact hplaced e he
    · exact h.placed j e he

end Sound

instance : LawfulBucket (Striped bits β) K V where
  Sound := Sound
  place := place bits β
  front := LawfulBucket.front β
  distinct {s} h := by
    rw [bucket_entries]
    refine distinct_flatMap (stripeIndex bits) (fun b hb => ?_) h.index_eq
    rw [toList_stripes] at hb
    obtain ⟨i, _, rfl⟩ := List.mem_map.mp hb
    exact LawfulBucket.distinct (h.stripe i)
  get_eq {s} k h := by
    obtain ⟨a, b, hold, _, hother⟩ := h.exists_split (slot bits k)
    rw [hold]
    unfold place
    rw [find_layer (h.index_slot k) hother]
    exact LawfulBucket.get_eq k (h.stripe _)
  contains_eq {s} k h := by
    obtain ⟨a, b, hold, _, hother⟩ := h.exists_split (slot bits k)
    rw [hold]
    unfold place
    rw [has_layer (h.index_slot k) hother]
    exact LawfulBucket.contains_eq k (h.stripe _)
  sound_set {s} k v h := by
    refine h.withStripe (LawfulBucket.sound_set k v (h.stripe _)) fun e he => ?_
    have hw := LawfulBucket.wrote_set k v (h.stripe (slot bits k))
    exact hw.forall_key (P := fun k' => slot bits k' = slot bits k) (h.placed _) rfl e he
  wrote_set {s} k v h := by
    obtain ⟨a, b, hold, hnew, hother⟩ := h.exists_split (slot bits k)
    rw [hold]
    show Wrote _ _ _ _ _ _ (Bucket.entries (s.withStripe _ _))
    rw [hnew]
    exact (LawfulBucket.wrote_set k v (h.stripe _)).layer (h.index_slot k) hother
  sound_delete {s} k h := by
    refine h.withStripe (LawfulBucket.sound_delete k (h.stripe _)) ?_
    rw [LawfulBucket.entries_delete k (h.stripe _)]
    exact fun e he => h.placed (slot bits k) e (List.mem_filter.mp he |>.1)
  delete_eq {s} k h := by
    obtain ⟨a, b, hold, _, hother⟩ := h.exists_split (slot bits k)
    rw [hold]
    unfold place
    rw [has_layer (h.index_slot k) hother]
    exact LawfulBucket.delete_eq k (h.stripe _)
  entries_delete {s} k h := by
    obtain ⟨a, b, hold, hnew, hother⟩ := h.exists_split (slot bits k)
    rw [hold]
    unfold place
    rw [remove_layer (h.index_slot k) hother, ← LawfulBucket.entries_delete k (h.stripe _), ← hnew]
    rfl
  length_eq {s} h := by
    rw [bucket_entries, length_flatMap_eq_total]
    refine total_congr fun b hb => ?_
    rw [toList_stripes] at hb
    obtain ⟨i, _, rfl⟩ := List.mem_map.mp hb
    exact LawfulBucket.length_eq (h.stripe i)
  isEmpty_eq _ := rfl
  forEach_const {ω s} visit w h := by
    show visitStripes (fun _ => s) visit (List.finRange _) w = _
    rw [visitStripes_const s visit (fun i w => LawfulBucket.forEach_const visit w (h.stripe i)),
      entries_eq_flatMap]

end Striped

/-! ### Buckets of every shape -/

namespace Shape

variable {K V : Type} [BEq K] [EquivBEq K] [Hashable K]

/-- The buckets of a shape are lawful. -/
instance lawful : (shape : Shape) → LawfulBucket (shape.Content K V) K V
  | append => inferInstanceAs (LawfulBucket (AppendList K V) K V)
  | push => inferInstanceAs (LawfulBucket (PushList K V) K V)
  | striped requested inner =>
    have := lawful inner
    inferInstanceAs (LawfulBucket (Striped (stripeBits requested) (inner.Content K V)) K V)

/-- What holds of a bucket of a shape between operations: of a list what is said there, and of stripes
that this holds in each of them and every entry lies in the stripe of its key. -/
def Sound : (shape : Shape) → shape.Content K V → Prop
  | append => AppendList.Sound
  | push => PushList.Sound
  | striped requested inner => fun s : Striped (stripeBits requested) (inner.Content K V) =>
    ∀ i, inner.Sound (s.stripe i) ∧
      ∀ e ∈ Bucket.entries (s.stripe i), Striped.slot (stripeBits requested) e.1 = i

theorem sound_iff (shape : Shape) (b : shape.Content K V) :
    LawfulBucket.Sound b ↔ shape.Sound b := by
  induction shape with
  | append => rfl
  | push => rfl
  | striped requested inner ih =>
      constructor
      · intro h i
        exact ⟨(ih _).mp (Striped.Sound.stripe h i), Striped.Sound.placed h i⟩
      · intro h
        exact Striped.Sound.mk (fun i => (ih _).mpr (h i).1) fun i => (h i).2

theorem factory_lawful (shape : Shape) : (shape.factory K V).Lawful := by
  induction shape with
  | append => exact ⟨AppendList.sound_empty, AppendList.bucket_entries _⟩
  | push => exact ⟨PushList.sound_empty, (PushList.bucket_entries _).trans PushList.entries_empty⟩
  | striped requested inner ih =>
      exact ⟨Striped.sound_replicate _ ih.sound ih.empty, Striped.entries_replicate _ ih.empty⟩

end Shape
end HashStore
