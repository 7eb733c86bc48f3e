import HashStore.Proofs.Bucket.Order
import HashStore.Proofs.Bucket.Striped

/-! # Stripes do not show

Where equal keys have equal hashes, stripes of stripes of lists do what one list of the innermost kind
does (`Shape.core`).  They give its answers, and each of the innermost lists is the part of it that the
stripes select, in its order: `Shape.split` divides a row in this way, and `Shape.layout_run` says that
every run leaves a row so divided.

What an operation makes of a row, it makes of every selection of keys from it that has the key of the
operation, and no other selection changes (`Bucket.filter_onRow`).  So each stripe takes the operations
on its own keys and no others. -/

namespace HashStore

open Entries

/-! ### Selections of keys -/

namespace Bucket

variable {K V : Type}

/-- Whether the key of an operation, if it has one, is selected. -/
def Op.concerns (p : K → Bool) : Op K V → Bool
  | .get k => p k
  | .set k _ => p k
  | .delete k => p k
  | .contains k => p k
  | .length => true
  | .isEmpty => true

variable [BEq K] {p : K → Bool} (hp : ∀ a b, (a == b) = true → p a = p b)

include hp

theorem has_filter {k : K} (hk : p k = true) (row : List (K × V)) :
    has (fun a b => a == b) k (row.filter fun e => p e.1) = has (fun a b => a == b) k row := by
  have hcongr : has (fun a b => p a && a == b) k row = has (fun a b => a == b) k row :=
    has_congr fun e _ => by
      cases he : e.1 == k with
      | false => rw [Bool.and_false]
      | true => rw [hp e.1 k he, hk, Bool.and_true]
  rw [has, List.any_filter]
  exact hcongr

theorem has_filter_eq_false {k : K} (hk : p k = false) (row : List (K × V)) :
    has (fun a b => a == b) k (row.filter fun e => p e.1) = false := by
  refine has_eq_false_iff.mpr fun e he => Bool.eq_false_iff.mpr fun hek => ?_
  have hsel : p e.1 = true := (List.mem_filter.mp he).2
  rw [hp e.1 k hek, hk] at hsel
  cases hsel

omit hp in
theorem filter_revalue (k : K) (v : V) (row : List (K × V)) :
    (revalue (fun a b => a == b) k v row).filter (fun e => p e.1) =
      revalue (fun a b => a == b) k v (row.filter fun e => p e.1) := by
  rw [revalue, List.filter_map]
  refine congrArg _ (List.filter_congr fun e _ => ?_)
  rw [Function.comp_apply]
  split <;> rfl

omit hp in
theorem filter_remove (k : K) (row : List (K × V)) :
    (remove (fun a b => a == b) k row).filter (fun e => p e.1) =
      remove (fun a b => a == b) k (row.filter fun e => p e.1) := by
  rw [remove, remove, List.filter_filter, List.filter_filter]
  exact List.filter_congr fun e _ => Bool.and_comm ..

theorem filter_onRow (front : Bool) (op : Op K V) (row : List (K × V)) :
    (op.onRow front row).filter (fun e => p e.1) =
      if op.concerns p then op.onRow front (row.filter fun e => p e.1)
      else row.filter fun e => p e.1 := by
  cases op with
  | set k v =>
      rw [Op.concerns, Op.onRow, Op.onRow]
      by_cases hk : p k = true
      · rw [if_pos hk, has_filter hp hk]
        split
        · exact filter_revalue k v row
        · cases front <;> simp [hk]
      · rw [if_neg hk]
        split
        · rw [filter_revalue, revalue_eq_self (has_filter_eq_false hp (by simpa using hk) row)]
        · cases front <;> simp [hk]
  | delete k =>
      rw [Op.concerns, Op.onRow, Op.onRow, filter_remove]
      by_cases hk : p k = true
      · rw [if_pos hk]
      · rw [if_neg hk, remove_eq_self (has_filter_eq_false hp (by simpa using hk) row)]
  | get k => exact (ite_self _).symm
  | contains k => exact (ite_self _).symm
  | length => rfl
  | isEmpty => rfl

end Bucket

/-! ### Operations on stripes -/

section stripes

variable {bits : Nat} {β K V : Type} [Hashable K] [Bucket β K V]

theorem Striped.layout_eq (s : Striped bits β) : Bucket.layout s =
    .stripes ((List.finRange (powerOfTwo bits)).map fun i => Bucket.layout (s.stripe i)) := by
  refine congrArg Layout.stripes ?_
  rw [toList_stripes, List.map_map]
  rfl

omit [Bucket β K V] in
theorem Striped.stripe_withStripe_slot (s : Striped bits β) (k : K) (f : β → β)
    (i : Fin (powerOfTwo bits)) :
    (s.withStripe (slot bits k) (f (s.stripe (slot bits k)))).stripe i =
      if decide (slot bits k = i) then f (s.stripe i) else s.stripe i := by
  rw [stripe_withStripe]
  by_cases hi : slot bits k = i
  · rw [if_pos hi, if_pos (decide_eq_true hi), hi]
  · rw [if_neg hi, if_neg (mt of_decide_eq_true hi)]

/-- An operation changes the stripe of its key, and no other.  Operations are rewritten here, not
unfolded, so that the number of the stripe is never computed. -/
theorem Striped.stripe_apply (s : Striped bits β) (op : Bucket.Op K V)
    (i : Fin (powerOfTwo bits)) :
    (Bucket.apply s op).2.stripe i =
      if op.concerns fun k => slot bits k = i then (Bucket.apply (s.stripe i) op).2
      else s.stripe i := by
  cases op with
  | set k v =>
      have hnew : (Bucket.apply s (.set k v)).2 =
          s.withStripe (slot bits k) (Bucket.apply (s.stripe (slot bits k)) (.set k v)).2 := rfl
      rw [hnew, Bucket.Op.concerns]
      exact s.stripe_withStripe_slot k (fun b => (Bucket.apply b (.set k v)).2) i
  | delete k =>
      have hnew : (Bucket.apply s (.delete k)).2 =
          s.withStripe (slot bits k) (Bucket.apply (s.stripe (slot bits k)) (.delete k)).2 := rfl
      rw [hnew, Bucket.Op.concerns]
      exact s.stripe_withStripe_slot k (fun b => (Bucket.apply b (.delete k)).2) i
  | get k => exact (ite_self _).symm
  | contains k => exact (ite_self _).symm
  | length => rfl
  | isEmpty => rfl

theorem Striped.slot_congr [BEq K] [LawfulHashable K] {a b : K} (h : (a == b) = true) :
    slot bits a = slot bits b :=
  Fin.ext (congrArg (stripeIndex bits) (LawfulHashable.hash_eq a b h))

end stripes

namespace Shape

/-- The shape of the innermost buckets. -/
def core : Shape → Shape
  | append => append
  | push => push
  | striped _ inner => inner.core

variable {K V : Type} [Hashable K]

/-- A row of entries as it lies in buckets of a shape: an entry is in the stripe of its key at every
level, and the innermost rows keep the order. -/
def split : Shape → List (K × V) → Layout K V
  | append, row => .row row
  | push, row => .row row
  | striped requested inner, row =>
    .stripes ((List.finRange (powerOfTwo (stripeBits requested))).map fun i =>
      inner.split (row.filter fun e => Striped.slot (stripeBits requested) e.1 = i))

variable [BEq K]

theorem layout_empty (shape : Shape) :
    Bucket.layout (shape.empty : shape.Content K V) = shape.split [] := by
  induction shape with
  | append => rfl
  | push => exact congrArg Layout.row PushList.entries_empty
  | striped requested inner ih =>
      refine (Striped.layout_eq _).trans (congrArg Layout.stripes (List.map_congr_left fun i _ => ?_))
      rw [List.filter_nil, ← ih]
      simp [empty, Striped.replicate, Striped.stripe]

variable [EquivBEq K]

theorem place_core (shape : Shape) :
    LawfulBucket.place (shape.core.Content K V) = onlyPlace := by
  induction shape with
  | append => rfl
  | push => rfl
  | striped requested inner ih => exact ih

theorem front_core (shape : Shape) :
    LawfulBucket.front (shape.core.Content K V) = LawfulBucket.front (shape.Content K V) := by
  induction shape with
  | append => rfl
  | push => rfl
  | striped requested inner ih => exact ih

variable [LawfulHashable K]

theorem layout_apply (shape : Shape) {b : shape.Content K V} (h : LawfulBucket.Sound b)
    {row : List (K × V)} (hb : Bucket.layout b = shape.split row) (op : Bucket.Op K V) :
    Bucket.layout (Bucket.apply b op).2 =
      shape.split (op.onRow (LawfulBucket.front (shape.Content K V)) row) := by
  induction shape generalizing row with
  | append =>
      obtain rfl : AppendList.entries b = row := Layout.row.inj hb
      have hentries := Bucket.entries_apply_row rfl h op
      exact congrArg Layout.row hentries
  | push =>
      obtain rfl : PushList.entries b = row := Layout.row.inj hb
      have hentries := Bucket.entries_apply_row rfl h op
      exact congrArg Layout.row hentries
  | striped requested inner ih =>
      have hstripe : ∀ i, Bucket.layout (Striped.stripe b i) =
          inner.split (row.filter fun e => Striped.slot (stripeBits requested) e.1 = i) := by
        have hall := Layout.stripes.inj ((Striped.layout_eq b).symm.trans hb)
        exact fun i => List.map_inj_left.mp hall i (List.mem_finRange i)
      refine (Striped.layout_eq _).trans (congrArg Layout.stripes (List.map_congr_left fun i _ => ?_))
      have hslot : ∀ a b : K, (a == b) = true →
          decide (Striped.slot (stripeBits requested) a = i) =
            decide (Striped.slot (stripeBits requested) b = i) :=
        fun a b hab => by rw [Striped.slot_congr hab]
      rw [Bucket.filter_onRow hslot]
      refine (congrArg Bucket.layout (Striped.stripe_apply _ op i)).trans ?_
      split
      · exact ih (Striped.Sound.stripe h i) (hstripe i)
      · exact hstripe i

theorem layout_run (shape : Shape) {b : shape.Content K V} (h : LawfulBucket.Sound b)
    {row : List (K × V)} (hb : Bucket.layout b = shape.split row) (ops : List (Bucket.Op K V)) :
    Bucket.layout (Bucket.run b ops).2 = shape.split
      (ops.foldl (fun row op => op.onRow (LawfulBucket.front (shape.Content K V)) row) row) := by
  induction ops generalizing b row with
  | nil => exact hb
  | cons op ops ih => exact ih (LawfulBucket.sound_apply h op) (shape.layout_apply h hb op)

/-- Stripes of any depth and number answer as one list of the innermost kind, and hold its entries,
divided between them and in its order. -/
theorem run_eq_run_core (shape : Shape) (ops : List (Bucket.Op K V)) :
    let r := Bucket.run (shape.empty : shape.Content K V) ops
    let c := Bucket.run (shape.core.empty : shape.core.Content K V) ops
    r.1 = c.1 ∧ Bucket.layout r.2 = shape.split (Bucket.entries c.2) := by
  intro r c
  have hshape : (shape.factory K V).Lawful := shape.factory_lawful
  have hcore : (shape.core.factory K V).Lawful := shape.core.factory_lawful
  constructor
  · obtain ⟨hanswers, -⟩ :=
      (Bucket.Follows.of_empty hshape.sound hshape.empty).run (meets_eq_beq _) ops
    obtain ⟨hanswers', -⟩ :=
      (Bucket.Follows.of_empty hcore.sound hcore.empty).run (meets_eq_beq _) ops
    exact hanswers.trans hanswers'.symm
  · have hrow := Bucket.entries_run_row shape.place_core hcore.sound ops
    rw [hcore.empty, shape.front_core] at hrow
    exact (shape.layout_run hshape.sound shape.layout_empty ops).trans
      (congrArg shape.split hrow.symm)

/-- Four keys in two stripes of four stripes each.  5 and 2, which share a list, come in the order of one
list, and 4 comes after them although it is newer than 2. -/
theorem run_nested_eq_run_core :
    let shape := Shape.striped 2 (.striped 3 .push)
    let ops : List (Bucket.Op UInt64 Nat) :=
      [.set 1 10, .set 2 20, .set 3 30, .set 4 40, .set 2 21, .delete 3, .set 5 50, .length, .get 2]
    let r := Bucket.run (shape.empty : shape.Content UInt64 Nat) ops
    let c := Bucket.run (shape.core.empty : shape.core.Content UInt64 Nat) ops
    EquivBEq UInt64 ∧ LawfulHashable UInt64 ∧
      Bucket.entries c.2 = [(5, 50), (4, 40), (2, 21), (1, 10)] ∧
      Bucket.entries r.2 = [(5, 50), (2, 21), (4, 40), (1, 10)] ∧
      r.1 = c.1 ∧ Bucket.layout r.2 = shape.split (Bucket.entries c.2) := by
  intro shape ops r c
  refine ⟨inferInstance, inferInstance, ?_, ?_, run_eq_run_core (.striped 2 (.striped 3 .push)) ops⟩
  · decide +kernel
  · decide +kernel

end Shape
end HashStore
