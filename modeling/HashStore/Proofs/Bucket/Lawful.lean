import HashStore.Bucket.Basic
import HashStore.Reply
import HashStore.Proofs.Entries

/-! # Lawful buckets

A bucket lays its entries out in rows, and the hash of a key alone says in which row the key is
looked for: `place` gives the way there, as the numbers of the stripes from the outermost to the
innermost.  Keys therefore count as one in a bucket if they are equal and their hashes have one
place (`meets`).  Where equal keys have equal hashes that is equality (`meets_eq_beq`), but nothing
below depends on it.

`Wrote` says what a write does to the entries, including where a new entry goes, and `LawfulBucket`
collects what the operations of a bucket do in terms of `meets`.  A row of buckets between which keys
are divided by their hashes behaves like one bucket again (`Wrote.layer`, `remove_layer`); stripes and
the buckets of a table are both instances of that. -/

namespace HashStore

open Entries

/-! ### The entries of a bucket -/

namespace Layout

variable {K V : Type}

theorem entriesOfAll_eq_flatMap (parts : List (Layout K V)) :
    entriesOfAll parts = parts.flatMap entries := by
  induction parts with
  | nil => rfl
  | cons part rest ih => rw [entriesOfAll, ih, List.flatMap_cons]

@[simp] theorem entries_row (list : List (K × V)) : (row list).entries = list := by
  rw [entries]

@[simp] theorem entries_stripes (parts : List (Layout K V)) :
    (stripes parts).entries = parts.flatMap entries := by
  rw [entries, entriesOfAll_eq_flatMap]

end Layout

/-- The entries of a bucket, one row after another. -/
def Bucket.entries {β K V : Type} [Bucket β K V] (b : β) : List (K × V) :=
  (Bucket.layout b).entries

/-! ### Keys that count as one -/

section meets

variable {K : Type} [BEq K] [Hashable K]

/-- Two keys meet if they are equal and are looked for in the same place. -/
def meets (place : UInt64 → List Nat) (a b : K) : Bool :=
  a == b && place (hash a) == place (hash b)

theorem meets_eq_true_iff {place : UInt64 → List Nat} {a b : K} :
    meets place a b = true ↔ (a == b) = true ∧ place (hash a) = place (hash b) := by
  simp [meets]

theorem isSameness_meets [EquivBEq K] (place : UInt64 → List Nat) :
    IsSameness (meets place : K → K → Bool) where
  refl a := meets_eq_true_iff.mpr ⟨BEq.rfl, rfl⟩
  symm h := by
    obtain ⟨heq, hplace⟩ := meets_eq_true_iff.mp h
    exact meets_eq_true_iff.mpr ⟨BEq.symm heq, hplace.symm⟩
  trans h h' := by
    obtain ⟨heq, hplace⟩ := meets_eq_true_iff.mp h
    obtain ⟨heq', hplace'⟩ := meets_eq_true_iff.mp h'
    exact meets_eq_true_iff.mpr ⟨BEq.trans heq heq', hplace.trans hplace'⟩

omit [Hashable K] in
theorem isSameness_beq [EquivBEq K] : IsSameness (fun a b : K => a == b) where
  refl _ := BEq.rfl
  symm := BEq.symm
  trans := BEq.trans

/-- Where equal keys have equal hashes, keys count as one if they are equal. -/
theorem meets_eq_beq [LawfulHashable K] (place : UInt64 → List Nat) :
    (meets place : K → K → Bool) = fun a b => a == b := by
  funext a b
  cases h : a == b with
  | false => simp [meets, h]
  | true => simp [meets, h, LawfulHashable.hash_eq a b h]

/-- Keys that count as one still do so if places are less fine. -/
theorem meets_of_meets {place place' : UInt64 → List Nat} {a b : K}
    (hle : ∀ u v, place u = place v → place' u = place' v) (h : meets place a b = true) :
    meets place' a b = true := by
  obtain ⟨heq, hplace⟩ := meets_eq_true_iff.mp h
  exact meets_eq_true_iff.mpr ⟨heq, hle _ _ hplace⟩

variable {sel : UInt64 → Nat} {place : UInt64 → List Nat}

theorem meets_cons_of_eq {a b : K} (h : sel (hash a) = sel (hash b)) :
    meets (fun u => sel u :: place u) a b = meets place a b := by
  simp [meets, h]

theorem meets_cons_of_ne {a b : K} (h : sel (hash a) ≠ sel (hash b)) :
    meets (fun u => sel u :: place u) a b = false := by
  simp [meets, h]

end meets

/-! ### What a write does to the entries -/

section wrote

variable {K V : Type} [BEq K] [Hashable K]

/-- What a write of a key and a value makes of the entries `old`, and how it is reported.  A new
entry goes before all entries of its row if `front` holds, and behind all of them if not. -/
inductive Wrote (place : UInt64 → List Nat) (front : Bool) (k : K) (v : V) (old : List (K × V)) :
    Written → List (K × V) → Prop where
  | updated : has (meets place) k old = true →
      Wrote place front k v old .updated (revalue (meets place) k v old)
  | inserted {a b : List (K × V)} : old = a ++ b → has (meets place) k old = false →
      (∀ e ∈ (if front then a else b), place (hash e.1) ≠ place (hash k)) →
      Wrote place front k v old .inserted (a ++ (k, v) :: b)

variable {place : UInt64 → List Nat} {front : Bool} {k : K} {v : V} {old new : List (K × V)}
  {how : Written}

theorem Wrote.how_eq (h : Wrote place front k v old how new) :
    how = if has (meets place) k old then .updated else .inserted := by
  cases h with
  | updated hk => rw [hk]; rfl
  | inserted _ hk _ => rw [hk]; rfl

theorem Wrote.perm_put (h : Wrote place front k v old how new) :
    new.Perm (put (meets place) k v old) := by
  unfold put
  cases h with
  | updated hk => rw [hk]; rfl
  | inserted hold hk _ =>
      rw [hk, hold]
      exact List.perm_middle.trans (List.perm_append_singleton _ _).symm

theorem Wrote.exists_insert (h : Wrote place front k v old .inserted new) :
    ∃ a b, old = a ++ b ∧ new = a ++ (k, v) :: b := by
  cases h with
  | inserted hold _ _ => exact ⟨_, _, hold, rfl⟩

theorem Wrote.forall_key {P : K → Prop} (h : Wrote place front k v old how new)
    (hold : ∀ e ∈ old, P e.1) (hk : P k) : ∀ e ∈ new, P e.1 :=
  fun e he => forall_key_put hold hk v e (h.perm_put.mem_iff.mp he)

end wrote

/-! ### Lawful buckets -/

/-- Buckets of which every operation does to the entries what it should.  The entries of a key are
those that meet it. -/
class LawfulBucket (β : Type) (K V : outParam Type) [BEq K] [Hashable K] [Bucket β K V] where
  /-- What holds of a bucket between operations. -/
  Sound : β → Prop
  /-- The way to the row of a hash. -/
  place : UInt64 → List Nat
  /-- Whether a new entry goes to the front of its row. -/
  front : Bool
  distinct : ∀ {b : β}, Sound b → Distinct (meets place) (Bucket.entries b)
  get_eq : ∀ {b : β} (k : K), Sound b →
    Bucket.get b k = (find (meets place) k (Bucket.entries b)).map (·.2)
  contains_eq : ∀ {b : β} (k : K), Sound b →
    Bucket.contains b k = has (meets place) k (Bucket.entries b)
  sound_set : ∀ {b : β} (k : K) (v : V), Sound b → Sound (Bucket.set b k v).2
  wrote_set : ∀ {b : β} (k : K) (v : V), Sound b →
    Wrote place front k v (Bucket.entries b) (Bucket.set b k v).1
      (Bucket.entries (Bucket.set b k v).2)
  sound_delete : ∀ {b : β} (k : K), Sound b → Sound (Bucket.delete b k).2
  delete_eq : ∀ {b : β} (k : K), Sound b →
    (Bucket.delete b k).1 = has (meets place) k (Bucket.entries b)
  entries_delete : ∀ {b : β} (k : K), Sound b →
    Bucket.entries (Bucket.delete b k).2 = remove (meets place) k (Bucket.entries b)
  length_eq : ∀ {b : β}, Sound b → Bucket.length b = (Bucket.entries b).length
  isEmpty_eq : ∀ {b : β}, Sound b → Bucket.isEmpty b = (Bucket.length b == 0)
  forEach_const : ∀ {ω : Type} {b : β} (visit : K → V → ω → Bool × ω) (w : ω), Sound b →
    Bucket.forEach (fun _ => b) visit w = visitAll visit (Bucket.entries b) w

theorem LawfulBucket.sound_apply {β K V : Type} [BEq K] [Hashable K] [Bucket β K V]
    [LawfulBucket β K V] {b : β} (h : Sound b) (op : Bucket.Op K V) :
    Sound (Bucket.apply b op).2 := by
  cases op with
  | set k v => exact sound_set k v h
  | delete k => exact sound_delete k h
  | _ => exact h

theorem LawfulBucket.sound_run {β K V : Type} [BEq K] [Hashable K] [Bucket β K V]
    [LawfulBucket β K V] {b : β} (h : Sound b) (ops : List (Bucket.Op K V)) :
    Sound (Bucket.run b ops).2 := by
  induction ops generalizing b with
  | nil => exact h
  | cons op ops ih => exact ih (sound_apply h op)

theorem LawfulBucket.contains_set {β K V : Type} [BEq K] [EquivBEq K] [Hashable K] [Bucket β K V]
    [LawfulBucket β K V] {b : β} (k : K) (v : V) (h : Sound b) :
    Bucket.contains (Bucket.set b k v).2 k = true := by
  have hsame := isSameness_meets (K := K) (place β)
  rw [contains_eq k (sound_set k v h), has_perm (wrote_set k v h).perm_put, has_put hsame,
    hsame.refl, Bool.or_true]

/-- What a factory makes is sound and without entries. -/
structure Factory.Lawful {β K V : Type} [BEq K] [Hashable K] [Bucket β K V] [LawfulBucket β K V]
    (factory : Factory β) : Prop where
  sound : LawfulBucket.Sound factory.fresh
  empty : Bucket.entries factory.fresh = []

/-! ### Entries divided between parts by the hash -/

section layer

variable {α K V : Type} [BEq K] [Hashable K] {place : UInt64 → List Nat}

omit [BEq K] in
/-- In a row of parts one part can be replaced without a change to the others, and in the others lie
only entries of other hashes. -/
theorem exists_flatMap_set (sel : UInt64 → Nat) {l : List α} {f : α → List (K × V)} {i : Nat}
    (hi : i < l.length)
    (hsel : ∀ j (hj : j < l.length), ∀ e ∈ f l[j], sel (hash e.1) = j) :
    ∃ a b, l.flatMap f = a ++ f l[i] ++ b ∧ (∀ x, (l.set i x).flatMap f = a ++ f x ++ b) ∧
      ∀ e ∈ a ++ b, sel (hash e.1) ≠ i := by
  have hset : ∀ x, (l.set i x).flatMap f =
      (l.take i).flatMap f ++ f x ++ (l.drop (i + 1)).flatMap f := by
    intro x
    rw [List.set_eq_take_append_cons_drop, if_pos hi, List.flatMap_append, List.flatMap_cons,
      List.append_assoc]
  refine ⟨(l.take i).flatMap f, (l.drop (i + 1)).flatMap f, ?_, hset, ?_⟩
  · rw [← hset, List.set_getElem_self]
  · intro e he
    rcases List.mem_append.mp he with ha | hb
    · obtain ⟨x, hx, hex⟩ := List.mem_flatMap.mp ha
      obtain ⟨j, hj, rfl⟩ := List.getElem_of_mem hx
      rw [List.length_take] at hj
      rw [List.getElem_take] at hex
      have := hsel j (by omega) e hex
      omega
    · obtain ⟨x, hx, hex⟩ := List.mem_flatMap.mp hb
      obtain ⟨j, hj, rfl⟩ := List.getElem_of_mem hx
      rw [List.length_drop] at hj
      rw [List.getElem_drop] at hex
      have := hsel (i + 1 + j) (by omega) e hex
      omega

/-- Parts without equal places are distinct together: within a part the first number of the way is the
same, and between two parts it differs. -/
theorem distinct_flatMap (sel : UInt64 → Nat) {l : List α} {f : α → List (K × V)}
    (hd : ∀ x ∈ l, Distinct (meets place) (f x))
    (hsel : ∀ j (hj : j < l.length), ∀ e ∈ f l[j], sel (hash e.1) = j) :
    Distinct (meets fun u => sel u :: place u) (l.flatMap f) := by
  unfold Distinct
  rw [List.pairwise_flatMap]
  constructor
  · intro x hx
    obtain ⟨j, hj, rfl⟩ := List.getElem_of_mem hx
    refine List.Pairwise.imp_of_mem (fun {a b} ha hb hab => ?_) (hd _ hx)
    rw [meets_cons_of_eq ((hsel j hj a ha).trans (hsel j hj b hb).symm)]
    exact hab
  · rw [List.pairwise_iff_getElem]
    intro i j hi hj hij a ha b hb
    refine meets_cons_of_ne ?_
    rw [hsel i hi a ha, hsel j hj b hb]
    exact Nat.ne_of_lt hij

variable {sel : UInt64 → Nat} {k : K} {x a b : List (K × V)}
  (hx : ∀ e ∈ x, sel (hash e.1) = sel (hash k))
  (hab : ∀ e ∈ a ++ b, sel (hash e.1) ≠ sel (hash k))

include hx hab

theorem has_layer :
    has (meets fun u => sel u :: place u) k (a ++ x ++ b) = has (meets place) k x := by
  rw [has_frame fun e he => meets_cons_of_ne (hab e he)]
  exact has_congr fun e he => meets_cons_of_eq (hx e he)

theorem find_layer :
    find (meets fun u => sel u :: place u) k (a ++ x ++ b) = find (meets place) k x := by
  rw [find_frame fun e he => meets_cons_of_ne (hab e he)]
  exact find_congr fun e he => meets_cons_of_eq (hx e he)

theorem remove_layer :
    remove (meets fun u => sel u :: place u) k (a ++ x ++ b) =
      a ++ remove (meets place) k x ++ b := by
  rw [remove_frame fun e he => meets_cons_of_ne (hab e he),
    remove_congr fun e he => meets_cons_of_eq (hx e he)]

/-- A write to one part is a write to the whole. -/
theorem Wrote.layer {front : Bool} {v : V} {x' : List (K × V)} {how : Written}
    (h : Wrote place front k v x how x') :
    Wrote (fun u => sel u :: place u) front k v (a ++ x ++ b) how (a ++ x' ++ b) := by
  cases h with
  | updated hk =>
      rw [← revalue_congr (fun e he => meets_cons_of_eq (hx e he)) v,
        ← revalue_frame fun e he => meets_cons_of_ne (hab e he)]
      exact Wrote.updated (by rw [has_layer hx hab, hk])
  | @inserted c d heq hk hrow =>
      have hnew : a ++ (c ++ (k, v) :: d) ++ b = (a ++ c) ++ (k, v) :: (d ++ b) := by simp
      rw [hnew]
      refine Wrote.inserted (by rw [heq]; simp) (by rw [has_layer hx hab, hk]) ?_
      intro e he hplace
      obtain ⟨hsel, hin⟩ := List.cons.inj hplace
      cases front with
      | true =>
          rcases List.mem_append.mp he with ha | hc
          · exact hab e (List.mem_append_left _ ha) hsel
          · exact hrow e hc hin
      | false =>
          rcases List.mem_append.mp he with hd | hb
          · exact hrow e hd hin
          · exact hab e (List.mem_append_right _ hb) hsel

end layer

end HashStore
