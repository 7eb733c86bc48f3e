import Mathlib.Data.List.Find

/-! # Entries under a sameness of keys

A store holds at most one entry for each key.  Which keys count as one is a parameter here
(`same`): for a finite map it is equality, and inside a table two keys count as one only if, besides
being equal, they are looked for in the same place.

`find`, `has`, `put` and `remove` say on plain lists what the operations of a store do to its entries.
They depend on the order of the list only up to a permutation (`find_perm`, `put_perm`), and they
see only that part of a list in which the key can lie at all (`find_frame`, `put_frame`,
`remove_frame`). -/

namespace HashStore
namespace Entries

variable {K V : Type} (same : K → K → Bool)

/-- No two entries have the same key. -/
def Distinct (l : List (K × V)) : Prop := l.Pairwise fun a b => same a.1 b.1 = false

def find (k : K) (l : List (K × V)) : Option (K × V) := l.find? fun e => same e.1 k

def has (k : K) (l : List (K × V)) : Bool := l.any fun e => same e.1 k

/-- The entries with a new value for those of a key. -/
def revalue (k : K) (v : V) (l : List (K × V)) : List (K × V) :=
  l.map fun e => if same e.1 k then (e.1, v) else e

/-- The entries after a write: an entry of the key keeps its own key and gets the value, and a key
without an entry gets one. -/
def put (k : K) (v : V) (l : List (K × V)) : List (K × V) :=
  if has same k l then revalue same k v l else l ++ [(k, v)]

/-- The entries without those of a key. -/
def remove (k : K) (l : List (K × V)) : List (K × V) := l.filter fun e => !same e.1 k

/-- The sameness of keys is reflexive, symmetric and transitive. -/
abbrev IsSameness : Prop := Equivalence fun a b => same a b = true

section laws

variable {same}

theorem has_eq_isSome_find (k : K) (l : List (K × V)) : has same k l = (find same k l).isSome := by
  rw [has, find, List.isSome_find?]

theorem has_eq_false_iff {k : K} {l : List (K × V)} :
    has same k l = false ↔ ∀ e ∈ l, same e.1 k = false := by
  simp [has]

/-! ### Distinct keys -/

theorem IsSameness.symm_false (hs : IsSameness same) {a b : K} (h : same a b = false) :
    same b a = false := by
  rw [Bool.eq_false_iff] at h ⊢
  exact fun hba => h (hs.symm hba)

theorem IsSameness.congr_right (hs : IsSameness same) {a b : K} (h : same a b = true) (c : K) :
    same c a = same c b := by
  rw [Bool.eq_iff_iff]
  exact ⟨fun hca => hs.trans hca h, fun hcb => hs.trans hcb (hs.symm h)⟩

/-- What counts as one of two keys that are apart does not count as the other. -/
theorem IsSameness.apart (hs : IsSameness same) {a k k' : K} (ha : same a k = true)
    (hkk : same k' k = false) : same a k' = false := by
  rw [← hs.congr_right ha] at hkk
  exact hs.symm_false hkk

theorem Distinct.perm (hs : IsSameness same) {l l' : List (K × V)} (hd : Distinct same l)
    (h : l.Perm l') : Distinct same l' :=
  List.Perm.pairwise h hd hs.symm_false

/-- Distinct keys stay distinct if fewer keys count as one. -/
theorem Distinct.mono {same' : K → K → Bool} {l : List (K × V)} (hd : Distinct same l)
    (hle : ∀ a b, same' a b = true → same a b = true) : Distinct same' l :=
  hd.imp fun {a b} hab => by
    rw [Bool.eq_false_iff] at hab ⊢
    exact fun h => hab (hle a.1 b.1 h)

theorem Distinct.of_sublist_keys {l l' : List (K × V)} (hd : Distinct same l)
    (h : (l'.map (·.1)).Sublist (l.map (·.1))) : Distinct same l' := by
  have hkeys : (l.map (·.1)).Pairwise fun a b => same a b = false := List.pairwise_map.mpr hd
  exact List.pairwise_map.mp (hkeys.sublist h)

theorem distinct_revalue {k : K} {v : V} {l : List (K × V)} (hd : Distinct same l) :
    Distinct same (revalue same k v l) := by
  unfold Distinct revalue
  rw [List.pairwise_map]
  refine hd.imp fun {a b} hab => ?_
  split <;> split <;> exact hab

theorem Distinct.append_singleton {k : K} {v : V} {l : List (K × V)} (hd : Distinct same l)
    (hk : has same k l = false) : Distinct same (l ++ [(k, v)]) := by
  unfold Distinct
  rw [List.pairwise_append]
  refine ⟨hd, List.pairwise_singleton _ _, fun e he e' he' => ?_⟩
  rw [List.mem_singleton.mp he']
  exact has_eq_false_iff.mp hk e he

theorem Distinct.put {l : List (K × V)} (hd : Distinct same l) (k : K) (v : V) :
    Distinct same (put same k v l) := by
  unfold Entries.put
  split
  · exact distinct_revalue hd
  · rename_i hk
    exact hd.append_singleton (Bool.eq_false_iff.mpr hk)

theorem Distinct.remove {l : List (K × V)} (hd : Distinct same l) (k : K) :
    Distinct same (remove same k l) := List.Pairwise.filter _ hd

/-- A write brings no other key than its own. -/
theorem forall_key_put {P : K → Prop} {k : K} {l : List (K × V)} (hl : ∀ e ∈ l, P e.1) (hk : P k)
    (v : V) : ∀ e ∈ put same k v l, P e.1 := by
  intro e he
  unfold put at he
  split at he
  · obtain ⟨e', he', rfl⟩ := List.mem_map.mp he
    split
    · exact hl e' he'
    · exact hl e' he'
  · rcases List.mem_append.mp he with he | he
    · exact hl e he
    · rw [List.mem_singleton.mp he]
      exact hk

/-- After a write there are the keys that were there, and its own if it had no entry. -/
theorem key_of_mem_put {k : K} {v : V} {l : List (K × V)} {e : K × V} (he : e ∈ put same k v l) :
    (∃ e' ∈ l, e'.1 = e.1) ∨ has same k l = false ∧ e.1 = k := by
  cases hk : has same k l with
  | true =>
      rw [put, if_pos hk] at he
      obtain ⟨e', he', rfl⟩ := List.mem_map.mp he
      refine Or.inl ⟨e', he', ?_⟩
      split <;> rfl
  | false =>
      rw [put, if_neg (Bool.eq_false_iff.mp hk)] at he
      rcases List.mem_append.mp he with he | he
      · exact Or.inl ⟨e, he, rfl⟩
      · exact Or.inr ⟨rfl, congrArg (·.1) (List.mem_singleton.mp he)⟩

/-- Of entries with distinct keys at most one is found by a key. -/
theorem Distinct.unique_of_same (hs : IsSameness same) {a b : K × V} {k : K}
    (hab : same a.1 b.1 = false) (ha : same a.1 k = true) : same b.1 k = false :=
  hs.symm_false (hs.apart (hs.symm ha) (hs.symm_false hab))

theorem has_eq_false_of_distinct_cons (hs : IsSameness same) {e : K × V} {l : List (K × V)} {k : K}
    (hd : Distinct same (e :: l)) (he : same e.1 k = true) : has same k l = false :=
  has_eq_false_iff.mpr fun _ he' =>
    Distinct.unique_of_same hs (List.rel_of_pairwise_cons hd he') he

theorem remove_eq_self {k : K} {l : List (K × V)} (h : has same k l = false) :
    remove same k l = l := by
  rw [remove, List.filter_eq_self]
  intro e he
  rw [has_eq_false_iff.mp h e he, Bool.not_false]

theorem revalue_eq_self {k : K} {v : V} {l : List (K × V)} (h : has same k l = false) :
    revalue same k v l = l := by
  refine (List.map_congr_left fun e he => ?_).trans (List.map_id l)
  rw [has_eq_false_iff.mp h e he]
  rfl

/-! ### Other orders -/

theorem has_perm {k : K} {l l' : List (K × V)} (h : l.Perm l') : has same k l = has same k l' :=
  h.any_eq

theorem find_perm (hs : IsSameness same) {k : K} {l l' : List (K × V)} (hd : Distinct same l)
    (h : l.Perm l') : find same k l = find same k l' := by
  induction h with
  | nil => rfl
  | cons e _ ih =>
      unfold find at ih ⊢
      rw [List.find?_cons, List.find?_cons, ih hd.of_cons]
  | swap e e' l =>
      have hne : same e'.1 e.1 = false := List.rel_of_pairwise_cons hd (List.mem_cons_self ..)
      unfold find
      simp only [List.find?_cons]
      cases he' : same e'.1 k with
      | false => rfl
      | true => rw [Distinct.unique_of_same hs hne he']
  | trans h₁ _ ih₁ ih₂ => rw [ih₁ hd, ih₂ (hd.perm hs h₁)]

theorem put_perm {k : K} {v : V} {l l' : List (K × V)} (h : l.Perm l') :
    (put same k v l).Perm (put same k v l') := by
  unfold put
  rw [has_perm h]
  split
  · exact h.map _
  · exact h.append_right _

theorem remove_perm {k : K} {l l' : List (K × V)} (h : l.Perm l') :
    (remove same k l).Perm (remove same k l') := h.filter _

/-! ### Lookups after a change -/

theorem same_of_find {k : K} {l : List (K × V)} {e : K × V} (h : find same k l = some e) :
    same e.1 k = true :=
  List.find?_some (p := fun e : K × V => same e.1 k) h

theorem Distinct.find_of_mem (hs : IsSameness same) {l : List (K × V)} (hd : Distinct same l)
    {e : K × V} (he : e ∈ l) : find same e.1 l = some e := by
  induction l with
  | nil => cases he
  | cons e' l ih =>
      rw [find, List.find?_cons]
      rcases List.mem_cons.mp he with rfl | he
      · rw [hs.refl]
      · rw [List.rel_of_pairwise_cons hd he]
        exact ih hd.of_cons he

theorem Distinct.eq_of_same (hs : IsSameness same) {l : List (K × V)} (hd : Distinct same l)
    {a b : K × V} (ha : a ∈ l) (hb : b ∈ l) (h : same a.1 b.1 = true) : a = b := by
  have hfind : find same a.1 l = find same b.1 l := List.find?_congr fun e _ => hs.congr_right h e.1
  rw [hd.find_of_mem hs ha, hd.find_of_mem hs hb] at hfind
  exact Option.some.inj hfind

theorem Distinct.mem_iff_find (hs : IsSameness same) {l : List (K × V)} (hd : Distinct same l)
    {e : K × V} : e ∈ l ↔ find same e.1 l = some e :=
  ⟨hd.find_of_mem hs, List.mem_of_find?_eq_some⟩

theorem Distinct.nodup (hs : IsSameness same) {l : List (K × V)} (hd : Distinct same l) : l.Nodup :=
  hd.imp fun {a b} hab heq => by
    rw [heq, hs.refl] at hab
    cases hab

/-- Entries that are found alike by every key are the same up to order. -/
theorem Distinct.perm_of_find (hs : IsSameness same) {l l' : List (K × V)} (hd : Distinct same l)
    (hd' : Distinct same l') (h : ∀ k, find same k l = find same k l') : l.Perm l' := by
  rw [List.perm_ext_iff_of_nodup (hd.nodup hs) (hd'.nodup hs)]
  intro e
  rw [hd.mem_iff_find hs, hd'.mem_iff_find hs, h]

theorem find_eq_none_of_has {k : K} {l : List (K × V)} (h : has same k l = false) :
    find same k l = none := by
  rwa [has_eq_isSome_find, Option.isSome_eq_false_iff, Option.isNone_iff_eq_none] at h

theorem find_congr_key (hs : IsSameness same) {k k' : K} (h : same k' k = true)
    (l : List (K × V)) : find same k' l = find same k l :=
  List.find?_congr fun e _ => hs.congr_right h e.1

theorem find_revalue (k k' : K) (v : V) (l : List (K × V)) :
    find same k (revalue same k' v l) =
      (find same k l).map fun e => if same e.1 k' then (e.1, v) else e := by
  rw [find, revalue, List.find?_map]
  refine congrArg _ (List.find?_congr fun _ _ => ?_)
  rw [Function.comp_apply]
  split <;> rfl

theorem find_append_singleton (k k' : K) (v : V) (l : List (K × V)) :
    find same k (l ++ [(k', v)]) =
      (find same k l).or (if same k' k then some (k', v) else none) := by
  rw [find, List.find?_append, List.find?_singleton]
  rfl

/-- A write is seen by the keys that count as its own, and by no others. -/
theorem find_put (hs : IsSameness same) (k k' : K) (v : V) (l : List (K × V)) :
    find same k (put same k' v l) =
      if same k' k then some (((find same k l).map (·.1)).getD k', v) else find same k l := by
  unfold put
  cases hkk : same k' k with
  | true =>
      cases hk : has same k' l with
      | true =>
          rw [has_eq_isSome_find, find_congr_key hs hkk, Option.isSome_iff_exists] at hk
          obtain ⟨e, he⟩ := hk
          have hek : same e.1 k' = true := by rw [hs.congr_right hkk]; exact same_of_find he
          rw [if_pos rfl, find_revalue, he, Option.map_some, if_pos hek]
          rfl
      | false =>
          have hnone := find_eq_none_of_has hk
          rw [find_congr_key hs hkk] at hnone
          rw [if_neg Bool.false_ne_true, find_append_singleton, hnone, hkk]
          rfl
  | false =>
      cases has same k' l with
      | true =>
          rw [if_pos rfl, find_revalue]
          cases he : find same k l with
          | none => rfl
          | some e =>
              have hother : same e.1 k' = false := hs.apart (same_of_find he) hkk
              rw [Option.map_some, hother]
              rfl
      | false =>
          rw [if_neg Bool.false_ne_true, find_append_singleton, hkk, if_neg Bool.false_ne_true,
            Option.or_none]
          rfl

/-- A removal is seen by the keys that count as its own, and by no others. -/
theorem find_remove (hs : IsSameness same) (k k' : K) (l : List (K × V)) :
    find same k (remove same k' l) = if same k' k then none else find same k l := by
  rw [find, remove, List.find?_filter]
  cases hkk : same k' k with
  | true =>
      rw [if_pos rfl, List.find?_eq_none]
      intro e _
      rw [hs.congr_right hkk]
      cases same e.1 k <;> simp
  | false =>
      rw [if_neg Bool.false_ne_true]
      refine List.find?_congr fun e _ => ?_
      cases hek : same e.1 k with
      | false => simp
      | true =>
          have hother : same e.1 k' = false := hs.apart hek hkk
          simp [hother]

theorem has_put (hs : IsSameness same) (k k' : K) (v : V) (l : List (K × V)) :
    has same k (put same k' v l) = (has same k l || same k' k) := by
  rw [has_eq_isSome_find, has_eq_isSome_find, find_put hs]
  cases same k' k <;> simp

/-! ### Numbers of entries -/

theorem length_put (k : K) (v : V) (l : List (K × V)) :
    (put same k v l).length = l.length + (!has same k l).toNat := by
  unfold put
  cases has same k l <;> simp [revalue]

theorem length_remove (hs : IsSameness same) {k : K} {l : List (K × V)} (hd : Distinct same l) :
    (remove same k l).length + (has same k l).toNat = l.length := by
  induction l with
  | nil => rfl
  | cons e l ih =>
      have htail := ih hd.of_cons
      cases he : same e.1 k with
      | true =>
          have hl := has_eq_false_of_distinct_cons hs hd he
          simp [has, remove, he] at hl ⊢
          exact hl
      | false =>
          simp only [has, remove, List.any_cons, he, Bool.false_or, List.filter_cons,
            Bool.not_false, if_true, List.length_cons] at htail ⊢
          omega

/-- Distinct keys that have entries in a second list are no more than the keys there: without the first
of them in it, the second list still has the others. -/
theorem Distinct.length_le (hs : IsSameness same) {l l' : List (K × V)} (hd : Distinct same l)
    (hd' : Distinct same l') (h : ∀ e ∈ l, has same e.1 l' = true) : l.length ≤ l'.length := by
  induction l generalizing l' with
  | nil => exact Nat.zero_le _
  | cons e l ih =>
      have hlen := length_remove hs (k := e.1) hd'
      rw [h e (List.mem_cons_self ..), Bool.toNat_true] at hlen
      have hrest : ∀ e' ∈ l, has same e'.1 (Entries.remove same e.1 l') = true := by
        intro e' he'
        have hne : same e.1 e'.1 = false := List.rel_of_pairwise_cons hd he'
        rw [has_eq_isSome_find, find_remove hs, hne, if_neg Bool.false_ne_true,
          ← has_eq_isSome_find]
        exact h e' (List.mem_cons_of_mem _ he')
      have hle := ih hd.of_cons (hd'.remove e.1) hrest
      rw [List.length_cons]
      omega

/-- Stores of the same keys have the same number of entries. -/
theorem Distinct.length_eq (hs : IsSameness same) {l l' : List (K × V)} (hd : Distinct same l)
    (hd' : Distinct same l') (h : ∀ k, has same k l = has same k l') : l.length = l'.length := by
  have hmem : ∀ (m : List (K × V)), ∀ e ∈ m, has same e.1 m = true :=
    fun m e he => List.any_eq_true.mpr ⟨e, he, hs.refl e.1⟩
  refine Nat.le_antisymm (hd.length_le hs hd' fun e he => ?_) (hd'.length_le hs hd fun e he => ?_)
  · rw [← h, hmem l e he]
  · rw [h, hmem l' e he]

/-! ### Another sameness -/

section congr

variable {same' : K → K → Bool} {k : K} {l : List (K × V)}
  (h : ∀ e ∈ l, same e.1 k = same' e.1 k)

include h

theorem has_congr : has same k l = has same' k l := by
  unfold has
  rw [Bool.eq_iff_iff, List.any_eq_true, List.any_eq_true]
  exact exists_congr fun e => and_congr_right fun he => by rw [h e he]

theorem find_congr : find same k l = find same' k l :=
  List.find?_congr fun e he => h e he

theorem revalue_congr (v : V) : revalue same k v l = revalue same' k v l :=
  List.map_congr_left fun e he => by rw [h e he]

theorem remove_congr : remove same k l = remove same' k l :=
  List.filter_congr fun e he => by rw [h e he]

end congr

/-! ### The part of a list in which a key can lie -/

section frame

variable {k : K} {a x b : List (K × V)} (h : ∀ e ∈ a ++ b, same e.1 k = false)

include h

theorem has_eq_false_left : has same k a = false :=
  has_eq_false_iff.mpr fun e he => h e (List.mem_append_left _ he)

theorem has_eq_false_right : has same k b = false :=
  has_eq_false_iff.mpr fun e he => h e (List.mem_append_right _ he)

theorem has_frame : has same k (a ++ x ++ b) = has same k x := by
  have ha := has_eq_false_left h
  have hb := has_eq_false_right h
  unfold has at ha hb ⊢
  rw [List.any_append, List.any_append, ha, hb, Bool.false_or, Bool.or_false]

theorem find_frame : find same k (a ++ x ++ b) = find same k x := by
  have ha : find same k a = none := by
    simpa [has_eq_isSome_find] using has_eq_false_left h
  have hb : find same k b = none := by
    simpa [has_eq_isSome_find] using has_eq_false_right h
  unfold find at ha hb ⊢
  rw [List.find?_append, List.find?_append, ha, hb, Option.none_or, Option.or_none]

theorem revalue_frame (v : V) :
    revalue same k v (a ++ x ++ b) = a ++ revalue same k v x ++ b := by
  have ha := revalue_eq_self (v := v) (has_eq_false_left h)
  have hb := revalue_eq_self (v := v) (has_eq_false_right h)
  unfold revalue at ha hb ⊢
  rw [List.map_append, List.map_append, ha, hb]

theorem remove_frame : remove same k (a ++ x ++ b) = a ++ remove same k x ++ b := by
  have ha := remove_eq_self (has_eq_false_left h)
  have hb := remove_eq_self (has_eq_false_right h)
  unfold remove at ha hb ⊢
  rw [List.filter_append, List.filter_append, ha, hb]

theorem put_frame (v : V) :
    (put same k v (a ++ x ++ b)).Perm (a ++ put same k v x ++ b) := by
  unfold put
  rw [has_frame h]
  split
  · rw [revalue_frame h]
  · rw [List.append_assoc, List.append_assoc, List.append_assoc, List.append_assoc]
    exact (List.perm_append_comm.append_left x).append_left a

end frame

/-- Of entries with distinct keys a removal takes one out, if any, and leaves the others as they lie. -/
theorem Distinct.exists_remove (hs : IsSameness same) {k : K} {l : List (K × V)}
    (hd : Distinct same l) (hk : has same k l = true) :
    ∃ a e c, l = a ++ e :: c ∧ same e.1 k = true ∧ Entries.remove same k l = a ++ c := by
  obtain ⟨e, he, hek⟩ := List.any_eq_true.mp hk
  obtain ⟨a, c, rfl⟩ := List.append_of_mem he
  obtain ⟨-, hec, hae⟩ := List.pairwise_append.mp hd
  have hother : ∀ e' ∈ a ++ c, same e'.1 k = false := by
    intro e' he'
    rcases List.mem_append.mp he' with ha | hc
    · have hne := hs.symm_false (hae e' ha e (List.mem_cons_self ..))
      exact unique_of_same hs hne hek
    · exact unique_of_same hs (List.rel_of_pairwise_cons hec hc) hek
  have hframe := remove_frame (x := [e]) hother
  have hnil : Entries.remove same k [e] = [] := by simp [Entries.remove, hek]
  rw [hnil, List.append_nil, List.append_assoc, List.singleton_append] at hframe
  exact ⟨a, e, c, rfl, hek, hframe⟩

end laws

end Entries
end HashStore
