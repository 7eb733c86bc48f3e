import HashStore.Proofs.Table.Update
import Mathlib.Data.List.Induction

/-! # The order of arrival

A table holds the keys that have been brought in by a write of the run behind it and not been
removed since, each by one such write (`ArrivedAt`).  Where new entries go to the end of their row,
the entries of each row lie in the order of these writes: an update does not move an entry, an entry
that is removed and written again comes last, and no growth of the table, whether it comes about or
is given up, changes the order of two entries of a row (`run_create_lists_in_order`).

Rows that are sorted by some relation of keys (`RowsSorted`) stay so in a step, provided that a new
key comes after those that are there (`Sound.rowsSorted_apply`).  The relation to which this is
applied says that one key arrived before another.  That is a matter of the run so far, so the
induction is on the run from its end. -/

namespace HashStore

open Entries Surroundings

theorem Store.run_concat {S σ K V : Type} [Store S σ K V] (s : S) (env : σ) (ops : List (Op K V))
    (op : Op K V) : (run s env (ops ++ [op])).state =
      (apply (run s env ops).state op (run s env ops).env).state ∧
    (run s env (ops ++ [op])).env =
      (apply (run s env ops).state op (run s env ops).env).env := by
  induction ops generalizing s env with
  | nil => exact ⟨rfl, rfl⟩
  | cons op' ops ih => exact ih _ _

namespace Table

/-! ### Arrivals -/

section arrivals

variable {σ β K V : Type} [Hashable K] [Access σ β K V]

/-- Whether a table has an entry for a key after the first `n` operations of a run. -/
def heldAfter (t : Table β) (env : σ) (ops : List (Store.Op K V)) (n : Nat) (k : K) : Bool :=
  let r := Store.run t env (ops.take n)
  (r.state.contains k r.env).1

/-- The entry of a key was brought in by operation number `n` of a run, and has been there ever
since. -/
structure ArrivedAt (t : Table β) (env : σ) (ops : List (Store.Op K V)) (k : K) (n : Nat) :
    Prop where
  write : ∃ v, ops[n]? = some (.set k v)
  absent : t.heldAfter env ops n k = false
  present : ∀ m, n < m → m ≤ ops.length → t.heldAfter env ops m k = true

/-- The entry of one key was brought in before that of another. -/
def Earlier (t : Table β) (env : σ) (ops : List (Store.Op K V)) (a b : K) : Prop :=
  ∃ m n, m < n ∧ t.ArrivedAt env ops a m ∧ t.ArrivedAt env ops b n

variable {t : Table β} {env : σ} {ops : List (Store.Op K V)} {op : Store.Op K V} {k : K} {n : Nat}

theorem heldAfter_concat (hn : n ≤ ops.length) :
    t.heldAfter env (ops ++ [op]) n k = t.heldAfter env ops n k := by
  rw [heldAfter, List.take_append_of_le_length hn, heldAfter]

omit [Hashable K] in
theorem eq_length_concat {m : Nat} (hlt : ops.length < m) (hle : m ≤ (ops ++ [op]).length) :
    m = (ops ++ [op]).length := by
  rw [List.length_append, List.length_singleton] at hle ⊢
  omega

namespace ArrivedAt

theorem lt_length (h : t.ArrivedAt env ops k n) : n < ops.length := by
  obtain ⟨v, hv⟩ := h.write
  exact (List.getElem?_eq_some_iff.mp hv).1

theorem le {m : Nat} (h : t.ArrivedAt env ops k m) (h' : t.ArrivedAt env ops k n) : n ≤ m := by
  by_contra hlt
  have hheld := h.present n (by omega) (Nat.le_of_lt h'.lt_length)
  rw [h'.absent] at hheld
  cases hheld

theorem unique {m : Nat} (h : t.ArrivedAt env ops k m) (h' : t.ArrivedAt env ops k n) : m = n :=
  Nat.le_antisymm (h'.le h) (h.le h')

/-- What is still there after one more operation arrived when it did. -/
theorem concat (h : t.ArrivedAt env ops k n)
    (hheld : t.heldAfter env (ops ++ [op]) (ops ++ [op]).length k = true) :
    t.ArrivedAt env (ops ++ [op]) k n where
  write := by
    obtain ⟨v, hv⟩ := h.write
    exact ⟨v, by rw [List.getElem?_append_left h.lt_length, hv]⟩
  absent := by rw [heldAfter_concat (Nat.le_of_lt h.lt_length), h.absent]
  present m hm hle := by
    rcases Nat.lt_or_ge ops.length m with hlt | hge
    · rw [eq_length_concat hlt hle, hheld]
    · rw [heldAfter_concat hge, h.present m hm hge]

theorem of_concat (h : t.ArrivedAt env (ops ++ [op]) k n) (hlt : n < ops.length) :
    t.ArrivedAt env ops k n where
  write := by
    obtain ⟨v, hv⟩ := h.write
    exact ⟨v, by rw [← hv, List.getElem?_append_left hlt]⟩
  absent := by rw [← heldAfter_concat (Nat.le_of_lt hlt), h.absent]
  present m hm hle := by
    rw [← heldAfter_concat hle]
    exact h.present m hm (hle.trans (List.sublist_append_left ..).length_le)

/-- The last operation is the arrival of the key that it has brought in. -/
theorem of_last {v : V} (habsent : t.heldAfter env ops ops.length k = false)
    (hheld : t.heldAfter env (ops ++ [.set k v]) (ops ++ [Store.Op.set k v]).length k = true) :
    t.ArrivedAt env (ops ++ [.set k v]) k ops.length where
  write := ⟨v, List.getElem?_concat_length⟩
  absent := by rw [heldAfter_concat (Nat.le_refl _), habsent]
  present m hm hle := by rw [eq_length_concat hm hle, hheld]

end ArrivedAt

theorem Earlier.concat {a b : K} (h : t.Earlier env ops a b)
    (ha : t.heldAfter env (ops ++ [op]) (ops ++ [op]).length a = true)
    (hb : t.heldAfter env (ops ++ [op]) (ops ++ [op]).length b = true) :
    t.Earlier env (ops ++ [op]) a b := by
  obtain ⟨m, n, hlt, hm, hn⟩ := h
  exact ⟨m, n, hlt, hm.concat ha, hn.concat hb⟩

end arrivals

theorem exists_row_of_mem {β K V : Type} [Bucket β K V] {t : Table β} {e : K × V}
    (he : e ∈ t.entries) : ∃ b ∈ t.buckets, ∃ list ∈ (Bucket.layout b).rows, e ∈ list := by
  rw [entries_eq] at he
  obtain ⟨b, hb, he⟩ := List.mem_flatMap.mp he
  rw [Bucket.entries, ← Layout.flatten_rows] at he
  exact ⟨b, Array.mem_toList_iff.mp hb, List.mem_flatten.mp he⟩

variable {σ β K V : Type} [BEq K] [Hashable K] [Bucket β K V] [LawfulBucket β K V]

/-! ### Sorted rows -/

/-- In every row the keys are sorted by a relation. -/
def RowsSorted (R : K → K → Prop) (t : Table β) : Prop :=
  ∀ p, (rowAt (place β t.capacity) p t.entries).Pairwise fun a b => R a.1 b.1

section sorted

variable {R R' : K → K → Prop} {t : Table β}

theorem RowsSorted.mono (h : t.RowsSorted R)
    (hle : ∀ a ∈ t.entries, ∀ b ∈ t.entries, R a.1 b.1 → R' a.1 b.1) : t.RowsSorted R' :=
  fun p => (h p).imp_of_mem fun ha hb => hle _ (mem_rowAt.mp ha).1 _ (mem_rowAt.mp hb).1

theorem RowsSorted.pairwise_row (h : t.RowsSorted R) (hp : t.Placed) {i : Nat}
    (hi : i < t.buckets.size) (hrows : Bucket.RowsPlaced t.buckets[i]) {row : List (K × V)}
    (hrow : row ∈ (Bucket.layout t.buckets[i]).rows) :
    (∀ e ∈ row, e ∈ t.entries) ∧ row.Pairwise fun a b => R a.1 b.1 := by
  obtain ⟨p, hrow⟩ := hrows row hrow
  rw [← hp.rowAt_bucket hi] at hrow
  rw [hrow]
  exact ⟨fun e he => (mem_rowAt.mp he).1, h (i :: p)⟩

theorem rowsSorted_of_entries_eq_nil (h : t.entries = []) : t.RowsSorted R := by
  intro p
  rw [h]
  exact List.Pairwise.nil

/-- An update leaves the keys of a row as they are, and a new entry is the last of its row. -/
theorem RowsSorted.written (h : t.RowsSorted R) (hp : t.Placed)
    (hfront : LawfulBucket.front β = false) {k : K}
    (hnew : has (meets (place β t.capacity)) k t.entries = false → ∀ e ∈ t.entries, R e.1 k)
    (v : V) : (t.written k v).RowsSorted R := by
  intro p
  show (rowAt (place β t.capacity) p (t.stored k v).entries).Pairwise _
  have hreport := hp.report_eq k v
  have hwrote := hp.wrote_stored k v
  cases hk : has (meets (place β t.capacity)) k t.entries with
  | true =>
      rw [hk, if_pos rfl] at hreport
      rw [hreport] at hwrote
      have hkeys := List.pairwise_map.mpr (h p)
      rw [← hwrote.rowAt_updated p] at hkeys
      exact List.pairwise_map.mp hkeys
  | false =>
      rw [hk, if_neg Bool.false_ne_true] at hreport
      rw [hreport, hfront] at hwrote
      rw [hwrote.rowAt_inserted p]
      refine List.pairwise_append.mpr
        ⟨h p, (List.pairwise_singleton _ _).sublist List.filter_sublist, fun e he e' he' => ?_⟩
      rw [List.mem_singleton.mp (mem_rowAt.mp he').1]
      exact hnew hk e (mem_rowAt.mp he).1

/-- A table that doubles splits its rows and keeps the order in them. -/
theorem RowsSorted.doubles {t' : Table β} (h : t.RowsSorted R)
    (hfront : LawfulBucket.front β = false) (hd : t.Doubles t') : t'.RowsSorted R := by
  intro p
  have hle : ∀ u v, place β (2 * t.capacity) u = place β (2 * t.capacity) v →
      place β t.capacity u = place β t.capacity v := fun _ _ => place_of_place_double
  obtain ⟨p', hsub⟩ := exists_rowAt_sublist hle p t.entries
  rw [hd.capacity, hd.rows, hfront]
  exact (h p').sublist hsub

theorem RowsSorted.erased (h : t.RowsSorted R) (hp : t.Placed) (k : K) :
    ((t.erased k).counting (-1)).RowsSorted R := by
  intro p
  show (rowAt (place β t.capacity) p (t.erased k).entries).Pairwise _
  rw [hp.entries_erased]
  exact (h p).sublist (List.Sublist.filter _ List.filter_sublist)

end sorted

/-! ### Runs -/

variable [EquivBEq K] [Access σ β K V] [Surroundings σ] [TruthfulAccess σ β K V] {t : Table β}
  {env : σ}

namespace Sound

variable (h : t.Sound) (ht : Truthful env)

include h ht

theorem rowsSorted_apply {R : K → K → Prop} (hfront : LawfulBucket.front β = false)
    (hsorted : t.RowsSorted R) (op : Store.Op K V)
    (hnew : ∀ k v, op = .set k v → (t.contains k env).1 = false → ∀ e ∈ t.entries, R e.1 k) :
    (Store.apply t op env).state.RowsSorted R := by
  cases op with
  | set k v =>
      have hnew := hnew k v rfl
      rw [h.contains_eq ht] at hnew
      have hwritten := hsorted.written h.toPlaced hfront hnew v
      show (t.set k v env).state.RowsSorted R
      rcases (h.set_cases ht k v).1 with hstate | hstate | hdoubles
      · rwa [hstate]
      · rwa [hstate]
      · exact hwritten.doubles hfront hdoubles
  | delete k =>
      show (t.delete k env).state.RowsSorted R
      rcases (h.delete_cases ht k).1 with hstate | ⟨-, hstate⟩
      · rwa [hstate]
      · rw [hstate]
        exact hsorted.erased h.toPlaced k
  | clear => exact rowsSorted_of_entries_eq_nil h.entries_clear
  | _ => exact hsorted

/-- After an operation there are the keys that were there, and that of a write if it was new. -/
theorem key_of_mem_apply (op : Store.Op K V) {e : K × V}
    (he : e ∈ (Store.apply t op env).state.entries) : (∃ e' ∈ t.entries, e'.1 = e.1) ∨
      (t.contains e.1 env).1 = false ∧ ∃ v, op = .set e.1 v := by
  cases op with
  | set k v =>
      have he : e ∈ (t.set k v env).state.entries := he
      rw [h.contains_eq ht]
      have hput : e ∈ put (meets (place β t.capacity)) k v t.entries →
          (∃ e' ∈ t.entries, e'.1 = e.1) ∨ has (meets (place β t.capacity)) e.1 t.entries = false ∧
            ∃ v', Store.Op.set k v = .set e.1 v' := by
        intro hmem
        rcases key_of_mem_put hmem with hold | ⟨hk, rfl⟩
        · exact Or.inl hold
        · exact Or.inr ⟨hk, v, rfl⟩
      rcases (h.set_cases ht k v).1 with hstate | hstate | hdoubles
      · rw [hstate] at he
        exact Or.inl ⟨e, he, rfl⟩
      · rw [hstate] at he
        exact hput ((h.perm_written k v).mem_iff.mp he)
      · exact hput ((hdoubles.perm.trans (h.perm_written k v)).mem_iff.mp he)
  | delete k =>
      have he : e ∈ (t.delete k env).state.entries := he
      refine Or.inl ⟨e, ?_, rfl⟩
      rcases (h.delete_cases ht k).1 with hstate | ⟨-, hstate⟩
      · rwa [hstate] at he
      · rw [hstate, counting_entries, h.entries_erased] at he
        exact (List.mem_filter.mp he).1
  | clear =>
      have hempty : e ∈ t.clear.1.entries := he
      rw [h.entries_clear] at hempty
      cases hempty
  | _ => exact Or.inl ⟨e, he, rfl⟩

omit [EquivBEq K] in
theorem contains_of_meets {e : K × V} {k : K} (he : e ∈ t.entries)
    (hmeets : meets (place β t.capacity) e.1 k = true) : (t.contains k env).1 = true := by
  rw [h.contains_eq ht]
  exact List.any_eq_true.mpr ⟨e, he, hmeets⟩

theorem contains_of_mem {e : K × V} (he : e ∈ t.entries) : (t.contains e.1 env).1 = true :=
  h.contains_of_meets ht he ((isSameness_meets _).refl e.1)

/-- Keys that count as one after an operation counted as one before it. -/
theorem meets_of_meets_apply (op : Store.Op K V) {a b : K}
    (hmeets : meets (place β (Store.apply t op env).state.capacity) a b = true) :
    meets (place β t.capacity) a b = true := by
  cases op with
  | set k v =>
      have hmeets : meets (place β (t.set k v env).state.capacity) a b = true := hmeets
      rcases (h.set_cases ht k v).1 with hstate | hstate | hdoubles
      · rwa [hstate] at hmeets
      · rwa [hstate] at hmeets
      · rw [hdoubles.capacity] at hmeets
        exact meets_of_meets (fun _ _ => place_of_place_double) hmeets
  | delete k =>
      have hmeets : meets (place β (t.delete k env).state.capacity) a b = true := hmeets
      rcases (h.delete_cases ht k).1 with hstate | ⟨-, hstate⟩
      · rwa [hstate] at hmeets
      · rwa [hstate] at hmeets
  | _ => exact hmeets

/-- A key that is found after an operation is found by an entry that was there under the same key,
or by that of a write if it was new. -/
theorem exists_key_of_contains_apply (op : Store.Op K V) {k : K}
    (hk : ((Store.apply t op env).state.contains k (Store.apply t op env).env).1 = true) :
    ∃ e ∈ (Store.apply t op env).state.entries, meets (place β t.capacity) e.1 k = true ∧
      ((∃ e' ∈ t.entries, e'.1 = e.1) ∨
        (t.contains e.1 env).1 = false ∧ ∃ v, op = .set e.1 v) := by
  obtain ⟨hs', ht'⟩ := h.apply ht op
  rw [hs'.contains_eq ht'] at hk
  obtain ⟨e, he, hmeets⟩ := List.any_eq_true.mp hk
  exact ⟨e, he, h.meets_of_meets_apply ht op hmeets, h.key_of_mem_apply ht op he⟩

end Sound

/-- There are the entries of the keys that have arrived, and in every row they lie in the order of
their arrivals. -/
structure InOrder (t : Table β) (env : σ) (ops : List (Store.Op K V)) : Prop where
  complete : ∀ k n, t.ArrivedAt env ops k n →
    ∃ e ∈ (Store.run t env ops).state.entries, e.1 = k
  arrived : ∀ e ∈ (Store.run t env ops).state.entries, ∃ n, t.ArrivedAt env ops e.1 n
  sorted : (Store.run t env ops).state.RowsSorted (t.Earlier env ops)

/-- What is found for a key that has arrived is the key itself, and not another that counts as one with
it.  If the key was there before the last operation, no other can have come with that; if not, the last
operation is the write that has brought it in. -/
theorem InOrder.key_eq_of_meets {ops : List (Store.Op K V)} {op : Store.Op K V} {k k' : K} {n : Nat}
    (h : t.InOrder env ops) (hs : (Store.run t env ops).state.Sound)
    (ht : Truthful (Store.run t env ops).env) (hn : t.ArrivedAt env (ops ++ [op]) k n)
    (hmeets : meets (place β (Store.run t env ops).state.capacity) k' k = true)
    (hkey : (∃ e ∈ (Store.run t env ops).state.entries, e.1 = k') ∨
      ((Store.run t env ops).state.contains k' (Store.run t env ops).env).1 = false ∧
        ∃ v, op = .set k' v) : k' = k := by
  rcases Nat.lt_or_ge n ops.length with hlt | hge
  · obtain ⟨e, he, rfl⟩ := h.complete k n (hn.of_concat hlt)
    rcases hkey with ⟨e', he', rfl⟩ | ⟨hnew, -⟩
    · exact congrArg Prod.fst (hs.distinct.eq_of_same (isSameness_meets _) he' he hmeets)
    · have hthere := hs.contains_of_meets ht he ((isSameness_meets _).symm hmeets)
      rw [hnew] at hthere
      cases hthere
  · have hlast : n = ops.length := by
      have hlt := hn.lt_length
      rw [List.length_append, List.length_singleton] at hlt
      omega
    subst hlast
    have habsent := hn.absent
    rw [heldAfter_concat (Nat.le_refl _), heldAfter, List.take_length] at habsent
    rcases hkey with ⟨e, he, rfl⟩ | ⟨-, v, rfl⟩
    · rw [hs.contains_of_meets ht he hmeets] at habsent
      cases habsent
    · obtain ⟨v', hv'⟩ := hn.write
      rw [List.getElem?_concat_length] at hv'
      cases hv'
      rfl

/-- Every run leaves the rows in order, by induction from its end.  The keys that the last operation has
removed are in no row any more, so only those that are held have to be in order. -/
theorem Sound.inOrder_run (h : t.Sound) (ht : Truthful env)
    (hfront : LawfulBucket.front β = false) (hempty : t.entries = [])
    (ops : List (Store.Op K V)) : t.InOrder env ops := by
  induction ops using List.reverseRecOn with
  | nil =>
      refine ⟨fun k n hn => absurd hn.lt_length (Nat.not_lt_zero n), fun e he => ?_,
        rowsSorted_of_entries_eq_nil hempty⟩
      have hnil : e ∈ t.entries := he
      rw [hempty] at hnil
      cases hnil
  | append_singleton ops op ih =>
      obtain ⟨hs, htruth⟩ := h.run ht ops
      obtain ⟨hs', htruth'⟩ := h.run ht (ops ++ [op])
      obtain ⟨hstate, henv⟩ := Store.run_concat t env ops op
      have hheld : ∀ e ∈ (Store.run t env (ops ++ [op])).state.entries,
          t.heldAfter env (ops ++ [op]) (ops ++ [op]).length e.1 = true := by
        intro e he
        rw [heldAfter, List.take_length]
        exact hs'.contains_of_mem htruth' he
      have habsent : ∀ k,
          ((Store.run t env ops).state.contains k (Store.run t env ops).env).1 = false →
            t.heldAfter env ops ops.length k = false := by
        intro k hk
        rw [heldAfter, List.take_length]
        exact hk
      constructor
      case complete =>
        intro k n hn
        have hlast := hn.present _ hn.lt_length (Nat.le_refl _)
        rw [heldAfter, List.take_length, hstate, henv] at hlast
        obtain ⟨e, he, hmeets, hkey⟩ := hs.exists_key_of_contains_apply htruth op hlast
        rw [← hstate] at he
        exact ⟨e, he, ih.key_eq_of_meets hs htruth hn hmeets hkey⟩
      case arrived =>
        intro e he
        have hkey := hs.key_of_mem_apply htruth op (hstate ▸ he)
        rcases hkey with ⟨e', he', hkey⟩ | ⟨hk, v, rfl⟩
        · obtain ⟨n, hn⟩ := ih.arrived e' he'
          exact ⟨n, (hkey ▸ hn).concat (hheld e he)⟩
        · exact ⟨ops.length, .of_last (habsent e.1 hk) (hheld e he)⟩
      case sorted =>
        let held k := t.heldAfter env (ops ++ [op]) (ops ++ [op]).length k = true
        have hbefore : (Store.run t env ops).state.RowsSorted fun a b =>
            held a → held b → t.Earlier env (ops ++ [op]) a b :=
          ih.sorted.mono fun a _ b _ hab ha hb => hab.concat ha hb
        have hafter := hs.rowsSorted_apply htruth hfront hbefore op fun k v hop hk e he => by
          obtain ⟨m, hm⟩ := ih.arrived e he
          subst hop
          exact fun ha hb =>
            ⟨m, ops.length, hm.lt_length, hm.concat ha, .of_last (habsent k hk) hb⟩
        rw [← hstate] at hafter
        exact hafter.mono fun a ha b hb hab => hab (hheld a ha) (hheld b hb)

/-- The lists of a table after a run: their keys are those that have arrived in the run, each by one
of its writes, and the entries of a list lie in the order of these writes. -/
structure ListsInOrder (t₀ : Table β) (env : σ) (ops : List (Store.Op K V)) : Prop where
  complete : ∀ k n, t₀.ArrivedAt env ops k n → ∃ b ∈ (Store.run t₀ env ops).state.buckets,
    ∃ list ∈ (Bucket.layout b).rows, ∃ e ∈ list, e.1 = k
  arrived : ∀ b ∈ (Store.run t₀ env ops).state.buckets, ∀ list ∈ (Bucket.layout b).rows,
    ∀ e ∈ list, ∃ n, t₀.ArrivedAt env ops e.1 n ∧ ∀ m, t₀.ArrivedAt env ops e.1 m → m = n
  sorted : ∀ b ∈ (Store.run t₀ env ops).state.buckets, ∀ list ∈ (Bucket.layout b).rows,
    list.Pairwise fun a b =>
      ∀ m n, t₀.ArrivedAt env ops a.1 m → t₀.ArrivedAt env ops b.1 n → m < n

omit [EquivBEq K] [Surroundings σ] [TruthfulAccess σ β K V] in
theorem InOrder.listsInOrder {ops : List (Store.Op K V)} (h : t.InOrder env ops)
    (hp : (Store.run t env ops).state.Placed)
    (hrows : ∀ b : β, LawfulBucket.Sound b → Bucket.RowsPlaced b) :
    t.ListsInOrder env ops := by
  have hrow : ∀ b ∈ (Store.run t env ops).state.buckets, ∀ list ∈ (Bucket.layout b).rows,
      (∀ e ∈ list, e ∈ (Store.run t env ops).state.entries) ∧
        list.Pairwise fun a b => t.Earlier env ops a.1 b.1 := by
    intro b hb list hlist
    obtain ⟨i, hi, rfl⟩ := Array.getElem_of_mem hb
    exact h.sorted.pairwise_row hp hi (hrows _ (hp.sound i hi)) hlist
  constructor
  case complete =>
    intro k n hn
    obtain ⟨e, he, hk⟩ := h.complete k n hn
    obtain ⟨b, hb, list, hlist, he⟩ := exists_row_of_mem he
    exact ⟨b, hb, list, hlist, e, he, hk⟩
  case arrived =>
    intro b hb list hlist e he
    obtain ⟨n, hn⟩ := h.arrived e ((hrow b hb list hlist).1 e he)
    exact ⟨n, hn, fun m hm => hm.unique hn⟩
  case sorted =>
    intro b hb list hlist
    refine (hrow b hb list hlist).2.imp fun {a b} hab m n hm hn => ?_
    obtain ⟨m', n', hlt, hm', hn'⟩ := hab
    rw [hm.unique hm', hn.unique hn']
    exact hlt

/-- In a table whose lists grow at the end, the entries of each list lie in the order in which the
writes of the run behind the table brought them in, whichever calls to buckets have been refused. -/
theorem run_create_lists_in_order {K V : Type} [BEq K] [EquivBEq K] [Hashable K] {shape : Shape}
    (hshape : shape.core = .append) (requested : Nat) {faults : Faults} (ht : faults.Truthful)
    (ops : List (Store.Op K V)) :
    (create (shape.factory K V) requested).1.ListsInOrder faults ops := by
  have hfront : LawfulBucket.front (shape.Content K V) = false := by
    rw [← shape.front_core, hshape]
    rfl
  have hf : (shape.factory K V).Lawful := shape.factory_lawful
  have ht : Surroundings.Truthful faults := ht
  have hs := sound_create hf requested
  have horder := hs.inOrder_run ht hfront (entries_create hf requested) ops
  exact horder.listsInOrder (hs.run ht ops).1.toPlaced fun _ hb => shape.rowsPlaced hb

/-- The first attempt to grow is refused at its second entry, the next one is not.  1 has been
removed and written again, and 3 is written again under another hash, with which it is a key of its
own. -/
theorem run_create_lists_in_order_after_refused_growth :
    let shape := Shape.striped 2 .append
    let faults : Faults := { Faults.none with onSet := fun i => if i = 4 then .refused else .done }
    let ops : List (Store.Op Key Nat) := [.set (.custom 1 0) 10, .set (.custom 2 0) 20,
      .set (.custom 3 0) 30, .delete (.custom 1 0), .set (.custom 1 0) 11, .set (.custom 2 0) 21,
      .set (.custom 3 1) 31]
    let t₀ := (create (shape.factory Key Nat) 1).1
    shape.core = .append ∧ faults.Truthful ∧ EquivBEq Key ∧
      (Store.run t₀ faults (ops.take 3)).state.capacity = 1 ∧
      (Store.run t₀ faults ops).state.buckets.toList.map
        (fun b => (Bucket.layout b).rows.map fun list => list.map (·.2)) =
          [[[21, 30, 11], []], [[], [31]]] ∧
      t₀.ListsInOrder faults ops := by
  intro shape faults ops t₀
  have ht : faults.Truthful := Faults.truthful_refusing _
  have hshape : shape.core = .append := rfl
  refine ⟨hshape, ht, inferInstance, ?_, ?_, run_create_lists_in_order hshape 1 ht ops⟩
  · decide +kernel
  · decide +kernel

end Table
end HashStore
