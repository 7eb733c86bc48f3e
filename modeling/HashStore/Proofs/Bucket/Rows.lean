import Mathlib.Data.List.Basic
import HashStore.Proofs.Bucket.Striping

/-! # Rows

The entries of a bucket lie in rows, one in each of its innermost buckets (`Layout.rows`).  In terms
of places a row is what one place selects from all entries (`rowAt`), and in a sound bucket of any
shape the two are the same (`Shape.rowsPlaced`).

An update leaves the keys of a row as they are.  A new entry goes to one end of its row, at which
end is settled by the kind of the bucket (`extended`), and the other rows do not change. -/

namespace HashStore

open Entries

/-! ### The rows of a layout -/

namespace Layout

variable {K V : Type}

mutual

/-- The rows, stripe after stripe. -/
def rows : Layout K V → List (List (K × V))
  | row list => [list]
  | stripes parts => rowsOfAll parts

def rowsOfAll : List (Layout K V) → List (List (K × V))
  | [] => []
  | part :: rest => part.rows ++ rowsOfAll rest

end

theorem rowsOfAll_eq_flatMap (parts : List (Layout K V)) :
    rowsOfAll parts = parts.flatMap rows := by
  induction parts with
  | nil => rfl
  | cons part rest ih => rw [rowsOfAll, ih, List.flatMap_cons]

@[simp] theorem rows_row (list : List (K × V)) : (row list).rows = [list] := by
  rw [rows]

@[simp] theorem rows_stripes (parts : List (Layout K V)) :
    (stripes parts).rows = parts.flatMap rows := by
  rw [rows, rowsOfAll_eq_flatMap]

mutual

/-- The rows hold all entries, in their order. -/
theorem flatten_rows : (l : Layout K V) → l.rows.flatten = l.entries
  | row list => by simp
  | stripes parts => by
      rw [rows, entries]
      exact flatten_rowsOfAll parts

theorem flatten_rowsOfAll :
    (parts : List (Layout K V)) → (rowsOfAll parts).flatten = entriesOfAll parts
  | [] => rfl
  | part :: rest => by
      rw [rowsOfAll, entriesOfAll, List.flatten_append, flatten_rows part, flatten_rowsOfAll rest]

end

mutual

/-- The layout with a change made to each of its rows. -/
def mapRows (f : List (K × V) → List (K × V)) : Layout K V → Layout K V
  | row list => row (f list)
  | stripes parts => stripes (mapRowsOfAll f parts)

def mapRowsOfAll (f : List (K × V) → List (K × V)) : List (Layout K V) → List (Layout K V)
  | [] => []
  | part :: rest => part.mapRows f :: mapRowsOfAll f rest

end

theorem mapRowsOfAll_eq_map (f : List (K × V) → List (K × V)) (parts : List (Layout K V)) :
    mapRowsOfAll f parts = parts.map (mapRows f) := by
  induction parts with
  | nil => rfl
  | cons part rest ih => rw [mapRowsOfAll, ih, List.map_cons]

@[simp] theorem mapRows_row (f : List (K × V) → List (K × V)) (list : List (K × V)) :
    (row list).mapRows f = row (f list) := by
  rw [mapRows]

@[simp] theorem mapRows_stripes (f : List (K × V) → List (K × V)) (parts : List (Layout K V)) :
    (stripes parts).mapRows f = stripes (parts.map (mapRows f)) := by
  rw [mapRows, mapRowsOfAll_eq_map]

variable {f : List (K × V) → List (K × V)} {p : K × V → Bool}

mutual

/-- If a change selects entries of each row, it selects them from the whole. -/
theorem perm_entries_mapRows (hf : ∀ list, (f list).Perm (list.filter p)) :
    (l : Layout K V) → (l.mapRows f).entries.Perm (l.entries.filter p)
  | row list => by
      rw [mapRows, entries, entries]
      exact hf list
  | stripes parts => by
      rw [mapRows, entries, entries]
      exact perm_entries_mapRowsOfAll hf parts

theorem perm_entries_mapRowsOfAll (hf : ∀ list, (f list).Perm (list.filter p)) :
    (parts : List (Layout K V)) →
      (entriesOfAll (mapRowsOfAll f parts)).Perm ((entriesOfAll parts).filter p)
  | [] => List.Perm.refl _
  | part :: rest => by
      rw [mapRowsOfAll, entriesOfAll, entriesOfAll, List.filter_append]
      exact (perm_entries_mapRows hf part).append (perm_entries_mapRowsOfAll hf rest)

end

end Layout

/-! ### The row of a place -/

section rowAt

variable {K V : Type} [Hashable K] {place : UInt64 → List Nat}

/-- The entries that lie in the row of a place. -/
def rowAt (place : UInt64 → List Nat) (p : List Nat) (l : List (K × V)) : List (K × V) :=
  l.filter fun e => place (hash e.1) = p

theorem mem_rowAt {p : List Nat} {l : List (K × V)} {e : K × V} :
    e ∈ rowAt place p l ↔ e ∈ l ∧ place (hash e.1) = p := by
  simp [rowAt]

theorem rowAt_append (p : List Nat) (a b : List (K × V)) :
    rowAt place p (a ++ b) = rowAt place p a ++ rowAt place p b := List.filter_append ..

theorem rowAt_eq_nil {p : List Nat} {l : List (K × V)} (h : ∀ e ∈ l, place (hash e.1) ≠ p) :
    rowAt place p l = [] := by
  rw [rowAt, List.filter_eq_nil_iff]
  exact fun e he hp => h e he (of_decide_eq_true hp)

theorem rowAt_onlyPlace (l : List (K × V)) : rowAt onlyPlace [] l = l := by
  rw [rowAt, List.filter_eq_self]
  exact fun _ _ => decide_eq_true rfl

/-- Among finer places every row is a part of a row. -/
theorem exists_rowAt_sublist {place' : UInt64 → List Nat}
    (hle : ∀ u v, place u = place v → place' u = place' v) (p : List Nat) (l : List (K × V)) :
    ∃ p', (rowAt place p l).Sublist (rowAt place' p' l) := by
  by_cases hempty : rowAt place p l = []
  · exact ⟨[], by rw [hempty]; exact List.nil_sublist _⟩
  · obtain ⟨e, he⟩ := List.exists_mem_of_ne_nil _ hempty
    refine ⟨place' (hash e.1), List.monotone_filter_right l fun e' he' => ?_⟩
    have hsame : place (hash e'.1) = place (hash e.1) :=
      (of_decide_eq_true he').trans (mem_rowAt.mp he).2.symm
    exact decide_eq_true (hle _ _ hsame)

/-- In a row of parts between which keys are divided, the rows of a part are rows of the whole. -/
theorem rowAt_layer {sel : UInt64 → Nat} {i : Nat} {x a b : List (K × V)}
    (hx : ∀ e ∈ x, sel (hash e.1) = i) (hab : ∀ e ∈ a ++ b, sel (hash e.1) ≠ i) (p : List Nat) :
    rowAt (fun u => sel u :: place u) (i :: p) (a ++ x ++ b) = rowAt place p x := by
  have hother : ∀ e ∈ a ++ b, sel (hash e.1) :: place (hash e.1) ≠ i :: p :=
    fun e he heq => hab e he (List.cons.inj heq).1
  rw [rowAt_append, rowAt_append, rowAt_eq_nil fun e he => hother e (List.mem_append_left _ he),
    rowAt_eq_nil fun e he => hother e (List.mem_append_right _ he), List.nil_append,
    List.append_nil]
  refine List.filter_congr fun e he => decide_eq_decide.mpr ?_
  rw [List.cons.injEq]
  exact and_iff_right (hx e he)

end rowAt

/-! ### New entries in a row -/

section extended

variable {K V : Type}

/-- A row after other entries have come to it, one after another, each to the front of the row if
`front` holds, and to the end of it if not. -/
def extended (front : Bool) (row new : List (K × V)) : List (K × V) :=
  if front then new.reverse ++ row else row ++ new

theorem extended_nil (front : Bool) (row : List (K × V)) : extended front row [] = row := by
  cases front with
  | true => rfl
  | false => exact List.append_nil row

theorem extended_append (front : Bool) (row a b : List (K × V)) :
    extended front (extended front row a) b = extended front row (a ++ b) := by
  cases front <;> simp [extended]

variable [BEq K] [Hashable K] {place : UInt64 → List Nat} {front : Bool} {k : K} {v : V}
  {old new : List (K × V)}

/-- A new entry comes to the end of its own row, as nothing of the row stands between, and to no other
row. -/
theorem Wrote.rowAt_inserted (h : Wrote place front k v old .inserted new) (p : List Nat) :
    rowAt place p new = extended front (rowAt place p old) (rowAt place p [(k, v)]) := by
  cases h with
  | @inserted a b hold hk hend =>
      rw [hold, List.append_cons, rowAt_append, rowAt_append, rowAt_append]
      by_cases hp : place (hash k) = p
      · rw [hp] at hend
        have hnil := rowAt_eq_nil hend
        cases front with
        | true =>
            rw [if_pos rfl] at hnil
            rw [hnil]
            simp [extended, rowAt, hp]
        | false =>
            rw [if_neg Bool.false_ne_true] at hnil
            rw [hnil]
            simp [extended]
      · have hnil : rowAt place p [(k, v)] = [] := by simp [rowAt, hp]
        rw [hnil, extended_nil, List.append_nil]

theorem Wrote.rowAt_updated (h : Wrote place front k v old .updated new) (p : List Nat) :
    (rowAt place p new).map (·.1) = (rowAt place p old).map (·.1) := by
  cases h with
  | updated hk =>
      have hkey : ∀ e : K × V, (if meets place e.1 k then (e.1, v) else e).1 = e.1 := by
        intro e
        split <;> rfl
      rw [rowAt, revalue, List.filter_map, List.map_map]
      simp only [rowAt, Function.comp_def, hkey]

end extended

/-! ### The rows of a bucket -/

section buckets

variable {β K V : Type} [BEq K] [Hashable K] [Bucket β K V] [LawfulBucket β K V]

/-- Every row of a bucket is the row of a place. -/
def Bucket.RowsPlaced (b : β) : Prop :=
  ∀ row ∈ (Bucket.layout b).rows, ∃ p, row = rowAt (LawfulBucket.place β) p (Bucket.entries b)

theorem Bucket.rowsPlaced_of_row (hplace : LawfulBucket.place β = onlyPlace) {b : β}
    (hlayout : Bucket.layout b = .row (Bucket.entries b)) : Bucket.RowsPlaced b := by
  intro row hrow
  rw [hlayout, Layout.rows_row, List.mem_singleton] at hrow
  exact ⟨[], by rw [hplace, rowAt_onlyPlace, hrow]⟩

theorem Striped.Sound.rowAt_stripe {bits : Nat} {s : Striped bits β} (h : s.Sound)
    (i : Fin (powerOfTwo bits)) (p : List Nat) :
    rowAt (LawfulBucket.place (Striped bits β)) (i :: p) (Bucket.entries s) =
      rowAt (LawfulBucket.place β) p (Bucket.entries (s.stripe i)) := by
  obtain ⟨a, c, hsplit, -, hother⟩ := h.exists_split i
  rw [hsplit]
  exact rowAt_layer (fun e he => congrArg Fin.val (h.placed i e he)) hother p

theorem Striped.Sound.rowsPlaced {bits : Nat} {s : Striped bits β} (h : s.Sound)
    (hin : ∀ i, Bucket.RowsPlaced (s.stripe i)) : Bucket.RowsPlaced s := by
  intro row hrow
  rw [Striped.layout_eq, Layout.rows_stripes, List.flatMap_map] at hrow
  obtain ⟨i, -, hmem⟩ := List.mem_flatMap.mp hrow
  obtain ⟨p, hp⟩ := hin i row hmem
  exact ⟨i :: p, hp.trans (h.rowAt_stripe i p).symm⟩

/-- Two buckets whose rows differ by a change, place by place. -/
def Bucket.RowsDiffer (f : List (K × V) → List (K × V)) (b b' : β) : Prop :=
  ∀ p, rowAt (LawfulBucket.place β) p (Bucket.entries b') =
    f (rowAt (LawfulBucket.place β) p (Bucket.entries b))

variable {f : List (K × V) → List (K × V)}

theorem Bucket.RowsDiffer.layout_of_row {b b' : β} (hdiff : Bucket.RowsDiffer f b b')
    (hplace : LawfulBucket.place β = onlyPlace)
    (hlayout : ∀ b : β, Bucket.layout b = .row (Bucket.entries b)) :
    Bucket.layout b' = (Bucket.layout b).mapRows f := by
  have hrow := hdiff []
  rw [hplace, rowAt_onlyPlace, rowAt_onlyPlace] at hrow
  rw [hlayout, hlayout, Layout.mapRows_row, hrow]

theorem Striped.Sound.layout_of_stripes {bits : Nat} {s s' : Striped bits β} (h : s.Sound)
    (h' : s'.Sound) (hdiff : Bucket.RowsDiffer f s s')
    (hin : ∀ i, Bucket.RowsDiffer f (s.stripe i) (s'.stripe i) →
      Bucket.layout (s'.stripe i) = (Bucket.layout (s.stripe i)).mapRows f) :
    Bucket.layout s' = (Bucket.layout s).mapRows f := by
  rw [Striped.layout_eq, Striped.layout_eq, Layout.mapRows_stripes, List.map_map]
  refine congrArg Layout.stripes (List.map_congr_left fun i _ => hin i fun p => ?_)
  rw [← h'.rowAt_stripe, ← h.rowAt_stripe]
  exact hdiff (i :: p)

end buckets

namespace Shape

variable {K V : Type} [BEq K] [EquivBEq K] [Hashable K] (shape : Shape)

theorem rowsPlaced {b : shape.Content K V} (h : LawfulBucket.Sound b) : Bucket.RowsPlaced b := by
  induction shape with
  | append =>
      exact Bucket.rowsPlaced_of_row rfl
        (congrArg Layout.row (AppendList.bucket_entries b).symm)
  | push =>
      exact Bucket.rowsPlaced_of_row rfl (congrArg Layout.row (PushList.bucket_entries b).symm)
  | striped requested inner ih =>
      exact Striped.Sound.rowsPlaced h fun i => ih (Striped.Sound.stripe h i)

/-- Where the rows of two buckets differ by a change, so do their layouts. -/
theorem layout_of_rowsDiffer {b b' : shape.Content K V} (h : LawfulBucket.Sound b)
    (h' : LawfulBucket.Sound b') {f : List (K × V) → List (K × V)}
    (hdiff : Bucket.RowsDiffer f b b') : Bucket.layout b' = (Bucket.layout b).mapRows f := by
  induction shape with
  | append =>
      exact hdiff.layout_of_row rfl fun b => congrArg Layout.row (AppendList.bucket_entries b).symm
  | push =>
      exact hdiff.layout_of_row rfl fun b => congrArg Layout.row (PushList.bucket_entries b).symm
  | striped requested inner ih =>
      exact Striped.Sound.layout_of_stripes h h' hdiff fun i =>
        ih (Striped.Sound.stripe h i) (Striped.Sound.stripe h' i)

end Shape
end HashStore
