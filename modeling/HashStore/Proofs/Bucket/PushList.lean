import HashStore.Bucket.PushList
import HashStore.Proofs.Bucket.AppendList

/-! # Linked lists are lawful

A `PushList` keeps the nodes of removed entries, and links lead past them.  The entries are told by the
numbers of the nodes instead (`entryAt`, `below`), where links do not show.  `Linked` says that a link
never passes over an entry: between a node and the one that its link leads to, all nodes have been
removed.  That is as true of removed nodes as of others, it stays true when a link is turned past a
removed node (`Linked.bypass`), and it makes a walk along the links a walk down the numbers
(`Linked.entries_eq`, `Linked.visitFrom_const`).

`Sought` is what the search for a key leaves.  A write and a removal are described by what they do to
the entry of each node (`Sound.entryAt_set`, `Sound.entryAt_delete`). -/

namespace HashStore

open Entries

namespace PushList

variable {K V : Type}

/-! ### Entries by number -/

/-- The entry of a node that has not been removed. -/
def entryAt (l : PushList K V) (i : Nat) : Option (K × V) :=
  (l.nodes[i]?.filter fun node => !node.removed).map Node.entry

/-- The entries of the nodes with numbers below `n`, newest first. -/
def below (l : PushList K V) : Nat → List (K × V)
  | 0 => []
  | i + 1 => (l.entryAt i).toList ++ l.below i

/-- A link passes over no entry on the way down from number `n`. -/
def Skips (l : PushList K V) (n link : Nat) : Prop := ∀ i, link ≤ i → i < n → l.entryAt i = none

section numbers

variable {l l' : PushList K V} {n link link' : Nat}

theorem entryAt_of_removed {i : Nat} {node : Node K V} (h : l.nodes[i]? = some node)
    (hr : node.removed = true) : l.entryAt i = none := by simp [entryAt, h, hr]

theorem entryAt_of_not_removed {i : Nat} {node : Node K V} (h : l.nodes[i]? = some node)
    (hr : node.removed = false) : l.entryAt i = some node.entry := by simp [entryAt, h, hr]

theorem lt_size_of_entryAt {i : Nat} {e : K × V} (h : l.entryAt i = some e) :
    i < l.nodes.size := by
  rcases Nat.lt_or_ge i l.nodes.size with hi | hi
  · exact hi
  · simp [entryAt, Array.getElem?_eq_none hi] at h

theorem Skips.trans (h : l.Skips n link) (h' : l.Skips link link') : l.Skips n link' := by
  intro i hi hn
  rcases Nat.lt_or_ge i link with hlt | hge
  · exact h' i hi hlt
  · exact h i hge hn

theorem below_eq_of_skips (h : l.Skips n link) (hle : link ≤ n) : l.below n = l.below link := by
  induction n with
  | zero => rw [Nat.le_zero.mp hle]
  | succ n ih =>
      rcases Nat.eq_or_lt_of_le hle with rfl | hlt
      · rfl
      · have hn : l.entryAt n = none := h n (by omega) (by omega)
        rw [below, hn]
        exact ih (fun i hi hin => h i hi (by omega)) (by omega)

theorem below_map {f : K × V → K × V} (h : ∀ i < n, l'.entryAt i = (l.entryAt i).map f) :
    l'.below n = (l.below n).map f := by
  induction n with
  | zero => rfl
  | succ n ih =>
      rw [below, below, h n (Nat.lt_succ_self n), ih fun i hi => h i (by omega), List.map_append]
      cases l.entryAt n <;> rfl

theorem below_congr (h : ∀ i < n, l'.entryAt i = l.entryAt i) : l'.below n = l.below n := by
  induction n with
  | zero => rfl
  | succ n ih => rw [below, below, h n (Nat.lt_succ_self n), ih fun i hi => h i (by omega)]

theorem below_filter {p : K × V → Bool} (h : ∀ i < n, l'.entryAt i = (l.entryAt i).filter p) :
    l'.below n = (l.below n).filter p := by
  induction n with
  | zero => rfl
  | succ n ih =>
      rw [below, below, h n (Nat.lt_succ_self n), ih fun i hi => h i (by omega),
        List.filter_append]
      cases l.entryAt n with
      | none => rfl
      | some e => cases hp : p e <;> simp [Option.filter, hp]

theorem mem_below {e : K × V} : e ∈ l.below n ↔ ∃ i < n, l.entryAt i = some e := by
  induction n with
  | zero => simp [below]
  | succ n ih =>
      rw [below, List.mem_append, Option.mem_toList, ih]
      constructor
      · rintro (h | ⟨i, hi, h⟩)
        · exact ⟨n, Nat.lt_succ_self n, h⟩
        · exact ⟨i, by omega, h⟩
      · rintro ⟨i, hi, h⟩
        rcases Nat.eq_or_lt_of_le (Nat.le_of_lt_succ hi) with rfl | hlt
        · exact Or.inl h
        · exact Or.inr ⟨i, hlt, h⟩

/-- Entries of different nodes have different keys. -/
theorem same_eq_false_of_lt {same : K → K → Bool} (hd : Distinct same (l.below n)) {i j : Nat}
    {e e' : K × V} (hi : i < n) (hji : j < i) (he : l.entryAt i = some e)
    (he' : l.entryAt j = some e') : same e.1 e'.1 = false := by
  induction n with
  | zero => omega
  | succ n ih =>
      rw [below, Distinct, List.pairwise_append] at hd
      rcases Nat.eq_or_lt_of_le (Nat.le_of_lt_succ hi) with rfl | hlt
      · exact hd.2.2 e (by simp [he]) e' (mem_below.mpr ⟨j, hji, he'⟩)
      · exact ih hd.2.1 hlt

end numbers

/-! ### Changes of nodes and links -/

section changes

variable (l : PushList K V) (i j : Nat)

theorem entryAt_alter (f : Node K V → Node K V) (hf : ∀ node, (f node).next ≤ node.next) :
    (l.alter i f hf).entryAt j =
      if i = j then ((l.nodes[j]?.map f).filter fun node => !node.removed).map Node.entry
      else l.entryAt j := by
  rw [entryAt, getElem?_alter]
  split <;> rfl

@[simp] theorem size_alter (f : Node K V → Node K V) (hf : ∀ node, (f node).next ≤ node.next) :
    (l.alter i f hf).nodes.size = l.nodes.size := Array.size_modify

theorem next_alter (f : Node K V → Node K V) (hf : ∀ node, (f node).next ≤ node.next) :
    (l.alter i f hf).next (j + 1) =
      if i = j then ((l.nodes[j]?.map f).map (·.next)).getD 0 else l.next (j + 1) := by
  rw [next, getElem?_alter]
  split <;> rfl

theorem entryAt_assign (v : V) : (l.assign i v).entryAt j =
    if i = j then (l.entryAt j).map fun e => (e.1, v) else l.entryAt j := by
  rw [assign, entryAt_alter, entryAt]
  cases l.nodes[j]? with
  | none => simp
  | some node => cases hr : node.removed <;> simp [hr, Option.filter, Node.entry]

theorem entryAt_mark : (l.mark i).entryAt j = if i = j then none else l.entryAt j := by
  have hmark : (l.mark i).entryAt j =
      (l.alter i (fun node => { node with removed := true }) fun _ => Nat.le_refl _).entryAt j := rfl
  rw [hmark, entryAt_alter]
  cases l.nodes[j]? <;> simp [Option.filter]

@[simp] theorem entryAt_bypass (holder : Holder) : (l.bypass holder).entryAt j = l.entryAt j := by
  cases holder with
  | list => rfl
  | node i =>
      rw [bypass, entryAt_alter, entryAt]
      cases l.nodes[j]? with
      | none => simp
      | some node => cases hr : node.removed <;> simp [hr, Option.filter, Node.entry]

@[simp] theorem size_bypass (holder : Holder) :
    (l.bypass holder).nodes.size = l.nodes.size := by
  cases holder with
  | list => rfl
  | node i => exact l.size_alter i _ fun node => l.next_le_self node.next

@[simp] theorem length_bypass (holder : Holder) : (l.bypass holder).length = l.length := by
  cases holder <;> rfl

theorem entryAt_push (k : K) (v : V) : (l.push k v).entryAt j =
    if j = l.nodes.size then some (k, v) else l.entryAt j := by
  rw [entryAt, push, Array.getElem?_push]
  split <;> rfl

/-- Where links are kept, a change of a node turns none. -/
theorem linkOf_alter {f : Node K V → Node K V} (hf : ∀ node, (f node).next = node.next)
    (holder : Holder) :
    (l.alter i f fun node => Nat.le_of_eq (hf node)).linkOf holder = l.linkOf holder := by
  cases holder with
  | list => rfl
  | node j =>
      rw [linkOf, linkOf, next_alter, next]
      cases l.nodes[j]? <;> simp [hf]

@[simp] theorem linkOf_assign (v : V) (holder : Holder) :
    (l.assign i v).linkOf holder = l.linkOf holder :=
  linkOf_alter l i (f := fun node => { node with value := v }) (fun _ => rfl) holder

@[simp] theorem linkOf_mark (holder : Holder) :
    (l.mark i).linkOf holder = l.linkOf holder := by
  rw [← linkOf_alter l i (f := fun node => { node with removed := true }) (fun _ => rfl) holder]
  cases holder <;> rfl

@[simp] theorem size_assign (v : V) : (l.assign i v).nodes.size = l.nodes.size := size_alter ..

@[simp] theorem size_mark : (l.mark i).nodes.size = l.nodes.size := Array.size_modify

@[simp] theorem size_push (k : K) (v : V) : (l.push k v).nodes.size = l.nodes.size + 1 :=
  Array.size_push ..

theorem linkOf_le_size (holder : Holder) : l.linkOf holder ≤ l.nodes.size := by
  cases holder with
  | list => exact l.head_le
  | node i =>
      cases h : l.nodes[i]? with
      | none => simp [linkOf, next, h]
      | some node =>
          have hi := (Array.getElem?_eq_some_iff.mp h).1
          have := l.next_succ_le i
          show l.next (i + 1) ≤ _
          omega

end changes

/-! ### Links pass over no entries -/

/-- No link passes over an entry. -/
structure Linked (l : PushList K V) : Prop where
  head_skips : l.Skips l.nodes.size l.head
  next_skips : ∀ i < l.nodes.size, l.Skips i (l.next (i + 1))

namespace Linked

variable {l : PushList K V} (h : l.Linked)

include h

/-- What is passed over if a link is turned past a removed node. -/
theorem skips_next {link : Nat} (hle : link ≤ l.nodes.size)
    (hnone : ∀ i, link = i + 1 → l.entryAt i = none) : l.Skips link (l.next link) := by
  cases link with
  | zero => exact fun i _ hi => absurd hi (Nat.not_lt_zero i)
  | succ i =>
      intro j hj hji
      rcases Nat.eq_or_lt_of_le (Nat.le_of_lt_succ hji) with rfl | hlt
      · exact hnone j rfl
      · exact h.next_skips i (by omega) j hj hlt

theorem of_same_links {l' : PushList K V} (hsize : l'.nodes.size = l.nodes.size)
    (hlink : ∀ holder, l'.linkOf holder = l.linkOf holder)
    (hentry : ∀ i, l.entryAt i = none → l'.entryAt i = none) : l'.Linked where
  head_skips i hi hsz := by
    have hhead : l'.head = l.head := hlink .list
    rw [hhead] at hi
    rw [hsize] at hsz
    exact hentry i (h.head_skips i hi hsz)
  next_skips i hi j hj hji := by
    have hnext : l'.next (i + 1) = l.next (i + 1) := hlink (.node i)
    rw [hnext] at hj
    rw [hsize] at hi
    exact hentry j (h.next_skips i hi j hj hji)

theorem bypass {holder : Holder} (hnone : ∀ i, l.linkOf holder = i + 1 → l.entryAt i = none) :
    (l.bypass holder).Linked := by
  have hpast := h.skips_next (l.linkOf_le_size holder) hnone
  have hskips : ∀ {n link}, l.Skips n link → (l.bypass holder).Skips n link :=
    fun hs i hi hn => by rw [entryAt_bypass]; exact hs i hi hn
  constructor
  · rw [size_bypass]
    apply hskips
    cases holder with
    | list => exact h.head_skips.trans hpast
    | node i => exact h.head_skips
  · intro j hj
    rw [size_bypass] at hj
    apply hskips
    cases holder with
    | list => exact h.next_skips j hj
    | node i =>
        by_cases hij : i = j
        · have hturned : (l.bypass (.node i)).next (j + 1) = l.next (l.next (j + 1)) := by
            rw [← hij]
            exact linkOf_bypass l (.node i)
          rw [hturned]
          subst hij
          exact (h.next_skips i hj).trans hpast
        · have hkept : (l.bypass (.node i)).next (j + 1) = l.next (j + 1) := by
            rw [PushList.bypass, next_alter, if_neg hij]
          rw [hkept]
          exact h.next_skips j hj

theorem assign (i : Nat) (v : V) : (l.assign i v).Linked := by
  refine h.of_same_links (size_assign ..) (linkOf_assign l i v) fun j hj => ?_
  rw [entryAt_assign, hj]
  simp

theorem mark (i : Nat) : (l.mark i).Linked := by
  refine h.of_same_links (size_mark ..) (linkOf_mark l i) fun j hj => ?_
  rw [entryAt_mark, hj]
  simp

theorem push (k : K) (v : V) : (l.push k v).Linked where
  head_skips i hi hsz := by
    simp only [PushList.push, Array.size_push] at hi hsz
    omega
  next_skips i hi j hj hji := by
    simp only [PushList.push, Array.size_push] at hi
    have hnext : (l.push k v).next (i + 1) = if i = l.nodes.size then l.head else l.next (i + 1) := by
      rw [next, PushList.push, Array.getElem?_push]
      split <;> rfl
    rw [hnext] at hj
    rw [entryAt_push, if_neg (by omega)]
    split at hj
    · exact h.head_skips j hj (by omega)
    · exact h.next_skips i (by omega) j hj hji

/-! ### Walks -/

theorem skips_of_node {i : Nat} {node : Node K V} (hnode : l.nodes[i]? = some node) :
    l.Skips i node.next := by
  rw [← next_succ hnode]
  exact h.next_skips i (Array.getElem?_eq_some_iff.mp hnode).1

theorem below_next {i : Nat} {node : Node K V} (hnode : l.nodes[i]? = some node) :
    l.below i = l.below node.next :=
  below_eq_of_skips (h.skips_of_node hnode) (l.next_le hnode)

/-- Where a link leads there is a node, whose own link passes over no entry. -/
theorem exists_node {i : Nat} (hi : i < l.nodes.size) :
    ∃ node, l.nodes[i]? = some node ∧ node.next ≤ i ∧ l.Skips i node.next :=
  have hnode := Array.getElem?_eq_getElem hi
  ⟨_, hnode, l.next_le hnode, h.skips_of_node hnode⟩

theorem chain_entries (link : Nat) (hle : link ≤ l.nodes.size) :
    ((l.chain link).filter fun node => !node.removed).map Node.entry = l.below link := by
  induction link using Nat.strong_induction_on with
  | _ link ih =>
      cases link with
      | zero => simp [chain, below]
      | succ i =>
          obtain ⟨node, hnode, hnext, -⟩ := h.exists_node hle
          rw [chain_succ hnode, below, h.below_next hnode, ← ih node.next (by omega) (by omega)]
          cases hr : node.removed with
          | true => simp [entryAt_of_removed hnode hr, hr]
          | false => simp [entryAt_of_not_removed hnode hr, hr]

theorem below_head : l.below l.nodes.size = l.below l.head :=
  below_eq_of_skips h.head_skips l.head_le

theorem entries_eq : l.entries = l.below l.nodes.size := by
  rw [entries, h.chain_entries l.head l.head_le, h.below_head]

theorem visitFrom_const {ω : Type} (visit : K → V → ω → Bool × ω) (link : Nat)
    (hle : link ≤ l.nodes.size) (w : ω) :
    visitFrom (fun _ => l) visit link w = visitAll visit (l.below link) w := by
  induction link using Nat.strong_induction_on generalizing w with
  | _ link ih =>
      cases link with
      | zero => simp [visitFrom, below, visitAll]
      | succ i =>
          obtain ⟨node, hnode, hnext, -⟩ := h.exists_node hle
          have hrest : ∀ w, _ = _ := ih node.next (by omega) (by omega)
          rw [visitFrom_succ _ hnode, below, h.below_next hnode]
          cases hr : node.removed with
          | true => simp [entryAt_of_removed hnode hr, hrest]
          | false => simp [entryAt_of_not_removed hnode hr, hrest, Node.entry, visitAll]

end Linked

variable [BEq K]

/-! ### Looking for a key -/

/-- A list that differs from `l` in links only, and in these only where removed nodes lie. -/
structure Relinked (l l' : PushList K V) : Prop where
  linked : l'.Linked
  entryAt_eq : ∀ i, l'.entryAt i = l.entryAt i
  size_eq : l'.nodes.size = l.nodes.size
  length_eq : l'.length = l.length

/-- What the search for a key from a link on leaves: a link to a node that has it, or a link that leads
nowhere if there is none. -/
structure Sought (l : PushList K V) (k : K) (link : Nat) (r : Holder × PushList K V) : Prop
    extends Relinked l r.2 where
  absent : r.2.linkOf r.1 = 0 → ∀ e ∈ l.below link, (e.1 == k) = false
  present : ∀ i, r.2.linkOf r.1 = i + 1 → ∃ e, l.entryAt i = some e ∧ (e.1 == k) = true

omit [BEq K] in
theorem Relinked.entries_eq {l l' : PushList K V} (hl : Relinked l l') (h : l.Linked) :
    l'.entries = l.entries := by
  rw [hl.linked.entries_eq, h.entries_eq, hl.size_eq]
  exact below_congr fun i _ => hl.entryAt_eq i

theorem Linked.seek {l : PushList K V} (h : l.Linked) (k : K) (holder : Holder) :
    Sought l k (l.linkOf holder) (l.seek k holder) := by
  fun_induction PushList.seek l k holder with
  | case1 l holder h0 =>
      refine ⟨⟨h, fun _ => rfl, rfl, rfl⟩, fun _ e he => ?_, fun i hi => ?_⟩
      · rw [h0] at he
        simp [below] at he
      · rw [h0] at hi
        omega
  | case2 l holder i hi hnone =>
      have hle := l.linkOf_le_size holder
      rw [Array.getElem?_eq_none_iff] at hnone
      omega
  | case3 l holder i hi node hnode hr _ ih =>
      have hnone := entryAt_of_removed hnode hr
      have hb : (l.bypass holder).Linked := h.bypass fun j hj => by
        rw [hi] at hj
        rw [← Nat.succ.inj hj]
        exact hnone
      have hs := ih hb
      refine ⟨⟨hs.linked, fun j => ?_, ?_, ?_⟩, fun h0 e he => ?_, fun j hj => ?_⟩
      · rw [hs.entryAt_eq, entryAt_bypass]
      · rw [hs.size_eq, size_bypass]
      · rw [hs.length_eq, length_bypass]
      · refine hs.absent h0 e ?_
        rw [linkOf_bypass, hi, next_succ hnode, below_congr fun j _ => entryAt_bypass l j holder]
        rw [hi, below, hnone, h.below_next hnode] at he
        exact he
      · obtain ⟨e, he, hek⟩ := hs.present j hj
        rw [entryAt_bypass] at he
        exact ⟨e, he, hek⟩
  | case4 l holder i hi node hnode hr hk =>
      refine ⟨⟨h, fun _ => rfl, rfl, rfl⟩, fun h0 => ?_, fun j hj => ?_⟩
      · cases hi.symm.trans h0
      · obtain rfl := Nat.succ.inj (hi.symm.trans hj)
        exact ⟨_, entryAt_of_not_removed hnode (by simpa using hr), hk⟩
  | case5 l holder i hi node hnode hr hk _ ih =>
      have hs := ih h
      refine ⟨hs.toRelinked, fun h0 e he => ?_, hs.present⟩
      rw [hi, below, entryAt_of_not_removed hnode (by simpa using hr), h.below_next hnode,
        ← next_succ hnode] at he
      rcases List.mem_cons.mp he with rfl | he
      · exact Bool.eq_false_iff.mpr hk
      · exact hs.absent h0 e he

namespace Linked

variable {l : PushList K V} (h : l.Linked) (k : K) (v : V)

include h

/-- The two ways of a write. -/
theorem set_cases :
    (∃ l', Relinked l l' ∧ has (fun a b => a == b) k l.entries = false ∧
      l.set k v = (.inserted, l'.push k v)) ∨
    ∃ l' i e, Relinked l l' ∧ l.entryAt i = some e ∧ (e.1 == k) = true ∧
      l.set k v = (.updated, l'.assign i v) := by
  have hs := h.seek k .list
  rw [PushList.set]
  cases hlink : (l.seek k .list).2.linkOf (l.seek k .list).1 with
  | zero =>
      refine Or.inl ⟨_, hs.toRelinked, ?_, by simp only [hlink]⟩
      rw [h.entries_eq, h.below_head]
      exact has_eq_false_iff.mpr (hs.absent hlink)
  | succ i =>
      obtain ⟨e, he, hk⟩ := hs.present i hlink
      exact Or.inr ⟨_, i, e, hs.toRelinked, he, hk, by simp only [hlink]⟩

/-- The two ways of a removal. -/
theorem delete_cases :
    (∃ l', Relinked l l' ∧ has (fun a b => a == b) k l.entries = false ∧
      l.delete k = (false, l')) ∨
    ∃ l' holder i e, Relinked l l' ∧ l'.linkOf holder = i + 1 ∧ l.entryAt i = some e ∧
      (e.1 == k) = true ∧
      l.delete k = (true, (l'.mark i).bypass holder) := by
  have hs := h.seek k .list
  rw [PushList.delete]
  cases hlink : (l.seek k .list).2.linkOf (l.seek k .list).1 with
  | zero =>
      refine Or.inl ⟨_, hs.toRelinked, ?_, by simp only [hlink]⟩
      rw [h.entries_eq, h.below_head]
      exact has_eq_false_iff.mpr (hs.absent hlink)
  | succ i =>
      obtain ⟨e, he, hk⟩ := hs.present i hlink
      exact Or.inr ⟨_, _, i, e, hs.toRelinked, hlink, he, hk, by simp only [hlink]⟩

theorem has_entries {i : Nat} {e : K × V} (he : l.entryAt i = some e) (hk : (e.1 == k) = true) :
    has (fun a b => a == b) k l.entries = true := by
  rw [h.entries_eq]
  exact List.any_eq_true.mpr ⟨e, mem_below.mpr ⟨i, lt_size_of_entryAt he, he⟩, hk⟩

theorem beq_eq_false_of_has {i : Nat} {e : K × V}
    (hk : has (fun a b => a == b) k l.entries = false) (he : l.entryAt i = some e) :
    (e.1 == k) = false := by
  rw [h.entries_eq] at hk
  exact has_eq_false_iff.mp hk e (mem_below.mpr ⟨i, lt_size_of_entryAt he, he⟩)

omit [BEq K] in
theorem entries_push {l' : PushList K V} (hl : Relinked l l') :
    (l'.push k v).entries = (k, v) :: l.entries := by
  rw [(hl.linked.push k v).entries_eq, h.entries_eq, ← hl.size_eq]
  rw [size_push, below, entryAt_push, if_pos rfl]
  refine congrArg ((k, v) :: ·) (below_congr fun i hi => ?_)
  rw [entryAt_push, if_neg (by omega), hl.entryAt_eq]

theorem size_le_set : l.nodes.size ≤ (l.set k v).2.nodes.size := by
  rcases h.set_cases k v with ⟨l', hl, hk, heq⟩ | ⟨l', j, e, hl, he, hk, heq⟩
  · rw [heq, size_push, hl.size_eq]
    exact Nat.le_succ _
  · rw [heq, size_assign, hl.size_eq]

theorem size_delete : (l.delete k).2.nodes.size = l.nodes.size := by
  rcases h.delete_cases k with ⟨l', hl, hk, heq⟩ | ⟨l', holder, j, e, hl, hlink, he, hk, heq⟩
  · rw [heq, hl.size_eq]
  · rw [heq, size_bypass, size_mark, hl.size_eq]

theorem delete_eq : (l.delete k).1 = has (fun a b => a == b) k l.entries := by
  rcases h.delete_cases k with ⟨l', hl, hk, heq⟩ | ⟨l', holder, i, e, hl, hlink, he, hk, heq⟩
  · rw [heq, hk]
  · rw [heq, h.has_entries k he hk]

end Linked

/-! ### What holds of a list between operations -/

/-- What holds of a list between operations. -/
structure Sound (l : PushList K V) : Prop extends l.Linked where
  length_eq : l.length = l.entries.length
  distinct : Distinct (fun a b => a == b) l.entries

omit [BEq K] in
@[simp] theorem entries_empty : (empty : PushList K V).entries = [] := by
  simp [empty, entries, chain]

theorem sound_empty : (empty : PushList K V).Sound where
  head_skips _ _ hi := absurd hi (Nat.not_lt_zero _)
  next_skips _ hi := absurd hi (Nat.not_lt_zero _)
  length_eq := by rw [entries_empty]; rfl
  distinct := by rw [entries_empty]; exact List.Pairwise.nil

@[simp] theorem bucket_entries (l : PushList K V) : Bucket.entries l = l.entries :=
  Layout.entries_row _

theorem get_eq_find (l : PushList K V) (k : K) :
    l.get k = (find (fun a b => a == b) k l.entries).map (·.2) := by
  rw [get, find, entries, List.find?_map, List.find?_filter, Option.map_map]
  simp [Function.comp_def, Node.entry]

theorem visitAll_found (k : K) (es : List (K × V)) :
    (visitAll (fun k' _ (_ : Bool) => (!(k' == k), k' == k)) es false).2 =
      has (fun a b => a == b) k es := by
  induction es with
  | nil => rfl
  | cons e es ih =>
      cases hk : e.1 == k with
      | true => simp [visitAll, has, hk]
      | false => simpa [visitAll, has, hk] using ih

theorem Linked.contains_eq_has {l : PushList K V} (h : l.Linked) (k : K) :
    l.contains k = has (fun a b => a == b) k l.entries := by
  rw [contains, h.visitFrom_const _ _ l.head_le, ← h.below_head, ← h.entries_eq, visitAll_found]

variable [EquivBEq K]

namespace Sound

variable {l : PushList K V} (h : l.Sound) (k : K) (v : V)

include h

/-- The node of a key has an entry that no other node has. -/
theorem beq_eq_false_of_ne {i j : Nat} {e e' : K × V} (hij : i ≠ j) (he : l.entryAt i = some e)
    (hk : (e.1 == k) = true) (he' : l.entryAt j = some e') : (e'.1 == k) = false := by
  have hd := h.distinct
  rw [h.entries_eq] at hd
  rcases Nat.lt_or_gt_of_ne hij with hlt | hgt
  · have hne := same_eq_false_of_lt hd (lt_size_of_entryAt he') hlt he' he
    exact isSameness_beq.symm_false (isSameness_beq.apart (BEq.symm hk) hne)
  · exact Distinct.unique_of_same isSameness_beq
      (same_eq_false_of_lt hd (lt_size_of_entryAt he) hgt he he') hk

theorem revalue_entryAt {i j : Nat} {e : K × V} (he : l.entryAt i = some e)
    (hk : (e.1 == k) = true) :
    (if i = j then (l.entryAt j).map fun e => (e.1, v) else l.entryAt j) =
      (l.entryAt j).map fun e => if e.1 == k then (e.1, v) else e := by
  by_cases hij : i = j
  · subst hij
    simp [he, hk]
  · rw [if_neg hij]
    cases he' : l.entryAt j with
    | none => rfl
    | some e' => simp [h.beq_eq_false_of_ne k hij he hk he']

theorem remove_entryAt {i j : Nat} {e : K × V} (he : l.entryAt i = some e)
    (hk : (e.1 == k) = true) :
    (if i = j then none else l.entryAt j) = (l.entryAt j).filter fun e => !(e.1 == k) := by
  by_cases hij : i = j
  · subst hij
    simp [he, hk, Option.filter]
  · rw [if_neg hij]
    cases he' : l.entryAt j with
    | none => rfl
    | some e' => simp [h.beq_eq_false_of_ne k hij he hk he', Option.filter]

/-! ### Writes and removals -/

theorem entries_assign {l' : PushList K V} (hl : Relinked l l') {i : Nat} {e : K × V}
    (he : l.entryAt i = some e) (hk : (e.1 == k) = true) :
    (l'.assign i v).entries = revalue (fun a b => a == b) k v l.entries := by
  have hsize : (l'.assign i v).nodes.size = l.nodes.size := (size_assign ..).trans hl.size_eq
  rw [(hl.linked.assign i v).entries_eq, h.entries_eq, hsize]
  refine below_map fun j _ => ?_
  rw [entryAt_assign, hl.entryAt_eq, h.revalue_entryAt k v he hk]

theorem entries_unlink {l' : PushList K V} (hl : Relinked l l') {holder : Holder} {i : Nat}
    {e : K × V} (hlink : l'.linkOf holder = i + 1) (he : l.entryAt i = some e)
    (hk : (e.1 == k) = true) :
    ((l'.mark i).bypass holder).Linked ∧
      ((l'.mark i).bypass holder).entries = remove (fun a b => a == b) k l.entries := by
  have hlinked : ((l'.mark i).bypass holder).Linked := by
    refine (hl.linked.mark i).bypass fun j hj => ?_
    rw [linkOf_mark, hlink] at hj
    rw [entryAt_mark, if_pos (Nat.succ.inj hj)]
  have hsize : ((l'.mark i).bypass holder).nodes.size = l.nodes.size := by
    rw [size_bypass, size_mark, hl.size_eq]
  refine ⟨hlinked, ?_⟩
  rw [hlinked.entries_eq, h.entries_eq, hsize]
  refine below_filter fun j _ => ?_
  rw [entryAt_bypass, entryAt_mark, hl.entryAt_eq, h.remove_entryAt k he hk]

theorem set : (l.set k v).2.Sound := by
  rcases h.set_cases k v with ⟨l', hl, hk, heq⟩ | ⟨l', i, e, hl, he, hk, heq⟩
  · rw [heq]
    have hentries := h.entries_push k v hl
    refine ⟨hl.linked.push k v, ?_, ?_⟩
    · rw [hentries, List.length_cons, ← h.length_eq, ← hl.length_eq]
      rfl
    · rw [hentries]
      refine List.Pairwise.cons (fun e he => ?_) h.distinct
      exact isSameness_beq.symm_false (has_eq_false_iff.mp hk e he)
  · rw [heq]
    have hentries := h.entries_assign k v hl he hk
    refine ⟨hl.linked.assign i v, ?_, ?_⟩
    · rw [hentries, revalue, List.length_map, ← h.length_eq, ← hl.length_eq]
      rfl
    · rw [hentries]
      exact distinct_revalue h.distinct

theorem wrote [Hashable K] :
    Wrote onlyPlace true k v l.entries (l.set k v).1 (l.set k v).2.entries := by
  rcases h.set_cases k v with ⟨l', hl, hk, heq⟩ | ⟨l', i, e, hl, he, hk, heq⟩
  · rw [heq, h.entries_push k v hl]
    have hold : l.entries = [] ++ l.entries := rfl
    exact Wrote.inserted hold (by rw [meets_onlyPlace]; exact hk) (by simp)
  · rw [heq, h.entries_assign k v hl he hk]
    have hw : Wrote onlyPlace true k v l.entries .updated
        (revalue (meets onlyPlace) k v l.entries) :=
      Wrote.updated (by rw [meets_onlyPlace]; exact h.has_entries k he hk)
    rwa [meets_onlyPlace] at hw

theorem entries_delete : (l.delete k).2.entries = remove (fun a b => a == b) k l.entries := by
  rcases h.delete_cases k with ⟨l', hl, hk, heq⟩ | ⟨l', holder, i, e, hl, hlink, he, hk, heq⟩
  · rw [heq, remove_eq_self hk]
    exact hl.entries_eq h.toLinked
  · rw [heq]
    exact (h.entries_unlink k hl hlink he hk).2

theorem delete : (l.delete k).2.Sound := by
  have hentries := h.entries_delete k
  have hlen := length_remove isSameness_beq (k := k) h.distinct
  rcases h.delete_cases k with ⟨l', hl, hk, heq⟩ | ⟨l', holder, i, e, hl, hlink, he, hk, heq⟩
  · rw [heq] at hentries ⊢
    refine ⟨hl.linked, ?_, ?_⟩
    · rw [hentries, remove_eq_self hk, ← h.length_eq, ← hl.length_eq]
    · rw [hentries]
      exact h.distinct.remove k
  · rw [heq] at hentries ⊢
    refine ⟨(h.entries_unlink k hl hlink he hk).1, ?_, ?_⟩
    · rw [h.has_entries k he hk, Bool.toNat_true] at hlen
      rw [hentries, length_bypass]
      show l'.length - 1 = _
      rw [hl.length_eq, h.length_eq]
      omega
    · rw [hentries]
      exact h.distinct.remove k

/-! ### Entries of single nodes after a change -/

theorem entryAt_set {i : Nat} (hi : i < l.nodes.size) :
    (l.set k v).2.entryAt i = (l.entryAt i).map fun e => if e.1 == k then (e.1, v) else e := by
  rcases h.set_cases k v with ⟨l', hl, hk, heq⟩ | ⟨l', j, e, hl, he, hk, heq⟩
  · rw [heq, entryAt_push, if_neg (by rw [hl.size_eq]; omega), hl.entryAt_eq]
    cases he : l.entryAt i with
    | none => rfl
    | some e => simp [h.beq_eq_false_of_has k hk he]
  · rw [heq, entryAt_assign, hl.entryAt_eq, h.revalue_entryAt k v he hk]

theorem entryAt_delete (i : Nat) :
    (l.delete k).2.entryAt i = (l.entryAt i).filter fun e => !(e.1 == k) := by
  rcases h.delete_cases k with ⟨l', hl, hk, heq⟩ | ⟨l', holder, j, e, hl, hlink, he, hk, heq⟩
  · rw [heq, hl.entryAt_eq]
    cases he : l.entryAt i with
    | none => rfl
    | some e => simp [h.beq_eq_false_of_has k hk he, Option.filter]
  · rw [heq, entryAt_bypass, entryAt_mark, hl.entryAt_eq, h.remove_entryAt k he hk]

/-- The value of an entry is the one that is stored for its key. -/
theorem get_of_mem {e : K × V} (he : e ∈ l.entries) : l.get e.1 = some e.2 := by
  rw [get_eq_find, h.distinct.find_of_mem isSameness_beq he]
  rfl

end Sound

instance [Hashable K] : LawfulBucket (PushList K V) K V where
  Sound := Sound
  place := onlyPlace
  front := true
  distinct h := by simpa using h.distinct
  get_eq {b} k h := by
    rw [meets_onlyPlace, bucket_entries]
    exact b.get_eq_find k
  contains_eq k h := by
    rw [meets_onlyPlace, bucket_entries]
    exact h.contains_eq_has k
  sound_set k v h := h.set k v
  wrote_set k v h := by
    rw [bucket_entries, bucket_entries]
    exact h.wrote k v
  sound_delete k h := h.delete k
  delete_eq k h := by
    rw [meets_onlyPlace, bucket_entries]
    exact h.delete_eq k
  entries_delete k h := by
    rw [meets_onlyPlace, bucket_entries, bucket_entries]
    exact h.entries_delete k
  length_eq h := by
    rw [bucket_entries]
    exact h.length_eq
  isEmpty_eq _ := rfl
  forEach_const {ω b} visit w h := by
    rw [bucket_entries, h.entries_eq, h.below_head]
    exact h.visitFrom_const visit b.head b.head_le w

end PushList
end HashStore
