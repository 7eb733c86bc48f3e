import HashStore.Bucket.AppendList

/-! # Lists that grow at the front

In a `PushList` a new entry goes to the front, an update leaves an entry where it is, and a removal
closes the gap, so the newest key comes first.

The entries are nodes that are linked, each to the next older one, and numbered in the order of their
birth.  A removal takes two steps: the node is marked, which is the point where its entry stops
existing, and then the link that leads to the node is turned past it.  The node keeps its own link, so
whoever has come to it finds the way back.  Links lead to older nodes only (`next_le`), which is why
every walk along them comes to an end.

A traversal reads the link of a node before the visitor sees the entry, and the visitor may change the
list in between.

Operations do not overlap, so nothing turns a link between the moment an operation reads it and the
moment the operation turns it. -/

namespace HashStore

/-- A node of a linked list.  A link is a number: `0` leads nowhere, and `i + 1` to node number `i`. -/
structure Node (K V : Type) where
  key : K
  value : V
  /-- Whether the node is marked: its entry has been removed. -/
  removed : Bool
  /-- The link to the next older node. -/
  next : Nat

/-- The entry that a node was made for. -/
def Node.entry {K V : Type} (node : Node K V) : K × V := (node.key, node.value)

/-- A bucket whose entries lie in the reverse of the order in which their keys came in. -/
structure PushList (K V : Type) where
  /-- All nodes that have been made, by number. -/
  nodes : Array (Node K V)
  /-- The link to the newest entry. -/
  head : Nat
  /-- The number of entries, kept so that it need not be counted. -/
  length : Nat
  head_le : head ≤ nodes.size
  next_le : ∀ {i : Nat} {node : Node K V}, nodes[i]? = some node → node.next ≤ i

namespace PushList

variable {K V : Type}

def empty : PushList K V := ⟨#[], 0, 0, Nat.le_refl 0, by simp⟩

/-! ### Links -/

/-- The link that is found where a link leads. -/
def next (l : PushList K V) : Nat → Nat
  | 0 => 0
  | i + 1 => (l.nodes[i]?.map (·.next)).getD 0

theorem next_succ {l : PushList K V} {i : Nat} {node : Node K V} (h : l.nodes[i]? = some node) :
    l.next (i + 1) = node.next := by simp [next, h]

theorem next_succ_le (l : PushList K V) (i : Nat) : l.next (i + 1) ≤ i := by
  cases h : l.nodes[i]? with
  | none => simp [next, h]
  | some node => exact next_succ h ▸ l.next_le h

theorem next_le_self (l : PushList K V) (link : Nat) : l.next link ≤ link := by
  cases link with
  | zero => exact Nat.le_refl 0
  | succ i => exact Nat.le_succ_of_le (l.next_succ_le i)

/-- What holds a link: the list itself, whose link is its head, or one of its nodes. -/
inductive Holder where
  | list
  | node (i : Nat)

def linkOf (l : PushList K V) : Holder → Nat
  | .list => l.head
  | .node i => l.next (i + 1)

/-- Changes a node, and no link except to an older node. -/
def alter (l : PushList K V) (i : Nat) (f : Node K V → Node K V)
    (hf : ∀ node, (f node).next ≤ node.next) : PushList K V :=
  { l with
    nodes := l.nodes.modify i f
    head_le := by simpa using l.head_le
    next_le := by
      intro j node h
      rw [Array.getElem?_modify] at h
      split at h
      · obtain ⟨old, hold, rfl⟩ := Option.map_eq_some_iff.mp h
        exact Nat.le_trans (hf old) (l.next_le hold)
      · exact l.next_le h }

/-- Turns a link past the node that it leads to. -/
def bypass (l : PushList K V) : Holder → PushList K V
  | .list => { l with
      head := l.next l.head
      head_le := Nat.le_trans (l.next_le_self _) l.head_le }
  | .node i => l.alter i (fun node => { node with next := l.next node.next })
      fun node => l.next_le_self node.next

theorem getElem?_alter (l : PushList K V) (i : Nat) (f : Node K V → Node K V)
    (hf : ∀ node, (f node).next ≤ node.next) (j : Nat) :
    (l.alter i f hf).nodes[j]? = if i = j then l.nodes[j]?.map f else l.nodes[j]? :=
  Array.getElem?_modify

theorem linkOf_bypass (l : PushList K V) (holder : Holder) :
    (l.bypass holder).linkOf holder = l.next (l.linkOf holder) := by
  cases holder with
  | list => rfl
  | node i =>
    show ((l.bypass (.node i)).nodes[i]?.map (·.next)).getD 0 =
      l.next ((l.nodes[i]?.map (·.next)).getD 0)
    rw [bypass, getElem?_alter, if_pos rfl]
    cases l.nodes[i]? <;> rfl

theorem linkOf_bypass_lt {l : PushList K V} {holder : Holder} {i : Nat}
    (h : l.linkOf holder = i + 1) : (l.bypass holder).linkOf holder < l.linkOf holder := by
  rw [linkOf_bypass, h]
  exact Nat.lt_succ_of_le (l.next_succ_le i)

theorem linkOf_node_lt {l : PushList K V} {holder : Holder} {i : Nat}
    (h : l.linkOf holder = i + 1) : l.linkOf (.node i) < l.linkOf holder := by
  rw [h]
  exact Nat.lt_succ_of_le (l.next_succ_le i)

/-! ### Walks -/

/-- The nodes along the links, from a link on. -/
def chain (l : PushList K V) : Nat → List (Node K V)
  | 0 => []
  | i + 1 =>
    match h : l.nodes[i]? with
    | none => []
    | some node =>
      have := l.next_le h
      node :: l.chain node.next
termination_by link => link

theorem chain_succ {l : PushList K V} {i : Nat} {node : Node K V} (h : l.nodes[i]? = some node) :
    l.chain (i + 1) = node :: l.chain node.next := by
  rw [chain]
  split
  · rename_i hnone
    rw [h] at hnone
    cases hnone
  · rename_i hsome
    rw [h] at hsome
    cases hsome
    rfl

/-- The entries, newest first. -/
def entries (l : PushList K V) : List (K × V) :=
  ((l.chain l.head).filter fun node => !node.removed).map Node.entry

/-- Visits the entries from a link on until `visit` answers `false`.  The link of a node is read
before the entry is visited. -/
def visitFrom {ω : Type} (view : ω → PushList K V) (visit : K → V → ω → Bool × ω) :
    Nat → ω → Bool × ω
  | 0, w => (true, w)
  | i + 1, w =>
    match h : (view w).nodes[i]? with
    | none => (true, w)
    | some node =>
      have := (view w).next_le h
      if node.removed then visitFrom view visit node.next w
      else
        let r := visit node.key node.value w
        if r.1 then visitFrom view visit node.next r.2 else r
termination_by link => link

theorem visitFrom_of_none {ω : Type} (view : ω → PushList K V) {visit : K → V → ω → Bool × ω} {w : ω}
    {i : Nat} (h : (view w).nodes[i]? = none) : visitFrom view visit (i + 1) w = (true, w) := by
  rw [visitFrom]
  split
  · rfl
  · rename_i hsome
    rw [h] at hsome
    cases hsome

theorem visitFrom_succ {ω : Type} (view : ω → PushList K V) {visit : K → V → ω → Bool × ω} {w : ω}
    {i : Nat} {node : Node K V} (h : (view w).nodes[i]? = some node) :
    visitFrom view visit (i + 1) w =
      if node.removed then visitFrom view visit node.next w
      else if (visit node.key node.value w).1
        then visitFrom view visit node.next (visit node.key node.value w).2
        else visit node.key node.value w := by
  rw [visitFrom]
  split
  · rename_i hnone
    rw [h] at hnone
    cases hnone
  · rename_i hsome
    rw [h] at hsome
    cases hsome
    rfl

variable [BEq K]

/-- Looks for a key, from a link on.  Found are the holder of the link to its node, or of the link that
leads nowhere if there is none.  Marked nodes on the way are bypassed. -/
def seek (l : PushList K V) (k : K) (holder : Holder) : Holder × PushList K V :=
  match h : l.linkOf holder with
  | 0 => (holder, l)
  | i + 1 =>
    match l.nodes[i]? with
    | none => (holder, l)
    | some node =>
      if node.removed then
        have := linkOf_bypass_lt h
        (l.bypass holder).seek k holder
      else if node.key == k then (holder, l)
      else
        have := linkOf_node_lt h
        l.seek k (.node i)
termination_by l.linkOf holder

/-! ### Operations -/

def contains (l : PushList K V) (k : K) : Bool :=
  (visitFrom (fun _ => l) (fun k' _ _ => (!(k' == k), k' == k)) l.head false).2

def get (l : PushList K V) (k : K) : Option V :=
  ((l.chain l.head).find? fun node => !node.removed && node.key == k).map (·.value)

/-- Makes a node for a new entry. -/
def push (l : PushList K V) (k : K) (v : V) : PushList K V where
  nodes := l.nodes.push ⟨k, v, false, l.head⟩
  head := l.nodes.size + 1
  length := l.length + 1
  head_le := by simp
  next_le := by
    intro i node h
    rw [Array.getElem?_push] at h
    split at h
    · rename_i hi
      obtain rfl := Option.some.inj h
      exact hi ▸ l.head_le
    · exact l.next_le h

def assign (l : PushList K V) (i : Nat) (v : V) : PushList K V :=
  l.alter i (fun node => { node with value := v }) fun _ => Nat.le_refl _

/-- Marks a node as removed.  Its entry no longer counts. -/
def mark (l : PushList K V) (i : Nat) : PushList K V :=
  { l.alter i (fun node => { node with removed := true }) fun _ => Nat.le_refl _ with
    length := l.length - 1 }

/-- Stores a value: in place if the key is there, at the front if it is not. -/
def set (l : PushList K V) (k : K) (v : V) : Written × PushList K V :=
  let (holder, l) := l.seek k .list
  match l.linkOf holder with
  | 0 => (.inserted, l.push k v)
  | i + 1 => (.updated, l.assign i v)

/-- Removes the entry of a key: its node is marked and then bypassed. -/
def delete (l : PushList K V) (k : K) : Bool × PushList K V :=
  let (holder, l) := l.seek k .list
  match l.linkOf holder with
  | 0 => (false, l)
  | i + 1 => (true, (l.mark i).bypass holder)

instance : Bucket (PushList K V) K V where
  get := get
  set := set
  delete := delete
  contains := contains
  length := length
  forEach view visit w := visitFrom view visit (view w).head w
  layout l := .row l.entries

end PushList

end HashStore
