import HashStore.Bucket.Basic

/-! # Lists that grow at the end

In an `AppendList` a new entry goes to the end, an update leaves an entry where it is, and a removal
closes the gap, so the entries stay in the order in which their keys came in.  A traversal sees the
entries that were there when it began. -/

namespace HashStore

/-- Applies `f` to the first element that satisfies `p`. -/
def updateFirst {α : Type} (p : α → Bool) (f : α → α) : List α → List α
  | [] => []
  | a :: rest => if p a then f a :: rest else a :: updateFirst p f rest

/-- A bucket whose entries lie in the order in which their keys came in. -/
structure AppendList (K V : Type) where
  entries : List (K × V)
  /-- The number of entries, kept so that it need not be counted. -/
  length : Nat

namespace AppendList

variable {K V : Type}

def empty : AppendList K V := ⟨[], 0⟩

variable [BEq K]

def contains (l : AppendList K V) (k : K) : Bool := l.entries.any (·.1 == k)

def get (l : AppendList K V) (k : K) : Option V := (l.entries.find? (·.1 == k)).map (·.2)

/-- Stores a value: in place if the key is there, at the end if it is not. -/
def set (l : AppendList K V) (k : K) (v : V) : Written × AppendList K V :=
  if l.contains k then
    (.updated, { l with entries := updateFirst (·.1 == k) (fun e => (e.1, v)) l.entries })
  else (.inserted, ⟨l.entries ++ [(k, v)], l.length + 1⟩)

def delete (l : AppendList K V) (k : K) : Bool × AppendList K V :=
  if l.contains k then (true, ⟨l.entries.eraseP (·.1 == k), l.length - 1⟩) else (false, l)

instance : Bucket (AppendList K V) K V where
  get := get
  set := set
  delete := delete
  contains := contains
  length := length
  forEach view visit w := visitAll visit (view w).entries w
  layout l := .row l.entries

end AppendList

end HashStore
