import HashStore.Store
import HashStore.Proofs.Bucket.Lawful

/-! # Finite maps

A `Dict` is what a store is meant to be: entries with distinct keys, on which each operation acts by a
formula for the whole list.  `Dict.apply` and `Dict.run` answer the operations of a store.

`latest` tells the entry of one key from the history of operations alone: the value is that of the last
write of an equal key since its last removal or the last emptying, the stored key that of the write that
brought it in.  `find_run` says that a finite map has exactly these entries. -/

namespace HashStore

open Entries

/-! ### Finite maps -/

/-- A finite map, as its entries in the order in which their keys came in. -/
structure Dict (K V : Type) [BEq K] where
  entries : List (K × V)
  distinct : Distinct (fun a b => a == b) entries

namespace Dict

variable {K V : Type} [BEq K]

def empty : Dict K V := ⟨[], List.Pairwise.nil⟩

def lookup (d : Dict K V) (k : K) : Option V := (find (fun a b => a == b) k d.entries).map (·.2)

def contains (d : Dict K V) (k : K) : Bool := has (fun a b => a == b) k d.entries

/-- The map with a value for a key.  A key that is there already stays the one that is stored. -/
def insert (d : Dict K V) (k : K) (v : V) : Dict K V :=
  ⟨put (fun a b => a == b) k v d.entries, d.distinct.put k v⟩

def erase (d : Dict K V) (k : K) : Dict K V :=
  ⟨remove (fun a b => a == b) k d.entries, d.distinct.remove k⟩

def size (d : Dict K V) : Nat := d.entries.length

/-- Carries out an operation of a store. -/
def apply (d : Dict K V) : Store.Op K V → Store.Answer V × Dict K V
  | .get k => (.value (d.lookup k), d)
  | .set k v => (.outcome (.ok ()), d.insert k v)
  | .delete k =>
    if d.contains k then (.outcome (.ok ()), d.erase k) else (.outcome (.error .notFound), d)
  | .contains k => (.truth (d.lookup k).isSome, d)
  | .clear => (.done, empty)
  | .size => (.count d.size, d)
  | .isEmpty => (.truth (d.size == 0), d)

/-- Carries out operations one after another. -/
def run (d : Dict K V) : List (Store.Op K V) → List (Store.Answer V) × Dict K V
  | [] => ([], d)
  | op :: ops =>
    let r := d.apply op
    let rest := r.2.run ops
    (r.1 :: rest.1, rest.2)

theorem apply_delete (d : Dict K V) (k : K) :
    d.apply (.delete k) = (.outcome (if d.contains k then .ok () else .error .notFound),
      if d.contains k then d.erase k else d) := by
  rw [apply]
  cases d.contains k <;> rfl

theorem contains_eq_isSome_lookup (d : Dict K V) (k : K) :
    d.contains k = (d.lookup k).isSome := by
  rw [contains, lookup, has_eq_isSome_find, Option.isSome_map]

/-- A store that follows a finite map in each operation follows it in every run. -/
theorem run_of_apply {S : Type} [Store S Unit K V] {represents : S → Dict K V → Prop}
    (happly : ∀ {s d}, represents s d → ∀ op, (Store.apply s op ()).answer = (d.apply op).1 ∧
      represents (Store.apply s op ()).state (d.apply op).2)
    {s : S} {d : Dict K V} (h : represents s d) (ops : List (Store.Op K V)) :
    (Store.run s () ops).answer = (d.run ops).1 ∧
      represents (Store.run s () ops).state (d.run ops).2 := by
  induction ops generalizing s d with
  | nil => exact ⟨rfl, h⟩
  | cons op ops ih =>
      obtain ⟨hans, hnext⟩ := happly h op
      obtain ⟨hrest, hend⟩ := ih hnext
      exact ⟨congrArg₂ List.cons hans hrest, hend⟩

/-! ### The entry of a key by its history -/

/-- What an operation makes of the entry of a key. -/
def trace (k : K) (e : Option (K × V)) : Store.Op K V → Option (K × V)
  | .set k' v => if k' == k then some ((e.map (·.1)).getD k', v) else e
  | .delete k' => if k' == k then none else e
  | .clear => none
  | _ => e

/-- The entry that operations on an empty store leave for a key. -/
def latest (k : K) (ops : List (Store.Op K V)) : Option (K × V) := ops.foldl (trace k) none

variable [EquivBEq K]

theorem find_apply (d : Dict K V) (k : K) (op : Store.Op K V) :
    find (fun a b => a == b) k (d.apply op).2.entries =
      trace k (find (fun a b => a == b) k d.entries) op := by
  cases op with
  | set k' v => exact find_put isSameness_beq k k' v d.entries
  | delete k' =>
      rw [apply]
      split
      · exact find_remove isSameness_beq k k' d.entries
      · rename_i hk
        have hself : d.entries = remove (fun a b => a == b) k' d.entries :=
          (remove_eq_self (Bool.eq_false_iff.mpr hk)).symm
        rw [hself]
        show find _ k (remove _ k' d.entries) = trace k (find _ k (remove _ k' d.entries)) _
        rw [find_remove isSameness_beq, trace]
        split <;> rfl
  | get _ => rfl
  | contains _ => rfl
  | clear => rfl
  | size => rfl
  | isEmpty => rfl

theorem find_run (d : Dict K V) (k : K) (ops : List (Store.Op K V)) :
    find (fun a b => a == b) k (d.run ops).2.entries =
      ops.foldl (trace k) (find (fun a b => a == b) k d.entries) := by
  induction ops generalizing d with
  | nil => rfl
  | cons op ops ih => rw [List.foldl_cons, ← find_apply]; exact ih _

end Dict
end HashStore
