import HashStore.Table.Growth

/-! # Writing to a table

A write is counted if its bucket reports an insertion, and makes the table grow if that leaves it
overloaded.  A removal first asks whether the key is there, and is counted if its bucket reports that
it was carried out; a removal never changes the number of buckets. -/

namespace HashStore.Table

variable {σ β K V : Type} [Hashable K] [Access σ β K V]

def set (t : Table β) (k : K) (v : V) (env : σ) : Reply (Except StoreError Unit) (Table β) σ :=
  match t.write k v env with
  | (.error err, t, env) => ⟨.error err, t, env, []⟩
  | (.ok .updated, t, env) => ⟨.ok (), t, env, []⟩
  | (.ok .inserted, t, env) =>
    let t := t.counting 1
    if t.overloaded then t.resize env else ⟨.ok (), t, env, []⟩

/-- Removes the entry of a key, and fails if there is none. -/
def delete (t : Table β) (k : K) (env : σ) : Reply (Except StoreError Unit) (Table β) σ :=
  match t.contains k env with
  | (false, env) => ⟨.error .notFound, t, env, []⟩
  | (true, env) =>
    match t.erase k env with
    | (.error err, t, env) => ⟨.error err, t, env, []⟩
    | (.ok false, t, env) => ⟨.error .notFound, t, env, []⟩
    | (.ok true, t, env) => ⟨.ok (), t.counting (-1), env, []⟩

end HashStore.Table
