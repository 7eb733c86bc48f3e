import HashStore.Table.Basic

/-! # Growth of a table

An overloaded table doubles: a new array of twice as many buckets is filled from the old one, bucket
by bucket, and takes its place.  If a new bucket refuses an entry the attempt is given up, and the
table stays exactly as it was. -/

namespace HashStore

/-- A table being rebuilt. -/
structure Rebuild (β σ : Type) where
  /-- The new table so far. -/
  target : Table β
  /-- The number of entries that have gone over. -/
  moved : Nat
  env : σ
  /-- Why an entry was not taken over, once that has happened. -/
  failure : Option StoreError

variable {σ β K V : Type} [Hashable K] [Access σ β K V]

namespace Rebuild

/-- Takes over one entry, and tells whether to go on. -/
def take (k : K) (v : V) (r : Rebuild β σ) : Bool × Rebuild β σ :=
  match r.target.write k v r.env with
  | (.ok _, target, env) => (true, { r with target, env, moved := r.moved + 1 })
  | (.error err, target, env) => (false, { r with target, env, failure := some err })

/-- Takes over the entries of some buckets, up to the first that is refused. -/
def takeAll : List β → Rebuild β σ → Rebuild β σ
  | [], r => r
  | b :: rest, r =>
    let r : Rebuild β σ := Access.forEach σ b take r
    if r.failure.isSome then r else takeAll rest r

end Rebuild

namespace Table

/-- The same table with fresh buckets, twice as many. -/
def doubled (t : Table β) : Table β :=
  { t with buckets := t.factory.products (2 * t.capacity), capacity := 2 * t.capacity }

/-- Moves all entries into twice as many buckets, if every one of them is taken. -/
def rehash (t : Table β) (env : σ) : Reply (Except StoreError Unit) (Table β) σ :=
  let r := Rebuild.takeAll t.buckets.toList ⟨t.doubled, 0, env, none⟩
  let notes := t.factory.notesOf (2 * t.capacity)
  match r.failure with
  | some err => ⟨.error err, t, r.env, notes ++ [.aborted err t.capacity]⟩
  | none => ⟨.ok (), r.target, r.env, notes ++ [.resized t.capacity (2 * t.capacity) r.moved]⟩

/-- Doubles a table if it is overloaded when its turn comes: since growth was asked for, another
operation may have brought it about already. -/
def resize (t : Table β) (env : σ) : Reply (Except StoreError Unit) (Table β) σ :=
  if t.overloaded then t.rehash env else ⟨.ok (), t, env, []⟩

end Table

end HashStore
