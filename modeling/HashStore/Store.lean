import HashStore.Sharded.Basic

/-! # Stores

A table and a sharded table serve the same operations.  `Store.Op` makes values of them, `Store` is
the interface that carries them out, and `Store.run` carries out a whole sequence. -/

namespace HashStore

namespace Store

/-- An operation on a store. -/
inductive Op (K V : Type) where
  | get (k : K)
  | set (k : K) (v : V)
  | delete (k : K)
  | contains (k : K)
  | clear
  | size
  | isEmpty
deriving DecidableEq

/-- What an operation on a store answers. -/
inductive Answer (V : Type) where
  | value (found : Option V)
  | outcome (result : Except StoreError Unit)
  | truth (b : Bool)
  | count (n : Nat)
  | done

end Store

/-- Stores `S` of entries `K × V` in surroundings `σ`. -/
class Store (S σ : Type) (K V : outParam Type) where
  /-- Carries out one operation. -/
  apply : S → Store.Op K V → σ → Reply (Store.Answer V) S σ

namespace Store

variable {S σ K V : Type} [Store S σ K V]

/-- Carries out operations one after another. -/
def run (s : S) (env : σ) : List (Op K V) → Reply (List (Answer V)) S σ
  | [] => ⟨[], s, env, []⟩
  | op :: ops =>
    let r := apply s op env
    let rest := run r.state r.env ops
    ⟨r.answer :: rest.answer, rest.state, rest.env, r.events ++ rest.events⟩

end Store

variable {σ β K V : Type} [Hashable K] [Access σ β K V]

instance : Store (Table β) σ K V where
  apply t op env :=
    match op with
    | .get k => let r := t.get k env; ⟨.value r.1, t, r.2, []⟩
    | .set k v => (t.set k v env).map .outcome
    | .delete k => (t.delete k env).map .outcome
    | .contains k => let r := t.contains k env; ⟨.truth r.1, t, r.2, []⟩
    | .clear => let r := t.clear; ⟨.done, r.1, env, r.2⟩
    | .size => ⟨.count t.size, t, env, []⟩
    | .isEmpty => ⟨.truth t.isEmpty, t, env, []⟩

instance : Store (ShardedTable β) σ K V where
  apply s op env :=
    match op with
    | .get k => let r := s.get k env; ⟨.value r.1, s, r.2, []⟩
    | .set k v => (s.set k v env).map .outcome
    | .delete k => (s.delete k env).map .outcome
    | .contains k => let r := s.contains k env; ⟨.truth r.1, s, r.2, []⟩
    | .clear => let r := s.clear; ⟨.done, r.1, env, r.2⟩
    | .size => ⟨.count s.size, s, env, []⟩
    | .isEmpty => ⟨.truth s.isEmpty, s, env, []⟩

end HashStore
