import HashStore.Bucket.Basic

/-! # Access to buckets

A table does not rely on its buckets: it hands them a call and goes by what they report.  `Access`
is that way of reaching a bucket, in surroundings `σ` that may decide how a call turns out and may
change with each call.  A write or a removal can fail, and nothing is promised about the answers.

Without surroundings (`Unit`) every call simply reaches the bucket. -/

namespace HashStore

/-- How buckets of entries `K × V` are reached in surroundings `σ`. -/
class Access (σ β : Type) (K V : outParam Type) where
  /-- Asks for the value stored for a key. -/
  get : β → K → σ → Option V × σ
  /-- Asks whether there is an entry for a key. -/
  contains : β → K → σ → Bool × σ
  /-- Asks to store a value. -/
  set : β → K → V → σ → Except StoreError Written × β × σ
  /-- Asks to remove the entry of a key. -/
  delete : β → K → σ → Except StoreError Bool × β × σ
  /-- Hands the entries to `visit` until it answers `false`. -/
  forEach : {ω : Type} → β → (visit : K → V → ω → Bool × ω) → ω → ω

variable {β K V : Type} [Bucket β K V]

instance : Access Unit β K V where
  get b k env := (Bucket.get b k, env)
  contains b k env := (Bucket.contains b k, env)
  set b k v env := let r := Bucket.set b k v; (.ok r.1, r.2, env)
  delete b k env := let r := Bucket.delete b k; (.ok r.1, r.2, env)
  forEach b visit w := (Bucket.forEach (fun _ => b) visit w).2

end HashStore
