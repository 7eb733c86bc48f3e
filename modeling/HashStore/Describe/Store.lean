import HashStore.Describe.Content
import HashStore.Bucket.Basic
import HashStore.Sharded.Basic

/-! # How buckets and tables are shown

A bucket is shown as a map from keys to values, a striped bucket as the list of its stripes.  A table
shows how large it is but none of its entries. -/

namespace HashStore

namespace Layout

variable {K V : Type} [Describe K] [Describe V]

mutual

/-- How the entries of a bucket are shown. -/
def doc : Layout K V → Doc
  | row entries => .group .map (entries.map fun (k, v) => .pair (Describe.doc k) (Describe.doc v))
  | stripes parts => .group .list (docs parts)

def docs : List (Layout K V) → List Doc
  | [] => []
  | part :: rest => part.doc :: docs rest

end

instance : Describe (Layout K V) := ⟨doc⟩

end Layout

instance {β : Type} : Describe (Table β) :=
  ⟨fun t => Doc.record "HashMap"
    [("capacity", Describe.doc t.capacity), ("size", Describe.doc t.size)] true⟩

instance : Describe Routing := ⟨fun routing => .word routing.name⟩

instance {β : Type} : Describe (ShardedTable β) :=
  ⟨fun s => Doc.record "ShardedMap"
    [("select", Describe.doc s.routing), ("shards", describeList s.shards.toList)] false⟩

instance : Describe ShardPlan :=
  ⟨fun plan => Doc.record "ShardedMapBuilder"
    [("shards", Describe.doc plan.shards), ("capacity", Describe.doc plan.capacity),
      ("select", Describe.doc plan.routing)] false⟩

end HashStore
