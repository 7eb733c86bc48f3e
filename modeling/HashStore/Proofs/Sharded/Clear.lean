import HashStore.Proofs.Sharded.Product
import HashStore.Proofs.Table.Balance

/-! # Emptying is starting afresh

Whatever has gone wrong with a table, emptying it leaves the table that its factory makes for the
number of buckets it has come to (`Table.MadeBy.clear_eq`).  All that this needs of the past is that
the factory is the one the table was made with and that there is a bucket (`Table.MadeBy`), and no
operation changes that: neither false reports nor refusals nor a growth that is given up.  So
nothing of the past shows in what comes after (`run_create_clear`).

The shards of a sharded table are emptied each for itself, and it makes no difference in which order
(`ShardedTable.clearedInOrder_eq`). -/

namespace HashStore

/-! ### Tables -/

namespace Table

variable {σ β K V : Type}

/-- A table that makes its buckets by a given factory, and has some. -/
structure MadeBy (factory : Factory β) (t : Table β) : Prop where
  factory_eq : t.factory = factory
  capacity_pos : 0 < t.capacity

theorem madeBy_create (factory : Factory β) (requested : Nat) :
    (create factory requested).1.MadeBy factory :=
  ⟨rfl, Nat.le_max_left 1 requested⟩

variable {factory : Factory β} {t : Table β}

theorem MadeBy.clear (h : t.MadeBy factory) : t.clear.1.MadeBy factory :=
  ⟨h.factory_eq, h.capacity_pos⟩

/-- A table emptied is a new table of the same capacity. -/
theorem MadeBy.clear_eq (h : t.MadeBy factory) : t.clear.1 = (create factory t.capacity).1 := by
  have hcapacity : max 1 t.capacity = t.capacity := Nat.max_eq_right h.capacity_pos
  rw [Table.clear, create, hcapacity, h.factory_eq]

variable [Hashable K] [Access σ β K V] [QuietAccess σ β K V]

theorem MadeBy.apply (h : t.MadeBy factory) (op : Store.Op K V) (env : σ) :
    (Store.apply t op env).state.MadeBy factory := by
  cases op with
  | set k v =>
      obtain ⟨hfactory, hcapacity⟩ := t.set_keeps k v env
      have hpos := h.capacity_pos
      refine ⟨hfactory.trans h.factory_eq, ?_⟩
      show 0 < (t.set k v env).state.capacity
      omega
  | delete k =>
      obtain ⟨-, hfactory, hcapacity⟩ := t.delete_keeps k env
      exact ⟨hfactory.trans h.factory_eq, hcapacity.symm ▸ h.capacity_pos⟩
  | clear => exact h.clear
  | get _ => exact h
  | contains _ => exact h
  | size => exact h
  | isEmpty => exact h

theorem MadeBy.run (h : t.MadeBy factory) (env : σ) (ops : List (Store.Op K V)) :
    (Store.run t env ops).state.MadeBy factory := by
  induction ops generalizing t env with
  | nil => exact h
  | cons op ops ih => exact ih (h.apply op env) _

end Table

/-! ### Sharded tables -/

namespace ShardedTable

variable {σ β K V : Type}

/-- A sharded table of the same routing and with new shards, each of the capacity it has come to. -/
def remade (factory : Factory β) (s : ShardedTable β) : ShardedTable β where
  shards := s.shards.map fun t => (Table.create factory t.capacity).1
  routing := s.routing
  nonempty := by simpa using s.nonempty

/-- The shards after some of them have been emptied, one after another. -/
def clearedInOrder (s : ShardedTable β) (order : List Nat) : Array (Table β) :=
  order.foldl (fun shards i => shards.modify i fun t => t.clear.1) s.shards

theorem getElem?_foldl_modify {α : Type} (f : α → α) {order : List Nat} (hd : order.Nodup)
    (a : Array α) (j : Nat) :
    (order.foldl (fun a i => a.modify i f) a)[j]? = if j ∈ order then a[j]?.map f else a[j]? := by
  induction order generalizing a with
  | nil => rfl
  | cons i order ih =>
      obtain ⟨hi, hd⟩ := List.nodup_cons.mp hd
      rw [List.foldl_cons, ih hd, Array.getElem?_modify]
      by_cases hij : i = j
      · subst hij
        simp [hi]
      · simp [hij, Ne.symm hij]

/-- It makes no difference in which order the shards are emptied. -/
theorem clearedInOrder_eq (s : ShardedTable β) {order : List Nat}
    (horder : order.Perm (List.range s.shards.size)) :
    s.clearedInOrder order = s.clear.1.shards := by
  have hd : order.Nodup := horder.nodup_iff.mpr List.nodup_range
  refine Array.ext_getElem? fun j => ?_
  rw [clearedInOrder, getElem?_foldl_modify _ hd, clear, Array.getElem?_map]
  split
  · rfl
  · rename_i hj
    rw [horder.mem_iff, List.mem_range] at hj
    rw [Array.getElem?_eq_none (Nat.le_of_not_lt hj)]
    rfl

theorem clear_eq_remade {factory : Factory β} {s : ShardedTable β}
    (h : ∀ t ∈ s.shards, t.MadeBy factory) : s.clear.1 = s.remade factory := by
  have hshards : s.shards.map (fun t => t.clear.1) =
      s.shards.map fun t => (Table.create factory t.capacity).1 := by
    exact Array.map_congr_left fun t ht => (h t ht).clear_eq
  unfold clear remade
  simp only [hshards]

theorem madeBy_run [Hashable K] [Access σ β K V] [QuietAccess σ β K V] (factory : Factory β)
    (plan : ShardPlan) (env : σ) (ops : List (Store.Op K V)) :
    ∀ t ∈ (Store.run (create factory plan).1 env ops).state.shards, t.MadeBy factory :=
  shards_run (fun _ op env h => h.apply op env)
    (shards_create factory plan (Table.madeBy_create factory plan.capacity)) env ops

end ShardedTable

/-- After any run, whatever has been refused or reported falsely in it, emptying a table leaves one
that answers, reports and changes like a new table of the capacity it has come to, for good; and
emptying a sharded table leaves one that does so like one with such shards, whatever the order in
which they are emptied. -/
theorem run_create_clear {σ β K V : Type} [Hashable K] [Access σ β K V] [QuietAccess σ β K V]
    (factory : Factory β) (env env' : σ) (ops later : List (Store.Op K V)) :
    (∀ requested,
      let t := (Store.run (Table.create factory requested).1 env ops).state
      Store.run (Store.apply t .clear env').state env' later =
        Store.run (Table.create factory t.capacity).1 env' later) ∧
    ∀ plan,
      let s := (Store.run (ShardedTable.create factory plan).1 env ops).state
      let cleared := (Store.apply s .clear env').state
      Store.run cleared env' later = Store.run (s.remade factory) env' later ∧
        (∀ order, order.Perm (List.range s.shards.size) →
          s.clearedInOrder order = (s.remade factory).shards) ∧
        cleared.shards.size = s.shards.size ∧
        ∀ i (hi : i < s.shards.size) (hi' : i < cleared.shards.size),
          Store.run cleared.shards[i] env' later =
            Store.run (Table.create factory s.shards[i].capacity).1 env' later := by
  constructor
  · intro requested t
    have hmade : t.MadeBy factory := (Table.madeBy_create factory requested).run env ops
    show Store.run t.clear.1 env' later = _
    rw [hmade.clear_eq]
  · intro plan s cleared
    have hmade : ∀ t ∈ s.shards, t.MadeBy factory := ShardedTable.madeBy_run factory plan env ops
    have hcleared : cleared = s.remade factory := ShardedTable.clear_eq_remade hmade
    refine ⟨by rw [hcleared], fun order horder => ?_, Array.size_map, fun i hi hi' => ?_⟩
    · rw [s.clearedInOrder_eq horder]
      exact congrArg ShardedTable.shards hcleared
    · have hshard : cleared.shards[i] = s.shards[i].clear.1 := s.getElem_clear hi' hi
      rw [hshard, (hmade _ (Array.getElem_mem hi)).clear_eq]

/-- One growth has been given up and another has come about, every write has been taken for an
insertion and five removals of an absent key have been believed: less than nothing is counted in two
buckets. -/
theorem run_create_clear_after_faults :
    let factory := (Shape.striped 2 .push).factory UInt64 Nat
    let env : Faults :=
      ⟨fun i => if i = 3 then .refused else .reported .inserted, fun _ => .claimed, true, 0, 0⟩
    let ops : List (Store.Op UInt64 Nat) := [.set 1 10, .set 4 40, .set 7 70, .set 10 100,
      .delete 13, .delete 13, .delete 13, .delete 13, .delete 13]
    let later : List (Store.Op UInt64 Nat) := [.get 4, .set 2 20, .size, .set 4 41, .set 6 60,
      .set 8 80, .set 10 101, .get 4]
    let r := Store.run (Table.create factory 1).1 env ops
    let s := (Store.run (ShardedTable.create factory ⟨3, 1, .modulo⟩).1 env ops).state
    r.events = [.aborted .notFound 1, .resized 1 2 4] ∧ r.state.count = -1 ∧
      s.shards.toList.map Table.count = [0, -1, 0] ∧
      s.shards.toList.map Table.capacity = [1, 2, 1] ∧ [2, 0, 1].Perm (List.range s.shards.size) ∧
      Store.run (Store.apply r.state .clear Faults.none).state Faults.none later =
        Store.run (Table.create factory r.state.capacity).1 Faults.none later ∧
      s.clearedInOrder [2, 0, 1] = (s.remade factory).shards := by
  intro factory env ops later r s
  have hsize : s.shards.size = 3 := (ShardedTable.run_routes _ ops env).2
  have horder : [2, 0, 1].Perm (List.range s.shards.size) := by
    rw [hsize]
    decide
  have hrun := run_create_clear factory env Faults.none ops later
  refine ⟨?_, ?_, ?_, ?_, horder, hrun.1 1, (hrun.2 ⟨3, 1, .modulo⟩).2.1 _ horder⟩
  all_goals decide +kernel

end HashStore
