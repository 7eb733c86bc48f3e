import HashStore.Proofs.Sharded.Refinement

/-! # A sharded table is a product of tables

An operation comes to the shard that its key is routed to, and an emptying comes to all of them
(`ShardedTable.reaches`).  A step of a sharded table is a step of the shards that it comes to and of
no others (`getElem?_apply`), and one of them answers it (`answer_apply`).  So each shard is at
every moment what a table of its own would be after the operations that have come to it
(`run_create_product`), and what is done with the keys of other shards makes no difference to it.

Nothing is asked of keys or buckets here: equal keys may have different hashes. -/

namespace HashStore

/-- The answers to those steps of a run that are selected. -/
def Store.answersTo {α V : Type} (selects : α → Bool) (steps : List α)
    (answers : List (Answer V)) : List (Answer V) :=
  ((steps.zip answers).filter fun step => selects step.1).map (·.2)

theorem Store.answersTo_cons {α V : Type} (selects : α → Bool) (step : α) (steps : List α)
    (answer : Answer V) (answers : List (Answer V)) :
    answersTo selects (step :: steps) (answer :: answers) =
      if selects step then answer :: answersTo selects steps answers
      else answersTo selects steps answers := by
  rw [answersTo, List.zip_cons_cons, List.filter_cons]
  split <;> rfl

namespace ShardedTable

variable {σ β K V : Type} [Hashable K]

/-- Whether an operation comes to shard number `i`: one with a key if the key is routed there, and
an emptying always. -/
def reaches (s : ShardedTable β) (i : Nat) : Store.Op K V → Bool
  | .get k | .set k _ | .delete k | .contains k => (s.index (hash k)).val == i
  | .clear => true
  | .size | .isEmpty => false

/-! ### Steps -/

section step

variable [Access σ β K V]

theorem getElem?_onShard {α : Type} (s : ShardedTable β) (i : Fin s.shards.size)
    (f : Table β → Reply α (Table β) σ) (j : Nat) :
    (s.onShard i f).state.shards[j]? =
      if i.val = j then some (f (s.shard i)).state else s.shards[j]? := by
  show (s.withShard i (f (s.shard i)).state).shards[j]? = _
  rw [withShard, Array.getElem?_set]

/-- A step of a sharded table is a step of the shards that it comes to, and of no others. -/
theorem getElem?_apply (s : ShardedTable β) (op : Store.Op K V) (env : σ) (j : Nat) :
    (Store.apply s op env).state.shards[j]? =
      if s.reaches j op then s.shards[j]?.map fun t => (Store.apply t op env).state
      else s.shards[j]? := by
  have hkeep : ∀ c : Bool, s.shards[j]? = if c then s.shards[j]?.map id else s.shards[j]? := by
    intro c
    rw [Option.map_id, id, ite_self]
  have hshard : ∀ (k : K) (f : Table β → Reply (Except StoreError Unit) (Table β) σ),
      (s.onShard (s.index (hash k)) f).state.shards[j]? =
        if (s.index (hash k)).val == j then s.shards[j]?.map fun t => (f t).state
        else s.shards[j]? := by
    intro k f
    rw [getElem?_onShard]
    by_cases hj : (s.index (hash k)).val = j
    · subst hj
      simp [shard]
    · simp [hj]
  cases op with
  | set k v => exact hshard k fun t => t.set k v env
  | delete k => exact hshard k fun t => t.delete k env
  | clear => exact Array.getElem?_map
  | get k => exact hkeep _
  | contains k => exact hkeep _
  | size => rfl
  | isEmpty => rfl

/-- A step is answered by a shard that it comes to. -/
theorem answer_apply {s : ShardedTable β} {op : Store.Op K V} {j : Nat}
    (hop : s.reaches j op = true) {t : Table β} (ht : s.shards[j]? = some t) (env : σ) :
    (Store.apply s op env).answer = (Store.apply t op env).answer := by
  have hshard : ∀ k : K, ((s.index (hash k)).val == j) = true →
      s.shard (s.index (hash k)) = t := by
    intro k hk
    obtain ⟨hj, hget⟩ := Array.getElem?_eq_some_iff.mp ht
    obtain rfl := eq_of_beq hk
    exact hget
  cases op with
  | get k =>
      show Store.Answer.value ((s.shard _).get k env).1 = _
      rw [hshard k hop]
      rfl
  | set k v =>
      show Store.Answer.outcome ((s.shard _).set k v env).answer = _
      rw [hshard k hop]
      rfl
  | delete k =>
      show Store.Answer.outcome ((s.shard _).delete k env).answer = _
      rw [hshard k hop]
      rfl
  | contains k =>
      show Store.Answer.truth ((s.shard _).contains k env).1 = _
      rw [hshard k hop]
      rfl
  | clear => rfl
  | size => cases hop
  | isEmpty => cases hop

theorem reaches_apply (s : ShardedTable β) (op : Store.Op K V) (env : σ) (j : Nat) :
    ((Store.apply s op env).state.reaches j : Store.Op K V → Bool) = s.reaches j := by
  have hindex : ∀ u, ((Store.apply s op env).state.index u).val = (s.index u).val :=
    run_index s [op] env
  funext op'
  cases op' <;> simp only [reaches, hindex]

/-- What the operations that come to a shard preserve of it, in surroundings of which they preserve
what they need, is preserved by every run.  An operation on a key changes the surroundings as it does in
the one shard that it comes to. -/
theorem run_shards {P : Nat → Table β → Prop} {E : σ → Prop} {s : ShardedTable β}
    (hstep : ∀ i t op env, s.reaches i op = true → P i t → E env →
      P i (Store.apply t op env).state ∧ E (Store.apply t op env).env)
    (hs : ∀ i t, s.shards[i]? = some t → P i t) {env : σ} (henv : E env)
    (ops : List (Store.Op K V)) :
    (∀ i t, (Store.run s env ops).state.shards[i]? = some t → P i t) ∧
      E (Store.run s env ops).env := by
  induction ops generalizing s env with
  | nil => exact ⟨hs, henv⟩
  | cons op ops ih =>
      refine ih ?_ (fun i t ht => ?_) ?_
      · intro i t op' env' hop
        rw [reaches_apply] at hop
        exact hstep i t op' env' hop
      · rw [getElem?_apply] at ht
        split at ht
        · rename_i hop
          obtain ⟨t', ht', rfl⟩ := Option.map_eq_some_iff.mp ht
          exact (hstep i t' op env hop (hs i t' ht') henv).1
        · exact hs i t ht
      · have hshard : ∀ k : K, P (s.index (hash k)).val (s.shard (s.index (hash k))) :=
          fun k => hs _ _ (Array.getElem?_eq_getElem _)
        cases op with
        | get k => exact (hstep _ _ (.get k) env (beq_self_eq_true _) (hshard k) henv).2
        | set k v => exact (hstep _ _ (.set k v) env (beq_self_eq_true _) (hshard k) henv).2
        | delete k => exact (hstep _ _ (.delete k) env (beq_self_eq_true _) (hshard k) henv).2
        | contains k => exact (hstep _ _ (.contains k) env (beq_self_eq_true _) (hshard k) henv).2
        | clear => exact henv
        | size => exact henv
        | isEmpty => exact henv

/-- What operations preserve of every table, runs preserve of all shards. -/
theorem shards_run {P : Table β → Prop}
    (hstep : ∀ t (op : Store.Op K V) (env : σ), P t → P (Store.apply t op env).state)
    {s : ShardedTable β} (hs : ∀ t ∈ s.shards, P t) (env : σ) (ops : List (Store.Op K V)) :
    ∀ t ∈ (Store.run s env ops).state.shards, P t := by
  intro t ht
  obtain ⟨i, hi⟩ := Array.getElem?_of_mem ht
  exact (run_shards (P := fun _ => P) (E := fun _ => True)
    (fun _ t op env _ h _ => ⟨hstep t op env h, trivial⟩)
    (fun _ t ht => hs t (Array.mem_of_getElem? ht)) trivial ops).1 i t hi

end step

theorem shards_create {P : Table β → Prop} (factory : Factory β) (plan : ShardPlan)
    (hcreate : P (Table.create factory plan.capacity).1) :
    ∀ t ∈ (create factory plan).1.shards, P t := by
  intro t ht
  obtain ⟨i, hi, rfl⟩ := Array.getElem_of_mem ht
  rwa [getElem_create]

/-! ### Runs -/

variable [Bucket β K V]

theorem run_shard {s : ShardedTable β} {j : Nat} {t : Table β} (ht : s.shards[j]? = some t)
    (ops : List (Store.Op K V)) :
    (Store.run s () ops).state.shards[j]? =
        some (Store.run t () (ops.filter (s.reaches j))).state ∧
      Store.answersTo (s.reaches j) ops (Store.run s () ops).answer =
        (Store.run t () (ops.filter (s.reaches j))).answer := by
  induction ops generalizing s t with
  | nil => exact ⟨ht, rfl⟩
  | cons op ops ih =>
      have hstep := getElem?_apply s op () j
      have hans : Store.answersTo (s.reaches j) (op :: ops)
          (Store.run s () (op :: ops)).answer = _ :=
        Store.answersTo_cons (s.reaches j) op ops (Store.apply s op ()).answer
          (Store.run (Store.apply s op ()).state () ops).answer
      rw [hans, List.filter_cons]
      cases hop : s.reaches j op with
      | true =>
          rw [hop, if_pos rfl, ht, Option.map_some] at hstep
          obtain ⟨hstate, hrest⟩ := ih hstep
          rw [reaches_apply] at hstate hrest
          refine ⟨hstate, ?_⟩
          rw [if_pos rfl, hrest, answer_apply hop ht]
          rfl
      | false =>
          rw [hop, if_neg Bool.false_ne_true, ht] at hstep
          obtain ⟨hstate, hrest⟩ := ih hstep
          rw [reaches_apply] at hstate hrest
          exact ⟨hstate, hrest⟩

/-- After every run each shard is the table that the operations that have come to it make of one of
its own, with the same answers.  Runs in which the same operations come to a shard leave the same
shard. -/
theorem run_create_product (factory : Factory β) (plan : ShardPlan) (ops : List (Store.Op K V)) :
    let s := (create factory plan).1
    let alone := fun i =>
      Store.run (Table.create factory plan.capacity).1 () (ops.filter (s.reaches i))
    let r := Store.run s () ops
    r.state.shards.toList = (List.range plan.shardCount).map (fun i => (alone i).state) ∧
      (∀ i < plan.shardCount, Store.answersTo (s.reaches i) ops r.answer = (alone i).answer) ∧
      ∀ i < plan.shardCount, ∀ ops', ops'.filter (s.reaches i) = ops.filter (s.reaches i) →
        (Store.run s () ops').state.shards[i]? = r.state.shards[i]? ∧
          Store.answersTo (s.reaches i) ops' (Store.run s () ops').answer =
            Store.answersTo (s.reaches i) ops r.answer := by
  intro s alone r
  have hs : ∀ i < plan.shardCount, s.shards[i]? = some (Table.create factory plan.capacity).1 := by
    intro i hi
    show (Array.replicate plan.shardCount _)[i]? = _
    rw [Array.getElem?_replicate, if_pos hi]
    rfl
  have hsize : r.state.shards.size = plan.shardCount :=
    (run_routes s ops ()).2.trans Array.size_replicate
  refine ⟨?_, fun i hi => (run_shard (hs i hi) ops).2, fun i hi ops' hops => ?_⟩
  · refine List.ext_getElem? fun i => ?_
    rw [Array.getElem?_toList, List.getElem?_map]
    rcases Nat.lt_or_ge i plan.shardCount with hi | hi
    · rw [List.getElem?_range hi, Option.map_some]
      exact (run_shard (hs i hi) ops).1
    · rw [List.getElem?_eq_none (by rwa [List.length_range]),
        Array.getElem?_eq_none (by rwa [hsize])]
      rfl
  · obtain ⟨hstate, hans⟩ := run_shard (hs i hi) ops
    obtain ⟨hstate', hans'⟩ := run_shard (hs i hi) ops'
    rw [hops] at hstate' hans'
    exact ⟨hstate'.trans hstate.symm, hans'.trans hans.symm⟩

/-- The shard of 1, 5, 9 and 13 grows to two buckets, answers and is emptied alike, whatever is done
with 2, 4 and 6 beside it. -/
theorem run_create_product_of_two_runs :
    let s := (create ((Shape.striped 2 .push).factory UInt64 Nat) ⟨3, 0, .mask⟩).1
    let ops : List (Store.Op UInt64 Nat) := [.set 1 10, .set 2 20, .set 5 50, .delete 2, .set 9 90,
      .get 5, .contains 6, .clear, .get 5, .set 13 130]
    let ops' : List (Store.Op UInt64 Nat) := [.set 1 10, .set 5 50, .set 4 40, .set 9 90, .get 5,
      .size, .set 6 60, .clear, .get 5, .get 6, .set 13 130]
    let r := Store.run s () ops
    let r' := Store.run s () ops'
    1 < (⟨3, 0, .mask⟩ : ShardPlan).shardCount ∧
      ops'.filter (s.reaches 1) = ops.filter (s.reaches 1) ∧
      r.state.shards.toList.map Table.capacity = [1, 2, 1, 1] ∧
      r'.state.shards[1]? = r.state.shards[1]? ∧
      Store.answersTo (s.reaches 1) ops' r'.answer =
        Store.answersTo (s.reaches 1) ops r.answer := by
  intro s ops ops' r r'
  have hcount : 1 < (⟨3, 0, .mask⟩ : ShardPlan).shardCount := by decide
  have hops : ops'.filter (s.reaches 1) = ops.filter (s.reaches 1) := by decide +kernel
  refine ⟨hcount, hops, ?_, (run_create_product _ _ ops).2.2 1 hcount ops' hops⟩
  decide +kernel

end ShardedTable
end HashStore
