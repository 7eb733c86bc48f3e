import HashStore.Proofs.Table.Balance
import HashStore.Proofs.Table.Update

/-! # The log of growth

What a table reports of its growth can be told from its states: an operation attempts a growth if it is
a write that a bucket reports as an insertion and that is one too many (`Table.attempt?`), and the
attempt has succeeded if the capacity has changed.  Every attempt is reported once, by the capacities
and the number of entries that there really are, and nothing else is reported of growth
(`Sound.filter_events_run`).  As no other operation changes the capacity, the attempts that succeed
form a chain from the initial capacity, each beginning where the one before has ended
(`Sound.succeeded_run`).

If no write is ever refused, the load is within its bound at all times, and a growth comes when the
table holds one entry too many (`run_create_growth_log`). -/

namespace HashStore

open Entries Surroundings

/-- An attempt of a table to grow: the capacities before and after it, and the number of entries. -/
structure Attempt where
  before : Nat
  after : Nat
  held : Nat

namespace Attempt

/-- Whether an attempt has changed the capacity. -/
def succeeded (a : Attempt) : Bool := a.after != a.before

def report (a : Attempt) : Event :=
  if a.succeeded then .resized a.before a.after a.held else .aborted .notFound a.before

end Attempt

/-- What a factory reports says nothing of growth. -/
def Factory.Quiet {β : Type} (factory : Factory β) : Prop :=
  ∀ note ∈ factory.notes, note.tellsGrowth = false

theorem Factory.Quiet.filter_notesOf {β : Type} {factory : Factory β} (h : factory.Quiet) (n : Nat) :
    (factory.notesOf n).filter Event.tellsGrowth = [] := by
  rw [List.filter_eq_nil_iff, notesOf]
  intro note hnote
  obtain ⟨notes, hnotes, hmem⟩ := List.mem_flatten.mp hnote
  rw [List.eq_of_mem_replicate hnotes] at hmem
  rw [h note hmem]
  exact Bool.false_ne_true

theorem Shape.factory_quiet {K V : Type} (shape : Shape) : (shape.factory K V).Quiet := by
  induction shape with
  | append => exact fun _ hnote => nomatch hnote
  | push => exact fun _ hnote => nomatch hnote
  | striped requested inner ih =>
      intro note hnote
      rcases List.mem_append.mp hnote with hzero | hinner
      · split at hzero
        · rw [List.mem_singleton.mp hzero]
          rfl
        · cases hzero
      · obtain ⟨notes, hnotes, hmem⟩ := List.mem_flatten.mp hinner
        rw [List.eq_of_mem_replicate hnotes] at hmem
        exact ih note hmem

namespace Table

section plain

variable {σ β K V : Type} [Hashable K] [Bucket β K V] [Access σ β K V]

/-- The attempt to grow that an operation makes, if its bucket reports an insertion and that leaves the
count above its bound. -/
def attempt? (t : Table β) (op : Store.Op K V) (env : σ) : Option Attempt :=
  if t.posting? op env = some .inserted ∧ (t.counting 1).overloaded = true then
    let t' := (Store.apply t op env).state
    some ⟨t.capacity, t'.capacity, t'.entries.length⟩
  else none

/-- The attempts to grow in a run, from the first to the last. -/
def attempts (t : Table β) (env : σ) : List (Store.Op K V) → List Attempt
  | [] => []
  | op :: ops =>
    let r := Store.apply t op env
    (t.attempt? op env).toList ++ attempts r.state r.env ops

omit [Bucket β K V] in
theorem delete_events (t : Table β) (k : K) (env : σ) : (t.delete k env).events = [] := by
  rw [delete]
  split
  · rfl
  · split <;> rfl

theorem attempt?_eq_none {t : Table β} {op : Store.Op K V} {env : σ}
    (h : t.posting? op env ≠ some .inserted) : t.attempt? op env = none :=
  if_neg fun hboth => h hboth.1

theorem attempt?_delete (t : Table β) (k : K) (env : σ) : t.attempt? (.delete k) env = none := by
  refine attempt?_eq_none fun h => ?_
  rw [posting?] at h
  split at h <;> cases h

/-- An attempt begins at the capacity before the operation and ends at that after it. -/
theorem capacities_of_attempt {t : Table β} {op : Store.Op K V} {env : σ} {a : Attempt}
    (ha : t.attempt? op env = some a) :
    a.before = t.capacity ∧ a.after = (Store.apply t op env).state.capacity := by
  rw [attempt?] at ha
  split at ha
  · obtain rfl := Option.some.inj ha
    exact ⟨rfl, rfl⟩
  · cases ha

variable [Surroundings σ] [TruthfulAccess σ β K V] {t : Table β} {env : σ} (ht : Truthful env)
  {k : K} {v : V}

include ht

theorem attempt?_set_refused (hrefuse : allowsSet env = false) :
    t.attempt? (.set k v) env = none := by
  refine attempt?_eq_none fun h => ?_
  rw [posting?, TruthfulAccess.set_refused _ k v ht hrefuse] at h
  cases h

theorem attempt?_set_allowed (hallow : allowsSet env = true) :
    t.attempt? (.set k v) env = if t.due k v then
      some ⟨t.capacity, (t.set k v env).state.capacity, (t.set k v env).state.entries.length⟩
    else none := by
  refine if_congr ?_ rfl rfl
  rw [posting?, ← write_answer, write_allowed ht hallow, due]
  cases hr : t.report k v with
  | updated =>
      refine iff_of_false (fun h => ?_) Bool.false_ne_true
      cases h.1
  | inserted =>
      rw [written_of_inserted hr]
      exact and_iff_right rfl

end plain

variable {σ β K V : Type} [BEq K] [Hashable K] [Bucket β K V] [LawfulBucket β K V] [EquivBEq K]
  [Access σ β K V] [Surroundings σ] [TruthfulAccess σ β K V]

/-- A rebuilding reports once how it has gone. -/
theorem Placed.filter_events_rehash {t : Table β} {env : σ} (h : t.Placed) (ht : Truthful env)
    (hq : t.factory.Quiet) :
    let t' := (t.rehash env).state
    let a : Attempt := ⟨t.capacity, t'.capacity, t'.entries.length⟩
    (t.rehash env).events.filter Event.tellsGrowth = [a.report] ∧
      t'.capacity = if a.succeeded then 2 * t.capacity else t.capacity := by
  intro t' a
  have hnotes := hq.filter_notesOf (2 * t.capacity)
  rcases allowed_or_refused env t.entries.length with hallow | hrefuse
  · obtain ⟨t₂, heq, -, hperm, -, hcap, -⟩ := h.rehash_of_allowed ht hallow
    have ht' : t' = t₂ := congrArg Reply.state heq
    have ha : a = ⟨t.capacity, 2 * t.capacity, t.entries.length⟩ := by
      rw [← hcap, ← hperm.length_eq, ← ht']
    have hne : (2 * t.capacity != t.capacity) = true := by
      have hpos := h.capacity_pos
      exact bne_iff_ne.mpr (by omega)
    rw [ha, heq, Attempt.report, Attempt.succeeded, hne, List.filter_append, hnotes, ht', hcap]
    exact ⟨rfl, rfl⟩
  · obtain ⟨env', heq, -⟩ := h.rehash_refused ht hrefuse
    have ht' : t' = t := congrArg Reply.state heq
    have ha : a.succeeded = false := by
      rw [Attempt.succeeded, bne_eq_false_iff_eq]
      exact congrArg Table.capacity ht'
    rw [heq, Attempt.report, ha, List.filter_append, hnotes, ht']
    exact ⟨rfl, rfl⟩

namespace Sound

variable {t : Table β} {env : σ} (h : t.Sound) (ht : Truthful env)

include h ht

/-! ### Single operations -/

theorem factory_apply (op : Store.Op K V) : (Store.apply t op env).state.factory = t.factory := by
  cases op with
  | set k v =>
      show (t.set k v env).state.factory = t.factory
      rcases (h.set_cases ht k v).1 with hstate | hstate | hdoubles
      · rw [hstate]
      · rw [hstate]
        rfl
      · exact hdoubles.factory
  | delete k => exact (Table.delete_keeps t k env).2.1
  | _ => rfl

/-- Of growth an operation reports the attempt that it makes, and an attempt that fails changes no
capacity. -/
theorem filter_events_apply (hq : t.factory.Quiet) (op : Store.Op K V) :
    (Store.apply t op env).events.filter Event.tellsGrowth =
        (t.attempt? op env).toList.map Attempt.report ∧
      (Store.apply t op env).state.capacity =
        if (t.attempt? op env).any Attempt.succeeded then 2 * t.capacity else t.capacity := by
  cases op with
  | set k v =>
      show (t.set k v env).events.filter _ = _ ∧ (t.set k v env).state.capacity = _
      cases hallow : allowsSet env with
      | false =>
          rw [attempt?_set_refused ht hallow, h.set_refused ht hallow]
          exact ⟨rfl, rfl⟩
      | true =>
          rw [attempt?_set_allowed ht hallow]
          cases hdue : t.due k v with
          | false =>
              rw [set_of_not_due ht hallow hdue]
              exact ⟨rfl, rfl⟩
          | true =>
              rw [set_of_due ht hallow hdue]
              exact (h.written k v).filter_events_rehash (truthful_afterSet ht) hq
  | delete k =>
      rw [attempt?_delete]
      exact ⟨congrArg _ (delete_events t k env), (Table.delete_keeps t k env).2.2⟩
  | clear =>
      refine ⟨?_, rfl⟩
      show (t.factory.notesOf t.capacity ++ [Event.cleared t.capacity]).filter _ = []
      rw [List.filter_append, hq.filter_notesOf]
      rfl
  | _ => exact ⟨rfl, rfl⟩

/-! ### Runs -/

variable (hq : t.factory.Quiet) (ops : List (Store.Op K V))

include hq

/-- Of growth a run reports its attempts, in their order, and nothing else. -/
theorem filter_events_run : (Store.run t env ops).events.filter Event.tellsGrowth =
    (t.attempts env ops).map Attempt.report := by
  induction ops generalizing t env with
  | nil => rfl
  | cons op ops ih =>
      obtain ⟨hs, htruth⟩ := h.apply ht op
      have hrest := ih hs htruth (by rwa [h.factory_apply ht op])
      show ((Store.apply t op env).events ++ _).filter Event.tellsGrowth = _
      rw [List.filter_append, (h.filter_events_apply ht hq op).1, hrest, attempts, List.map_append]

/-- An attempt that succeeds doubles the capacity. -/
theorem after_of_succeeded : ∀ a ∈ t.attempts env ops, a.succeeded = true →
    a.after = 2 * a.before := by
  induction ops generalizing t env with
  | nil => exact fun _ ha => nomatch ha
  | cons op ops ih =>
      intro a ha hsucceeded
      rcases List.mem_append.mp ha with hfirst | hrest
      · have hattempt : t.attempt? op env = some a := Option.mem_toList.mp hfirst
        obtain ⟨hbefore, hafter⟩ := capacities_of_attempt hattempt
        have hcap := (h.filter_events_apply ht hq op).2
        rw [hattempt, Option.any_some, hsucceeded, if_pos rfl] at hcap
        rw [hbefore, hafter, hcap]
      · obtain ⟨hs, htruth⟩ := h.apply ht op
        exact ih hs htruth (by rwa [h.factory_apply ht op]) a hrest hsucceeded

/-- The attempts that succeed form a chain: the first begins at the capacity before the run, each other
one at twice the capacity of the one before it, and the capacity after the run is the next. -/
theorem succeeded_run : ∃ j,
    ((t.attempts env ops).filter Attempt.succeeded).map Attempt.before =
        (List.range j).map (fun i => t.capacity * powerOfTwo i) ∧
      (Store.run t env ops).state.capacity = t.capacity * powerOfTwo j := by
  induction ops generalizing t env with
  | nil => exact ⟨0, rfl, (Nat.mul_one _).symm⟩
  | cons op ops ih =>
      obtain ⟨hs, htruth⟩ := h.apply ht op
      obtain ⟨j, hchain, hend⟩ := ih hs htruth (by rwa [h.factory_apply ht op])
      have hcap := (h.filter_events_apply ht hq op).2
      have hrun : (Store.run t env (op :: ops)).state =
          (Store.run (Store.apply t op env).state (Store.apply t op env).env ops).state := rfl
      rw [hrun, attempts, List.filter_append, List.map_append, hchain, hend, hcap]
      cases hattempt : t.attempt? op env with
      | none => exact ⟨j, rfl, rfl⟩
      | some a =>
          rw [Option.toList_some, Option.any_some]
          cases ha : a.succeeded with
          | false => exact ⟨j, by rw [List.filter_cons, ha]; rfl, rfl⟩
          | true =>
              have hdouble : ∀ i, 2 * t.capacity * powerOfTwo i = t.capacity * powerOfTwo (i + 1) := by
                intro i
                rw [powerOfTwo_succ, ← Nat.mul_assoc, Nat.mul_comm t.capacity 2]
              have hfirst : a.before = t.capacity * powerOfTwo 0 :=
                (capacities_of_attempt hattempt).1.trans (Nat.mul_one _).symm
              refine ⟨j + 1, ?_, hdouble j⟩
              rw [List.filter_cons, ha, List.range_succ_eq_map, List.map_cons, List.map_map, ← hfirst]
              exact congrArg (a.before :: ·) (List.map_congr_left fun i _ => hdouble i)

end Sound

/-! ### Runs without refused writes -/

/-- A table whose load is within its bound, in surroundings that refuse no write. -/
structure Unrefused (t : Table β) (faults : Faults) : Prop extends t.Sound where
  truthful : faults.Truthful
  done : ∀ i, faults.onSet i = .done
  load : t.count ≤ 2 * t.capacity

namespace Unrefused

variable {t : Table β} {faults : Faults} (h : t.Unrefused faults)

include h

omit [EquivBEq K] in
theorem allows (n : Nat) : allowsSet (afterSet^[n] faults) = true := by
  rw [Faults.afterSet_iterate]
  exact Faults.allowsSet_iff.mpr (h.done _)

theorem onSet_apply (op : Store.Op K V) : (Store.apply t op faults).env.onSet = faults.onSet := by
  have ht : Truthful faults := h.truthful
  cases op with
  | set k v =>
      show (t.set k v faults).env.onSet = faults.onSet
      cases hdue : t.due k v with
      | false =>
          rw [set_of_not_due ht (h.allows 0) hdue]
          rfl
      | true =>
          obtain ⟨_, heq, -⟩ := (h.written k v).rehash_allowed (truthful_afterSet ht)
            fun j _ => h.allows (j + 1)
          rw [set_of_due ht (h.allows 0) hdue, heq, Faults.afterSet_iterate]
          rfl
  | delete k =>
      show (t.delete k faults).env.onSet = faults.onSet
      cases hk : has (meets (place β t.capacity)) k t.entries with
      | false => rw [h.delete_absent ht hk]
      | true =>
          cases hallow : allowsDelete faults with
          | false => rw [h.delete_refused ht hk hallow]; rfl
          | true => rw [h.delete_allowed ht hk hallow]; rfl
  | _ => rfl

/-- A write makes a table grow when there is one entry too many, and not before. -/
theorem set_cases (k : K) (v : V) :
    let t' := (t.set k v faults).state
    if t.due k v then t'.capacity = 2 * t.capacity ∧ t'.entries.length = 2 * t.capacity + 1
    else t'.capacity = t.capacity ∧ t'.entries.length ≤ 2 * t.capacity := by
  intro t'
  have ht : Truthful faults := h.truthful
  obtain ⟨-, hperm, hcap⟩ := h.set_accepted ht (h.allows 0) (k := k) (v := v)
    fun _ j _ => h.allows (j + 1)
  have hlen := hperm.length_eq
  rw [length_put] at hlen
  have hdue := h.due_iff k v
  have hcount := h.count_eq
  have hload := h.load
  split at hcap
  · rename_i hd
    obtain ⟨hnew, hover⟩ := hdue.mp hd
    rw [hnew] at hlen
    rw [if_pos hd]
    refine ⟨hcap, hlen.trans ?_⟩
    simp only [Bool.not_false, Bool.toNat_true]
    omega
  · rename_i hd
    rw [if_neg hd]
    refine ⟨hcap, hlen.trans_le ?_⟩
    rw [hdue] at hd
    cases hk : has (meets (place β t.capacity)) k t.entries with
    | true =>
        simp only [Bool.not_true, Bool.toNat_false]
        omega
    | false =>
        have hroom : ¬(2 * t.capacity : Int) < t.count + 1 := fun hover => hd ⟨hk, hover⟩
        simp only [Bool.not_false, Bool.toNat_true]
        omega

theorem apply (op : Store.Op K V) :
    (Store.apply t op faults).state.Unrefused (Store.apply t op faults).env := by
  have ht : Truthful faults := h.truthful
  obtain ⟨hs, htruth⟩ := h.toSound.apply ht op
  refine ⟨hs, htruth, fun i => by rw [h.onSet_apply op]; exact h.done i, ?_⟩
  rw [hs.count_eq]
  have hload := h.load
  rw [h.count_eq] at hload
  cases op with
  | set k v =>
      have hcases := h.set_cases k v
      show ((t.set k v faults).state.entries.length : Int) ≤ 2 * (t.set k v faults).state.capacity
      have hpos := h.capacity_pos
      split at hcases
      · omega
      · omega
  | delete k =>
      show ((t.delete k faults).state.entries.length : Int) ≤ 2 * (t.delete k faults).state.capacity
      rcases (h.delete_cases ht k).1 with hstate | ⟨-, hstate⟩
      · rwa [hstate]
      · rw [hstate, counting_entries, h.entries_erased]
        refine le_trans ?_ hload
        exact Int.ofNat_le.mpr (List.length_filter_le ..)
  | clear =>
      show (t.clear.1.entries.length : Int) ≤ 2 * t.clear.1.capacity
      rw [h.entries_clear]
      exact Int.mul_nonneg (by decide) (Int.natCast_nonneg _)
  | _ => exact hload

theorem attempt {op : Store.Op K V} {a : Attempt} (ha : t.attempt? op faults = some a) :
    a.succeeded = true ∧ a.held = 2 * a.before + 1 := by
  have hother : t.posting? op faults ≠ some .inserted → t.attempt? op faults ≠ some a := by
    intro hp
    rw [attempt?_eq_none hp]
    exact fun hsome => nomatch hsome
  cases op with
  | set k v =>
      have hallow : allowsSet faults = true := h.allows 0
      rw [attempt?_set_allowed h.truthful hallow] at ha
      have hcases := h.set_cases k v
      split at ha
      · rename_i hd
        rw [if_pos hd] at hcases
        obtain rfl := Option.some.inj ha
        have hpos := h.capacity_pos
        refine ⟨bne_iff_ne.mpr ?_, hcases.2⟩
        show (t.set k v faults).state.capacity ≠ t.capacity
        omega
      · cases ha
  | delete k =>
      rw [attempt?_delete] at ha
      cases ha
  | _ => exact absurd ha (hother fun hsome => nomatch hsome)

theorem attempts (ops : List (Store.Op K V)) : ∀ a ∈ t.attempts faults ops,
    a.succeeded = true ∧ a.held = 2 * a.before + 1 := by
  induction ops generalizing t faults with
  | nil => exact fun _ ha => nomatch ha
  | cons op ops ih =>
      intro a ha
      rcases List.mem_append.mp ha with hfirst | hrest
      · exact h.attempt (Option.mem_toList.mp hfirst)
      · exact ih (h.apply op) a hrest

end Unrefused

/-- The log of growth of a run in which any calls may be refused.  Every attempt to grow is reported
once and in its order: one that succeeds with the old capacity, twice that, and the number of entries in
the table, and one that fails with the capacity that stays.  Those that succeed form a chain without
gaps from the initial capacity to the last.  If no write is ever refused all of them succeed, each with
one entry too many. -/
theorem run_create_growth_log {factory : Factory β} (hf : factory.Lawful) (hq : factory.Quiet)
    (requested : Nat) {faults : Faults} (ht : faults.Truthful) (ops : List (Store.Op K V)) :
    let c₀ := max 1 requested
    let t₀ := (create factory requested).1
    let r := Store.run t₀ faults ops
    let tried := t₀.attempts faults ops
    r.events.filter Event.tellsGrowth = tried.map Attempt.report ∧
      (∀ a ∈ tried, a.succeeded = true → a.after = 2 * a.before) ∧
      (∃ j, (tried.filter Attempt.succeeded).map Attempt.before =
          (List.range j).map (fun i => c₀ * powerOfTwo i) ∧
        r.state.capacity = c₀ * powerOfTwo j) ∧
      ((∀ i, faults.onSet i = .done) →
        ∀ a ∈ tried, a.succeeded = true ∧ a.held = 2 * a.before + 1) := by
  intro c₀ t₀ r tried
  have hs : t₀.Sound := sound_create hf requested
  refine ⟨hs.filter_events_run ht hq ops, hs.after_of_succeeded ht hq ops,
    hs.succeeded_run ht hq ops, fun hdone => ?_⟩
  have hstart : t₀.Unrefused faults := ⟨hs, ht, hdone, Int.mul_nonneg (by decide) (Int.natCast_nonneg _)⟩
  exact hstart.attempts ops

/-- The first attempt is refused its second entry.  The next one comes with four entries and succeeds,
and the third one after the table has been emptied.  Without the refusal there are two attempts. -/
theorem run_create_growth_log_of_three_attempts :
    let factory := (Shape.striped 2 .append).factory UInt64 Nat
    let faults : Faults := { Faults.none with onSet := fun i => if i = 4 then .refused else .done }
    let ops : List (Store.Op UInt64 Nat) := [.set 1 10, .set 2 20, .set 3 30, .set 2 21, .set 4 40,
      .delete 1, .clear, .set 1 10, .set 2 20, .set 3 30, .set 4 40, .set 5 50]
    let t₀ := (create factory 0).1
    let r := Store.run t₀ faults ops
    let tried := t₀.attempts faults ops
    factory.Lawful ∧ factory.Quiet ∧ faults.Truthful ∧ EquivBEq UInt64 ∧
      tried.map Attempt.report =
        [.aborted .notFound 1, .resized 1 2 4, .resized 2 4 5] ∧
      (r.events.filter Event.tellsGrowth = tried.map Attempt.report ∧
        (∀ a ∈ tried, a.succeeded = true → a.after = 2 * a.before) ∧
        (∃ j, (tried.filter Attempt.succeeded).map Attempt.before =
            (List.range j).map (fun i => max 1 0 * powerOfTwo i) ∧
          r.state.capacity = max 1 0 * powerOfTwo j) ∧
        ((∀ i, faults.onSet i = .done) →
          ∀ a ∈ tried, a.succeeded = true ∧ a.held = 2 * a.before + 1)) ∧
      (t₀.attempts Faults.none ops).map Attempt.report = [.resized 1 2 3, .resized 2 4 5] ∧
      ∀ a ∈ t₀.attempts Faults.none ops, a.succeeded = true ∧ a.held = 2 * a.before + 1 := by
  intro factory faults ops
  have hf : factory.Lawful := Shape.factory_lawful _
  have hq : factory.Quiet := Shape.factory_quiet _
  have ht : faults.Truthful := Faults.truthful_refusing _
  have hnone : Faults.none.Truthful := Faults.truthful_always (Or.inl rfl) (by decide)
  refine ⟨hf, hq, ht, inferInstance, ?_, run_create_growth_log hf hq 0 ht ops, ?_,
    (run_create_growth_log hf hq 0 hnone ops).2.2.2 fun _ => rfl⟩
  · decide +kernel
  · decide +kernel

end Table
end HashStore
