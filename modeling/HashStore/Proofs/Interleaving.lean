import HashStore.Proofs.Sharded.Divided

/-! # Independent operations commute

Lists of operations on single keys are `Independent` if no key of one equals a key of another.
Steps of all of them in some order, tagged with the list they are from, are an interleaving
(`Interleaves`) if each list keeps its own order.

On a finite map an operation sees and changes nothing but the entry of its key.  So the answers to
the steps of one list are those that it would get alone (`Dict.answersTo_run`), and the entry of a
key is in the end what the one list that is about it makes of it (`Dict.find_run_of_interleaves`).
Neither depends on the interleaving, and tables and sharded tables stand for finite maps, however
differently they grow on the way (`run_create_interleaving`). -/

namespace HashStore

open Entries Surroundings

namespace Store

variable {ι K V : Type}

/-- The key that an operation is about, if it is about a single one. -/
def Op.key? : Op K V → Option K
  | .get k | .set k _ | .delete k | .contains k => some k
  | .clear | .size | .isEmpty => none

/-- Whether an operation is about a single key, and one that does not equal `k`. -/
def Op.Misses [BEq K] (op : Op K V) (k : K) : Prop := ∃ k', op.key? = some k' ∧ (k' == k) = false

/-- Lists of operations on single keys, of which no key equals one of another list. -/
structure Independent [BEq K] (lists : ι → List (Op K V)) : Prop where
  keyed : ∀ i, ∀ op ∈ lists i, op.key?.isSome = true
  apart : ∀ i j, i ≠ j → ∀ op ∈ lists i, ∀ op' ∈ lists j, ∀ k ∈ op.key?, ∀ k' ∈ op'.key?,
    (k == k') = false

theorem Independent.misses [BEq K] {lists : ι → List (Op K V)} (h : Independent lists) {i j : ι}
    (hij : i ≠ j) {op op' : Op K V} (hop : op ∈ lists i) (hop' : op' ∈ lists j) {k : K}
    (hk : op'.key? = some k) : op.Misses k := by
  obtain ⟨k', hk'⟩ := Option.isSome_iff_exists.mp (h.keyed i op hop)
  exact ⟨k', hk', h.apart i j hij op hop op' hop' k' hk' k hk⟩

variable [DecidableEq ι]

/-- Steps of several lists, each tagged with its list, in which every list keeps its own order. -/
def Interleaves (steps : List (ι × Op K V)) (lists : ι → List (Op K V)) : Prop :=
  ∀ i, (steps.filter fun step => step.1 == i).map (·.2) = lists i

theorem Interleaves.mem {steps : List (ι × Op K V)} {lists : ι → List (Op K V)}
    (h : Interleaves steps lists) {step : ι × Op K V} (hstep : step ∈ steps) :
    step.2 ∈ lists step.1 := by
  rw [← h step.1]
  exact List.mem_map_of_mem (List.mem_filter.mpr ⟨hstep, beq_self_eq_true _⟩)

end Store

/-! ### Finite maps -/

namespace Dict

open Store

variable {ι K V : Type} [BEq K]

theorem trace_of_misses {op : Op K V} {k : K} (h : op.Misses k) (e : Option (K × V)) :
    trace k e op = e := by
  obtain ⟨k', hk', hne⟩ := h
  cases op with
  | set _ _ =>
      obtain rfl := Option.some.inj hk'
      rw [trace, hne]
      rfl
  | delete _ =>
      obtain rfl := Option.some.inj hk'
      rw [trace, hne]
      rfl
  | get _ => rfl
  | contains _ => rfl
  | clear => cases hk'
  | size => cases hk'
  | isEmpty => cases hk'

/-- Operations that are not about a key leave it what the others leave it. -/
theorem foldl_trace_filter (selects : ι × Op K V → Bool) {k : K} {steps : List (ι × Op K V)}
    (h : ∀ step ∈ steps, selects step = false → step.2.Misses k) (e : Option (K × V)) :
    (steps.map (·.2)).foldl (trace k) e = ((steps.filter selects).map (·.2)).foldl (trace k) e := by
  induction steps generalizing e with
  | nil => rfl
  | cons step steps ih =>
      obtain ⟨hhead, htail⟩ := List.forall_mem_cons.mp h
      rw [List.map_cons, List.foldl_cons, ih htail, List.filter_cons]
      cases hstep : selects step with
      | true => rfl
      | false => rw [trace_of_misses (hhead hstep)]; rfl

/-- An operation on a key is answered by the entry of the key. -/
theorem answer_congr {d d' : Dict K V} {op : Op K V} {k : K} (hk : op.key? = some k)
    (h : find (fun a b => a == b) k d.entries = find (fun a b => a == b) k d'.entries) :
    (d.apply op).1 = (d'.apply op).1 := by
  have hlookup : d.lookup k = d'.lookup k := by rw [lookup, h, lookup]
  cases op with
  | get _ =>
      obtain rfl := Option.some.inj hk
      exact congrArg Answer.value hlookup
  | contains _ =>
      obtain rfl := Option.some.inj hk
      exact congrArg (fun v : Option V => Answer.truth v.isSome) hlookup
  | delete _ =>
      obtain rfl := Option.some.inj hk
      rw [apply_delete, apply_delete, contains_eq_isSome_lookup, contains_eq_isSome_lookup, hlookup]
  | set _ _ => rfl
  | clear => cases hk
  | size => cases hk
  | isEmpty => cases hk

variable [EquivBEq K] [DecidableEq ι] {lists : ι → List (Op K V)} {steps : List (ι × Op K V)}

/-- The steps of one list are answered as if there were no others. -/
theorem answersTo_run (hind : Independent lists) (hsteps : ∀ step ∈ steps, step.2 ∈ lists step.1)
    (i : ι) {d d' : Dict K V}
    (h : ∀ op ∈ lists i, ∀ k ∈ op.key?,
      find (fun a b => a == b) k d.entries = find (fun a b => a == b) k d'.entries) :
    answersTo (fun step => step.1 == i) steps (d.run (steps.map (·.2))).1 =
      (d'.run ((steps.filter fun step => step.1 == i).map (·.2))).1 := by
  induction steps generalizing d d' with
  | nil => rfl
  | cons step steps ih =>
      obtain ⟨hhead, htail⟩ := List.forall_mem_cons.mp hsteps
      obtain ⟨k, hk⟩ := Option.isSome_iff_exists.mp (hind.keyed _ _ hhead)
      rw [List.map_cons, run, answersTo_cons, List.filter_cons]
      by_cases hi : step.1 = i
      · subst hi
        have hans := answer_congr hk (h step.2 hhead k hk)
        rw [beq_self_eq_true, if_pos rfl, if_pos rfl, List.map_cons, run, hans]
        refine congrArg _ (ih htail fun op hop k hk => ?_)
        rw [find_apply, find_apply, h op hop k hk]
      · have hmisses : ∀ op ∈ lists i, ∀ k ∈ op.key?, step.2.Misses k :=
          fun op hop k hk => hind.misses hi hhead hop hk
        rw [beq_false_of_ne hi, if_neg Bool.false_ne_true, if_neg Bool.false_ne_true]
        refine ih htail fun op hop k hk => ?_
        rw [find_apply, trace_of_misses (hmisses op hop k hk), h op hop k hk]

/-- The entry of a key in the end does not depend on the interleaving: one list at most is about the
key. -/
theorem find_run_of_interleaves (hind : Independent lists) {steps' : List (ι × Op K V)}
    (h : Interleaves steps lists) (h' : Interleaves steps' lists) (d : Dict K V) (k : K) :
    find (fun a b => a == b) k (d.run (steps.map (·.2))).2.entries =
      find (fun a b => a == b) k (d.run (steps'.map (·.2))).2.entries := by
  rw [find_run, find_run]
  by_cases hlist : ∃ i, ∃ op ∈ lists i, ∃ k' ∈ op.key?, (k' == k) = true
  · obtain ⟨i, op, hop, k', hk', hkk⟩ := hlist
    have hmiss : ∀ step : ι × Op K V, step.2 ∈ lists step.1 → (step.1 == i) = false →
        step.2.Misses k := by
      intro step hstep hne
      obtain ⟨k'', hk'', hother⟩ := hind.misses (ne_of_beq_false hne) hstep hop hk'
      exact ⟨k'', hk'', by rwa [← isSameness_beq.congr_right hkk]⟩
    rw [foldl_trace_filter (fun step => step.1 == i) fun step hstep => hmiss step (h.mem hstep),
      foldl_trace_filter (fun step => step.1 == i) fun step hstep => hmiss step (h'.mem hstep),
      h i, h' i]
  · have hmiss : ∀ step : ι × Op K V, step.2 ∈ lists step.1 → step.2.Misses k := by
      intro step hstep
      obtain ⟨k', hk'⟩ := Option.isSome_iff_exists.mp (hind.keyed _ _ hstep)
      refine ⟨k', hk', Bool.eq_false_iff.mpr fun hkk => ?_⟩
      exact hlist ⟨step.1, step.2, hstep, k', hk', hkk⟩
    rw [foldl_trace_filter (fun _ => false) fun step hstep _ => hmiss step (h.mem hstep),
      foldl_trace_filter (fun _ => false) fun step hstep _ => hmiss step (h'.mem hstep),
      List.filter_false, List.filter_false]

/-- A store that follows a finite map answers the steps of each list as if there were no others, and
its entries in the end do not depend on the interleaving. -/
theorem run_of_interleaves {S : Type} [Store S Unit K V] (represents : S → Dict K V → Prop)
    (happly : ∀ {s d}, represents s d → ∀ op, (Store.apply s op ()).answer = (d.apply op).1 ∧
      represents (Store.apply s op ()).state (d.apply op).2)
    {s : S} {d : Dict K V} (hs : represents s d) (hind : Independent lists)
    {steps' : List (ι × Op K V)} (h : Interleaves steps lists) (h' : Interleaves steps' lists) :
    let r := Store.run s () (steps.map (·.2))
    let r' := Store.run s () (steps'.map (·.2))
    (∀ i, answersTo (fun step => step.1 == i) steps r.answer = (Store.run s () (lists i)).answer ∧
      answersTo (fun step => step.1 == i) steps' r'.answer =
        answersTo (fun step => step.1 == i) steps r.answer) ∧
      ∃ d₁ d₂, represents r.state d₁ ∧ represents r'.state d₂ ∧ d₁.entries.Perm d₂.entries := by
  intro r r'
  have hrun : r.answer = _ ∧ represents r.state _ := run_of_apply happly hs (steps.map (·.2))
  have hrun' : r'.answer = _ ∧ represents r'.state _ := run_of_apply happly hs (steps'.map (·.2))
  have halone : ∀ {steps : List (ι × Op K V)}, Interleaves steps lists → ∀ i,
      answersTo (fun step => step.1 == i) steps (d.run (steps.map (·.2))).1 =
        (Store.run s () (lists i)).answer := by
    intro steps h i
    rw [answersTo_run hind (fun step => h.mem) i fun _ _ _ _ => rfl, h i,
      (run_of_apply happly hs (lists i)).1]
  constructor
  · intro i
    rw [hrun.1, hrun'.1]
    exact ⟨halone h i, (halone h' i).trans (halone h i).symm⟩
  · refine ⟨_, _, hrun.2, hrun'.2, ?_⟩
    exact Distinct.perm_of_find isSameness_beq (Dict.distinct _) (Dict.distinct _)
      (find_run_of_interleaves hind h h' d)

end Dict

/-! ### Tables and sharded tables -/

open Store in
/-- In every interleaving of independent lists of operations, from any state that a table or a
sharded table has come to, the steps of each list get the answers that they would get without the
others, and in the end there are the same entries. -/
theorem run_create_interleaving {ι σ β K V : Type} [DecidableEq ι] [BEq K] [EquivBEq K] [Hashable K]
    [LawfulHashable K] [Bucket β K V] [LawfulBucket β K V] [Access σ β K V] [Surroundings σ]
    [TruthfulAccess σ β K V] {factory : Factory β} (hf : factory.Lawful) {env : σ}
    (ht : Truthful env) (ops : List (Op K V)) {lists : ι → List (Op K V)}
    (hind : Independent lists) {steps steps' : List (ι × Op K V)} (h : Interleaves steps lists)
    (h' : Interleaves steps' lists) :
    (∀ requested,
      let t := (run (Table.create factory requested).1 env ops).state
      let r := run t () (steps.map (·.2))
      let r' := run t () (steps'.map (·.2))
      (∀ i, answersTo (fun step => step.1 == i) steps r.answer = (run t () (lists i)).answer ∧
        answersTo (fun step => step.1 == i) steps' r'.answer =
          answersTo (fun step => step.1 == i) steps r.answer) ∧
        r'.state.entries.Perm r.state.entries ∧ r'.state.size = r.state.size) ∧
    ∀ plan,
      let s := (run (ShardedTable.create factory plan).1 env ops).state
      let r := run s () (steps.map (·.2))
      let r' := run s () (steps'.map (·.2))
      (∀ i, answersTo (fun step => step.1 == i) steps r.answer = (run s () (lists i)).answer ∧
        answersTo (fun step => step.1 == i) steps' r'.answer =
          answersTo (fun step => step.1 == i) steps r.answer) ∧
        r'.state.entries.Perm r.state.entries ∧ r'.state.size = r.state.size := by
  constructor
  · intro requested t r r'
    have hs : t.Sound := ((Table.sound_create hf requested).run ht ops).1
    obtain ⟨hans, d, d', hd, hd', hperm⟩ :=
      Dict.run_of_interleaves Table.Represents (fun h op => h.apply op) hs.represents hind h h'
    have hend : r'.state.entries.Perm r.state.entries :=
      hd'.perm.trans (hperm.symm.trans hd.perm.symm)
    refine ⟨hans, hend, ?_⟩
    rw [hd'.sound.size_eq, hd.sound.size_eq]
    exact hend.length_eq
  · intro plan s r r'
    have hs : s.Divided := ((ShardedTable.divided_create hf plan).run ht ops).1
    obtain ⟨hans, d, d', hd, hd', hperm⟩ :=
      Dict.run_of_interleaves ShardedTable.Represents (fun h op => h.apply op) hs.represents
        hind h h'
    refine ⟨hans, hd'.perm.trans (hperm.symm.trans hd.perm.symm), ?_⟩
    rw [hd'.size_eq, hd.size_eq]
    exact hperm.symm.length_eq

open Store in
/-- The table that holds 1, 2 and 5 at once grows, the one from which 1 is removed before 2 comes
does not. -/
theorem run_create_interleaving_of_two_lists :
    let factory := (Shape.striped 2 .push).factory Nat Nat
    let env := Faults.always .done .ignored
    let ops : List (Op Nat Nat) := [.set 5 50, .delete 5]
    let lists (i : Fin 2) : List (Op Nat Nat) :=
      if i = 0 then [.set 1 10, .delete 1, .contains 1] else [.set 2 20, .get 2, .set 2 21]
    let steps : List (Fin 2 × Op Nat Nat) := [(0, .set 1 10), (1, .set 2 20), (0, .delete 1),
      (1, .get 2), (0, .contains 1), (1, .set 2 21)]
    let steps' : List (Fin 2 × Op Nat Nat) := [(0, .set 1 10), (0, .delete 1), (1, .set 2 20),
      (1, .get 2), (1, .set 2 21), (0, .contains 1)]
    let t := (run (Table.create factory 1).1 env ops).state
    let r := run t () (steps.map (·.2))
    let r' := run t () (steps'.map (·.2))
    EquivBEq Nat ∧ LawfulHashable Nat ∧ factory.Lawful ∧ Faults.Truthful env ∧
      Independent lists ∧ Interleaves steps lists ∧ Interleaves steps' lists ∧
      t.entries = [(5, 50)] ∧ r.state.capacity = 2 ∧ r'.state.capacity = 1 ∧
      (∀ i, answersTo (fun step => step.1 == i) steps r.answer = (run t () (lists i)).answer ∧
        answersTo (fun step => step.1 == i) steps' r'.answer =
          answersTo (fun step => step.1 == i) steps r.answer) ∧
      r'.state.entries.Perm r.state.entries ∧ r'.state.size = r.state.size := by
  intro factory env ops lists steps steps' t r r'
  have hf : factory.Lawful := (Shape.striped 2 .push).factory_lawful
  have ht : env.Truthful := Faults.truthful_always (Or.inl rfl) (by decide)
  have hind : Independent lists := ⟨by decide, by decide⟩
  have h : Interleaves steps lists := by unfold Interleaves; decide
  have h' : Interleaves steps' lists := by unfold Interleaves; decide
  refine ⟨inferInstance, inferInstance, hf, ht, hind, h, h', ?_, ?_, ?_, ?_⟩
  · decide +kernel
  · decide +kernel
  · decide +kernel
  · exact (run_create_interleaving hf ht ops hind h h').1 1

end HashStore
