import HashStore.Proofs.Bucket.Striping

/-! # Traversals that are stopped early

A visitor that leaves the bucket as it is may have a state of its own and stop the traversal at any
entry.  `visitAll_recording` tells what it is called with: the entries up to the first to which it
answers `false`, and all of them if there is none.  A bucket of any shape is gone through as its
innermost lists one after another (`Shape.entries_eq_lists`), so the stop carries over from the stripe
where it happens to those that follow, and to the stripes of the levels above.

Both facts rest on `Shape.forEach_alike`: traversals by visitors that do alike end alike.  It holds of
all visitors, also of those that change the bucket.  In the same way a traversal gets along without an
answer: if at each level of stripes a flag is kept that every visit sets, and is looked at between two
stripes, then the visits are the same (`Shape.walk_eq`). -/

namespace HashStore

/-! ### Visitors that do alike -/

section alike

variable {K V ω ω' : Type} {R : Bool → ω → ω' → Prop} {visit : K → V → ω → Bool × ω}
  {visit' : K → V → ω' → Bool × ω'}

/-- Two outcomes with the same answer, whose states are related in the way that goes with it. -/
def Alike (R : Bool → ω → ω' → Prop) (r : Bool × ω) (r' : Bool × ω') : Prop :=
  r.1 = r'.1 ∧ R r.1 r.2 r'.2

/-- Two visitors that do alike as long as neither has stopped. -/
def VisitAlike (R : Bool → ω → ω' → Prop) (visit : K → V → ω → Bool × ω)
    (visit' : K → V → ω' → Bool × ω') : Prop :=
  ∀ k v w w', R true w w' → Alike R (visit k v w) (visit' k v w')

/-- If two outcomes are alike, so are they after both have gone on or neither has. -/
theorem Alike.goOn {r : Bool × ω} {r' : Bool × ω'} {next : ω → Bool × ω} {next' : ω' → Bool × ω'}
    (h : Alike R r r') (hnext : R true r.2 r'.2 → Alike R (next r.2) (next' r'.2)) :
    Alike R (if r.1 then next r.2 else r) (if r'.1 then next' r'.2 else r') := by
  obtain ⟨hanswer, hstate⟩ := h
  rw [← hanswer]
  cases hr : r.1 with
  | true => exact hnext (hr ▸ hstate)
  | false => exact ⟨hanswer, hstate⟩

theorem visitAll_alike (hvisit : VisitAlike R visit visit') (es : List (K × V)) {w : ω} {w' : ω'}
    (hw : R true w w') : Alike R (visitAll visit es w) (visitAll visit' es w') := by
  induction es generalizing w w' with
  | nil => exact ⟨rfl, hw⟩
  | cons e rest ih => exact (hvisit e.1 e.2 w w' hw).goOn ih

theorem PushList.visitFrom_alike {view : ω → PushList K V} {view' : ω' → PushList K V}
    (hview : ∀ w w', R true w w' → view w = view' w') (hvisit : VisitAlike R visit visit')
    (link : Nat) {w : ω} {w' : ω'} (hw : R true w w') :
    Alike R (visitFrom view visit link w) (visitFrom view' visit' link w') := by
  induction link using Nat.strong_induction_on generalizing w w' with
  | _ link ih =>
      cases link with
      | zero =>
          rw [visitFrom, visitFrom]
          exact ⟨rfl, hw⟩
      | succ i =>
          cases hnode : (view w).nodes[i]? with
          | none =>
              rw [visitFrom_of_none view hnode, visitFrom_of_none view' (hview w w' hw ▸ hnode)]
              exact ⟨rfl, hw⟩
          | some node =>
              have hlt : node.next < i + 1 := Nat.lt_succ_of_le ((view w).next_le hnode)
              rw [visitFrom_succ view hnode, visitFrom_succ view' (hview w w' hw ▸ hnode)]
              split
              · exact ih node.next hlt hw
              · exact (hvisit node.key node.value w w' hw).goOn (ih node.next hlt)

theorem Striped.visitStripes_alike {bits : Nat} {β : Type} [Bucket β K V]
    {view : ω → Striped bits β} {view' : ω' → Striped bits β}
    (hin : ∀ i {w w'}, R true w w' →
      Alike R (Bucket.forEach (fun w => (view w).stripe i) visit w)
        (Bucket.forEach (fun w => (view' w).stripe i) visit' w'))
    (is : List (Fin (powerOfTwo bits))) {w : ω} {w' : ω'} (hw : R true w w') :
    Alike R (visitStripes view visit is w) (visitStripes view' visit' is w') := by
  induction is generalizing w w' with
  | nil => exact ⟨rfl, hw⟩
  | cons i rest ih => exact (hin i hw).goOn ih

variable [BEq K] [Hashable K]

/-- Traversals by visitors that do alike end alike, as long as the visitors see the same bucket. -/
theorem Shape.forEach_alike (shape : Shape) {view : ω → shape.Content K V}
    {view' : ω' → shape.Content K V} (hview : ∀ w w', R true w w' → view w = view' w')
    (hvisit : VisitAlike R visit visit') {w : ω} {w' : ω'} (hw : R true w w') :
    Alike R (Bucket.forEach view visit w) (Bucket.forEach view' visit' w') := by
  induction shape generalizing w w' with
  | append =>
      show Alike R (visitAll visit (AppendList.entries (view w)) w)
        (visitAll visit' (AppendList.entries (view' w')) w')
      rw [hview w w' hw]
      exact visitAll_alike hvisit _ hw
  | push =>
      show Alike R (PushList.visitFrom view visit (PushList.head (view w)) w)
        (PushList.visitFrom view' visit' (PushList.head (view' w')) w')
      rw [hview w w' hw]
      exact PushList.visitFrom_alike hview hvisit _ hw
  | striped requested inner ih =>
      refine Striped.visitStripes_alike (fun i {w w'} hw => ih (fun w w' hw => ?_) hw) _ hw
      exact congrArg (fun s => Striped.stripe s i) (hview w w' hw)

end alike

/-! ### What a visitor is called with -/

section calls

variable {K V ω : Type}

/-- A visitor that writes down what it is called with. -/
def recording (visit : K → V → ω → Bool × ω) (k : K) (v : V) (w : ω × List (K × V)) :
    Bool × (ω × List (K × V)) :=
  let r := visit k v w.1
  (r.1, r.2, w.2 ++ [(k, v)])

/-- The answers to visits to some entries, one after another, if no answer stops them. -/
def answers (visit : K → V → ω → Bool × ω) : List (K × V) → ω → List Bool
  | [], _ => []
  | (k, v) :: rest, w => (visit k v w).1 :: answers visit rest (visit k v w).2

/-- The state in which visits to some entries leave a visitor. -/
def afterVisits (visit : K → V → ω → Bool × ω) (w : ω) (es : List (K × V)) : ω :=
  es.foldl (fun w e => (visit e.1 e.2 w).2) w

/-- The entries up to the first to which a visitor answers `false`, and all entries if it answers
`true` to each. -/
def upToStop (visit : K → V → ω → Bool × ω) (es : List (K × V)) (w : ω) : List (K × V) :=
  es.take ((answers visit es w).idxOf false + 1)

variable {visit : K → V → ω → Bool × ω} {k : K} {v : V} {w : ω}

theorem upToStop_cons_of_go (h : (visit k v w).1 = true) (rest : List (K × V)) :
    upToStop visit ((k, v) :: rest) w = (k, v) :: upToStop visit rest (visit k v w).2 := by
  rw [upToStop, answers, h, List.idxOf_cons, List.take_succ_cons]
  rfl

theorem upToStop_cons_of_stop (h : (visit k v w).1 = false) (rest : List (K × V)) :
    upToStop visit ((k, v) :: rest) w = [(k, v)] := by
  rw [upToStop, answers, h, List.idxOf_cons_self]
  rfl

/-- A visitor that never stops is shown everything. -/
theorem upToStop_eq_self {es : List (K × V)} (h : (answers visit es w).all id = true) :
    upToStop visit es w = es := by
  induction es generalizing w with
  | nil => rfl
  | cons e rest ih =>
      rw [answers, List.all_cons, Bool.and_eq_true] at h
      rw [upToStop_cons_of_go h.1, ih h.2]

/-- A visitor is called with the entries up to its stop, each once and in their order. -/
theorem visitAll_recording (visit : K → V → ω → Bool × ω) (es : List (K × V)) (w : ω)
    (seen : List (K × V)) :
    visitAll (recording visit) es (w, seen) =
      ((answers visit es w).all id, afterVisits visit w (upToStop visit es w),
        seen ++ upToStop visit es w) := by
  induction es generalizing w seen with
  | nil => simp [visitAll, answers, upToStop, afterVisits]
  | cons e rest ih =>
      obtain ⟨k, v⟩ := e
      cases h : (visit k v w).1 with
      | true =>
          have hgo : (recording visit k v (w, seen)).1 = true := h
          rw [visitAll, if_pos hgo, upToStop_cons_of_go h]
          refine (ih _ _).trans ?_
          rw [List.append_assoc, answers, List.all_cons, h]
          rfl
      | false =>
          have hstop : (recording visit k v (w, seen)).1 = false := h
          rw [visitAll, if_neg (Bool.eq_false_iff.mp hstop), upToStop_cons_of_stop h, answers,
            List.all_cons, h]
          exact Prod.ext h rfl

end calls

namespace Shape

/-! ### The innermost lists -/

section lists

variable {K V : Type}

/-- The innermost lists of a bucket, stripe after stripe. -/
def lists : (shape : Shape) → shape.Content K V → List (shape.core.Content K V)
  | append, l => [l]
  | push, l => [l]
  | striped requested inner, s =>
    (List.finRange (powerOfTwo (stripeBits requested))).flatMap fun i =>
      inner.lists (Striped.stripe s i)

variable [BEq K] [Hashable K]

/-- All entries are those of the innermost lists, list after list. -/
theorem entries_eq_lists (shape : Shape) (b : shape.Content K V) :
    Bucket.entries b = (shape.lists b).flatMap Bucket.entries := by
  induction shape with
  | append => exact (List.flatMap_singleton ..).symm
  | push => exact (List.flatMap_singleton ..).symm
  | striped requested inner ih =>
      refine (Striped.entries_eq_flatMap b).trans ?_
      simp only [ih]
      exact List.flatMap_assoc.symm

end lists

/-! ### Visitors that leave the bucket as it is -/

section steady

variable {K V ω : Type} [BEq K] [EquivBEq K] [Hashable K] (shape : Shape)

/-- A traversal by a visitor that leaves the bucket as it is goes through its entries. -/
theorem forEach_steady {b : shape.Content K V} (hb : LawfulBucket.Sound b)
    {view : ω → shape.Content K V} {visit : K → V → ω → Bool × ω}
    (hvisit : ∀ k v w, view w = b → view (visit k v w).2 = b) {w : ω} (hw : view w = b) :
    Bucket.forEach view visit w = visitAll visit (Bucket.entries b) w := by
  have halike : Alike (fun _ w w' => w' = w ∧ view w = b) (Bucket.forEach view visit w)
      (Bucket.forEach (fun _ => b) visit w) := by
    refine shape.forEach_alike (fun w w' h => h.2) (fun k v w w' h => ?_) ⟨rfl, hw⟩
    obtain ⟨rfl, hw⟩ := h
    exact ⟨rfl, rfl, hvisit k v w' hw⟩
  obtain ⟨hanswer, hstate, -⟩ := halike
  rw [← LawfulBucket.forEach_const visit w hb]
  exact Prod.ext hanswer hstate.symm

omit [EquivBEq K] in
/-- A visitor that writes down its calls does not do anything else for it. -/
theorem forEach_recording (view : ω → shape.Content K V) (visit : K → V → ω → Bool × ω) (w : ω) :
    let r := Bucket.forEach (fun w => view w.1) (recording visit) (w, [])
    Bucket.forEach view visit w = (r.1, r.2.1) := by
  have halike : Alike (fun _ w (w' : ω × List (K × V)) => w'.1 = w) (Bucket.forEach view visit w)
      (Bucket.forEach (fun w => view w.1) (recording visit) (w, [])) := by
    refine shape.forEach_alike (fun w w' h => congrArg view h.symm) (fun k v w w' h => ?_) rfl
    obtain rfl := h
    exact ⟨rfl, rfl⟩
  exact Prod.ext halike.1 halike.2.symm

end steady

/-! ### A stop that is told by a flag -/

section walk

variable {K V ω : Type}

/-- A visitor that sets a flag at every visit: whether it has had enough. -/
def flagging (visit : K → V → ω → Bool × ω) (k : K) (v : V) (w : ω × Bool) : Bool × (ω × Bool) :=
  let r := visit k v w.1
  (r.1, r.2, !r.1)

/-- Goes from stripe to stripe until the flag is up. -/
def passStripes {ι : Type} (walk : ι → ω × Bool → ω × Bool) : List ι → ω × Bool → ω × Bool
  | [], w => w
  | i :: rest, w =>
    let w' := walk i w
    if w'.2 then w' else passStripes walk rest w'

/-- Where each stripe leaves the flag up if it is not gone through to its end, all stripes do. -/
theorem passStripes_eq {bits : Nat} {β : Type} [Bucket β K V] {view : ω → Striped bits β}
    {visit : K → V → ω → Bool × ω} {walk : Fin (powerOfTwo bits) → ω × Bool → ω × Bool}
    (hwalk : ∀ i w, walk i (w, false) =
      let r := Bucket.forEach (fun w => (view w).stripe i) visit w
      (r.2, !r.1))
    (is : List (Fin (powerOfTwo bits))) (w : ω) :
    passStripes walk is (w, false) =
      ((Striped.visitStripes view visit is w).2, !(Striped.visitStripes view visit is w).1) := by
  induction is generalizing w with
  | nil => rfl
  | cons i rest ih =>
      rw [passStripes, hwalk, Striped.visitStripes]
      generalize Bucket.forEach (fun w => (view w).stripe i) visit w = r
      obtain ⟨go, w'⟩ := r
      cases go with
      | true => exact ih w'
      | false => rfl

variable [BEq K] [Hashable K]

/-- A traversal that does not answer whether it has reached the end.  Each level of stripes has a flag
of its own, which only the visits within it set and which is down at first. -/
def walk : (shape : Shape) → {ω : Type} → (view : ω → shape.Content K V) →
    (visit : K → V → ω → Bool × ω) → ω → ω
  | append, _, view, visit, w => (Bucket.forEach (β := AppendList K V) view visit w).2
  | push, _, view, visit, w => (Bucket.forEach (β := PushList K V) view visit w).2
  | striped requested inner, _, view, visit, w =>
    let stripe (i : Fin (powerOfTwo (stripeBits requested))) :=
      inner.walk (fun w => Striped.stripe (view w.1) i) (flagging visit)
    (passStripes stripe (List.finRange _) (w, false)).1

theorem forEach_flagging (shape : Shape) (view : ω → shape.Content K V)
    (visit : K → V → ω → Bool × ω) (w : ω) :
    let r := Bucket.forEach view visit w
    (Bucket.forEach (fun w => view w.1) (flagging visit) (w, false)).2 = (r.2, !r.1) := by
  have halike : Alike (fun go w (w' : ω × Bool) => w' = (w, !go)) (Bucket.forEach view visit w)
      (Bucket.forEach (fun w => view w.1) (flagging visit) (w, false)) := by
    refine shape.forEach_alike (fun w w' h => ?_) (fun k v w w' h => ?_) rfl
    · rw [h]
    · obtain rfl := h
      exact ⟨rfl, rfl⟩
  exact halike.2

/-- Flags tell as much as the answers of traversals do, also if the visitor changes the bucket. -/
theorem walk_eq (shape : Shape) {ω : Type} (view : ω → shape.Content K V)
    (visit : K → V → ω → Bool × ω) (w : ω) :
    shape.walk view visit w = (Bucket.forEach view visit w).2 := by
  induction shape generalizing ω with
  | append => rfl
  | push => rfl
  | striped requested inner ih =>
      refine congrArg Prod.fst (passStripes_eq (fun i w => ?_) (List.finRange _) w)
      rw [ih]
      exact inner.forEach_flagging (fun w => Striped.stripe (view w) i) visit w

end walk

/-! ### Where a traversal stops -/

variable {K V ω : Type} [BEq K] [EquivBEq K] [Hashable K]

/-- A traversal by a visitor that leaves the bucket as it is shows it the entries of the innermost lists,
list after list and each once, up to the first to which the visitor answers `false`, and nothing after
that.  Where flags alone tell of the stop, the visitor is shown the same. -/
theorem forEach_run_upToStop (shape : Shape) (ops : List (Bucket.Op K V))
    (view : ω → shape.Content K V) (visit : K → V → ω → Bool × ω) (w : ω) :
    let b := (Bucket.run (shape.empty : shape.Content K V) ops).2
    let es := (shape.lists b).flatMap Bucket.entries
    let seen := upToStop visit es w
    let r := Bucket.forEach (fun w => view w.1) (recording visit) (w, [])
    view w = b → (∀ k v w, view w = b → view (visit k v w).2 = b) →
      r = ((answers visit es w).all id, afterVisits visit w seen, seen) ∧ seen.Nodup ∧
      (r.1 = true → seen = es) ∧ Bucket.forEach view visit w = (r.1, r.2.1) ∧
      shape.walk (fun w => view w.1) (recording visit) (w, []) = r.2 ∧
      shape.walk view visit w = r.2.1 := by
  intro b es seen r hview hvisit
  have hb : LawfulBucket.Sound b := LawfulBucket.sound_run shape.factory_lawful.sound ops
  have hes : Bucket.entries b = es := shape.entries_eq_lists b
  have hdistinct : es.Nodup := by
    rw [← hes]
    exact (LawfulBucket.distinct hb).nodup (isSameness_meets _)
  have hshown : r = ((answers visit es w).all id, afterVisits visit w seen, seen) := by
    have hsteady : r = visitAll (recording visit) (Bucket.entries b) (w, []) :=
      shape.forEach_steady hb (fun k v w hw => hvisit k v w.1 hw) hview
    rw [hsteady, hes]
    exact visitAll_recording visit es w []
  have hplain : Bucket.forEach view visit w = (r.1, r.2.1) := shape.forEach_recording view visit w
  refine ⟨hshown, hdistinct.sublist (List.take_sublist ..), fun hall => ?_, hplain, walk_eq .., ?_⟩
  · rw [hshown] at hall
    exact upToStop_eq_self hall
  · rw [walk_eq, hplain]

/-- A visitor that adds values up until their sum is above 100. -/
def tally (_ : UInt64) (v : Nat) (w : (striped 2 (striped 3 .push)).Content UInt64 Nat × Nat) :
    Bool × ((striped 2 (striped 3 .push)).Content UInt64 Nat × Nat) :=
  (decide (w.2 + v ≤ 100), (w.1, w.2 + v))

/-- Of four keys in eight lists the third is the last visited.  It brings the sum to 111, and between it
and the fourth lie lists without entries, on both sides of the end of a stripe. -/
theorem forEach_run_upToStop_tally :
    let shape := striped 2 (striped 3 .push)
    let ops : List (Bucket.Op UInt64 Nat) :=
      [.set 1 10, .set 2 20, .set 3 30, .set 4 40, .set 2 21, .delete 3, .set 5 50]
    let b := (Bucket.run (shape.empty : shape.Content UInt64 Nat) ops).2
    let es := (shape.lists b).flatMap Bucket.entries
    let seen := upToStop tally es (b, 0)
    let r := Bucket.forEach (fun w => w.1.1) (recording tally) ((b, 0), [])
    EquivBEq UInt64 ∧
      (shape.lists b).map Bucket.entries =
        [[(5, 50), (2, 21)], [(4, 40)], [], [], [], [], [(1, 10)], []] ∧
      r.2.2 = [(5, 50), (2, 21), (4, 40)] ∧ r.2.1.2 = 111 ∧
      (b, 0).1 = b ∧ (∀ k v w, Prod.fst w = b → (tally k v w).2.1 = b) ∧
      r = ((answers tally es (b, 0)).all id, afterVisits tally (b, 0) seen, seen) ∧ seen.Nodup ∧
      (r.1 = true → seen = es) ∧ Bucket.forEach Prod.fst tally (b, 0) = (r.1, r.2.1) ∧
      shape.walk (fun w => w.1.1) (recording tally) ((b, 0), []) = r.2 ∧
      shape.walk Prod.fst tally (b, 0) = r.2.1 := by
  intro shape ops b es seen r
  have hview : ∀ c : shape.Content UInt64 Nat, (c, 0).1 = c := fun _ => rfl
  have hvisit : ∀ k v w, Prod.fst w = b → (tally k v w).2.1 = b := fun k v w hw => hw
  refine ⟨inferInstance, ?_, ?_, ?_, hview b, hvisit,
    forEach_run_upToStop shape ops Prod.fst tally (b, 0) (hview b) hvisit⟩
  · decide +kernel
  · decide +kernel
  · decide +kernel

end Shape

end HashStore
