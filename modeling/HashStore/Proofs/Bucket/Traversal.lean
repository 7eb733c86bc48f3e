import HashStore.Proofs.Bucket.Program
import HashStore.Proofs.Bucket.PushList

/-! # Traversals of a list that changes under them

A traversal of a `PushList` may find that its visitor has removed the node that it stands on, the one it
goes to next, or any others, and that new ones have come.  `remaining` tells from the operations alone
what is left of an entry, and a traversal visits what is left on arrival of the entries that it started
with: it does what `visitAll` does with those entries, if each is visited as `visitLeft` says
(`PushList.Tracked.visitFrom_eq_visitAll`).  `ComesTo` names the states in which it arrives at them.

The proof follows the entry of each single node through the operations (`PushList.Sound.entryAt_run`).
Links pass over removed nodes only, now as when the traversal read them, since no node comes back.  All
this holds of a list that is part of a greater bucket as well, as long as operations on the bucket do to
the list what operations on it do to its entries (`PushList.Tracked`). -/

namespace HashStore

open Entries

/-! ### Going through entries -/

section visitAll

variable {K V ω : Type} {visit : K → V → ω → Bool × ω} {e : K × V} {es : List (K × V)} {w w' : ω}

/-- What every visit preserves is preserved by going through entries. -/
theorem visitAll_preserves {P : ω → Prop} (hvisit : ∀ k v w, P w → P (visit k v w).2)
    (es : List (K × V)) (w : ω) (hw : P w) : P (visitAll visit es w).2 := by
  induction es generalizing w with
  | nil => exact hw
  | cons e rest ih =>
      rw [visitAll]
      split
      · exact ih _ (hvisit _ _ _ hw)
      · exact hvisit _ _ _ hw

/-- On the way through some entries `visitAll` comes to an entry, in the state in which the visits to
those before it have left it. -/
def ComesTo (visit : K → V → ω → Bool × ω) (es : List (K × V)) (w : ω) (e : K × V) (w' : ω) : Prop :=
  ∃ a b, es = a ++ e :: b ∧ visitAll visit a w = (true, w')

theorem comesTo_cons {e₀ : K × V} : ComesTo visit (e₀ :: es) w e w' ↔ e = e₀ ∧ w' = w ∨
    (visit e₀.1 e₀.2 w).1 = true ∧ ComesTo visit es (visit e₀.1 e₀.2 w).2 e w' := by
  constructor
  · rintro ⟨a, b, hes, ha⟩
    cases a with
    | nil =>
        obtain ⟨rfl, -⟩ := List.cons.inj hes
        exact Or.inl ⟨rfl, (congrArg Prod.snd ha).symm⟩
    | cons e' a =>
        obtain ⟨rfl, htail⟩ := List.cons.inj hes
        rw [visitAll] at ha
        split at ha
        · rename_i hgo
          exact Or.inr ⟨hgo, a, b, htail, ha⟩
        · rename_i hstop
          exact absurd (congrArg Prod.fst ha) hstop
  · rintro (⟨rfl, rfl⟩ | ⟨hgo, a, b, rfl, ha⟩)
    · exact ⟨[], es, rfl, rfl⟩
    · exact ⟨e₀ :: a, b, rfl, (if_pos hgo).trans ha⟩

theorem ComesTo.mem (h : ComesTo visit es w e w') : e ∈ es := by
  obtain ⟨a, b, rfl, -⟩ := h
  exact List.mem_append_right _ (List.mem_cons_self ..)

theorem ComesTo.preserves {P : ω → Prop} (h : ComesTo visit es w e w')
    (hvisit : ∀ k v w, P w → P (visit k v w).2) (hw : P w) : P w' := by
  obtain ⟨a, b, -, ha⟩ := h
  have hend := visitAll_preserves hvisit a w hw
  rwa [ha] at hend

/-- From where it has come to, `visitAll` goes on. -/
theorem ComesTo.visitAll_eq (h : ComesTo visit es w e w') :
    ∃ b, visitAll visit es w = visitAll visit (e :: b) w' := by
  obtain ⟨a, b, rfl, ha⟩ := h
  exact ⟨b, by rw [visitAll_append, ha, if_pos rfl]⟩

/-- A visit that answers `false` is the last. -/
theorem ComesTo.visitAll_of_stop (h : ComesTo visit es w e w')
    (hstop : (visit e.1 e.2 w').1 = false) : visitAll visit es w = visit e.1 e.2 w' := by
  obtain ⟨b, hb⟩ := h.visitAll_eq
  rw [hb, visitAll]
  exact if_neg (Bool.eq_false_iff.mp hstop)

/-- Where no visit answers `false` all entries are come to. -/
theorem exists_comesTo (hall : (visitAll visit es w).1 = true) (he : e ∈ es) :
    ∃ w', ComesTo visit es w e w' := by
  obtain ⟨a, b, rfl⟩ := List.append_of_mem he
  rw [visitAll_append] at hall
  split at hall
  · rename_i hgo
    exact ⟨_, a, b, rfl, Prod.ext hgo rfl⟩
  · rename_i hstop
    exact absurd hall hstop

theorem visitAll_fst_of_comesTo
    (hgo : ∀ e w', ComesTo visit es w e w' → (visit e.1 e.2 w').1 = true) :
    (visitAll visit es w).1 = true := by
  induction es generalizing w with
  | nil => rfl
  | cons e₀ es ih =>
      have hfirst := hgo e₀ w (comesTo_cons.mpr (Or.inl ⟨rfl, rfl⟩))
      rw [visitAll, if_pos hfirst]
      exact ih fun e w' hw' => hgo e w' (comesTo_cons.mpr (Or.inr ⟨hfirst, hw'⟩))

end visitAll

/-! ### What is left of entries -/

section remaining

variable {β K V S : Type} [BEq K]

/-- What an operation makes of an entry. -/
def Bucket.Op.onEntry (op : Bucket.Op K V) (e : K × V) : Option (K × V) :=
  match op with
  | .set k v => some (if e.1 == k then (e.1, v) else e)
  | .delete k => if e.1 == k then none else some e
  | _ => some e

/-- What operations leave of an entry.  One that is removed does not come back, not even if its key is
set again. -/
def remaining (ops : List (Bucket.Op K V)) (e : K × V) : Option (K × V) :=
  ops.foldlM (fun e op => op.onEntry e) e

/-- Visits what is left of entries on arrival, one after another until a visit answers `false`. -/
def visitRemaining (visit : K → V → Traversal β K V S → Bool × Traversal β K V S) :
    List (K × V) → Traversal β K V S → Bool × Traversal β K V S
  | [], w => (true, w)
  | e :: rest, w =>
    match remaining w.session.log e with
    | none => visitRemaining visit rest w
    | some (k, v) =>
      let r := visit k v w
      if r.1 then visitRemaining visit rest r.2 else r

/-- Visits what operations have left of an entry, if anything.  Those before number `since` do not
count. -/
def visitLeft (since : Nat) (visit : K → V → Traversal β K V S → Bool × Traversal β K V S) (k : K)
    (v : V) (w : Traversal β K V S) : Bool × Traversal β K V S :=
  match remaining (w.session.log.drop since) (k, v) with
  | none => (true, w)
  | some e => visit e.1 e.2 w

theorem visitRemaining_eq_visitAll (visit : K → V → Traversal β K V S → Bool × Traversal β K V S)
    (es : List (K × V)) (w : Traversal β K V S) :
    visitRemaining visit es w = visitAll (visitLeft 0 visit) es w := by
  induction es generalizing w with
  | nil => rfl
  | cons e es ih =>
      rw [visitRemaining, visitAll, visitLeft, List.drop_zero]
      cases remaining w.session.log (e.1, e.2) with
      | none => exact ih w
      | some e' => simp only [ih]

theorem remaining_append (ops ops' : List (Bucket.Op K V)) (e : K × V) :
    remaining (ops ++ ops') e = (remaining ops e).bind (remaining ops') := List.foldlM_append

/-- What is gone stays gone. -/
theorem Session.Leads.gone [Bucket β K V] {s s' : Session β K V} (h : s.Leads s') {since : Nat}
    (hle : since ≤ s.log.length) {e? : Option (K × V)}
    (hgone : e?.bind (remaining (s.log.drop since)) = none) :
    e?.bind (remaining (s'.log.drop since)) = none := by
  obtain ⟨ops, _, hlog⟩ := h
  cases e? with
  | none => rfl
  | some e =>
      rw [Option.bind_some] at hgone ⊢
      rw [hlog, List.drop_append_of_le_length hle, remaining_append, hgone]
      rfl

theorem key_of_onEntry {op : Bucket.Op K V} {e e' : K × V} (h : op.onEntry e = some e') :
    e'.1 = e.1 := by
  unfold Bucket.Op.onEntry at h
  split at h
  · cases h
    split <;> rfl
  · split at h <;> cases h
    rfl
  · cases h
    rfl

theorem key_of_remaining {ops : List (Bucket.Op K V)} {e e' : K × V}
    (h : remaining ops e = some e') : e'.1 = e.1 := by
  induction ops generalizing e with
  | nil => cases h; rfl
  | cons op ops ih =>
      rw [remaining, List.foldlM_cons] at h
      obtain ⟨e₁, h₁, hrest⟩ := Option.bind_eq_some_iff.mp h
      exact (ih hrest).trans (key_of_onEntry h₁)

/-! ### What is visited -/

section visited

variable [Bucket β K V] (visit : K → V → S → Program K V (Bool × S)) (since : Nat)

theorem visited_visitLeft (k : K) (v : V) (w : Traversal β K V S) :
    ∃ now, (visitLeft since (Program.visitBy visit) k v w).2.visited = w.visited ++ now ∧
      (now.map (·.1.1)).Sublist [k] ∧
      ∀ x, x ∈ now ↔
        remaining (w.session.log.drop since) (k, v) = some x.1 ∧ w.session.bucket = x.2 := by
  rw [visitLeft]
  cases hleft : remaining (w.session.log.drop since) (k, v) with
  | none => exact ⟨[], (List.append_nil _).symm, List.nil_sublist _, by simp⟩
  | some e =>
      have hkey : e.1 = k := key_of_remaining hleft
      refine ⟨[(e, w.session.bucket)], rfl, hkey ▸ .refl _, fun x => ?_⟩
      rw [List.mem_singleton, Option.some.injEq, eq_comm, Prod.ext_iff]

/-- Visited is what is left, on arrival, of the entries that are come to, in their order. -/
theorem exists_visited_visitAll (es : List (K × V)) (w : Traversal β K V S) :
    ∃ seen, (visitAll (visitLeft since (Program.visitBy visit)) es w).2.visited =
        w.visited ++ seen ∧ (seen.map (·.1.1)).Sublist (es.map (·.1)) ∧
      ∀ x, x ∈ seen ↔ ∃ e w', ComesTo (visitLeft since (Program.visitBy visit)) es w e w' ∧
        remaining (w'.session.log.drop since) e = some x.1 ∧ w'.session.bucket = x.2 := by
  induction es generalizing w with
  | nil =>
      refine ⟨[], (List.append_nil _).symm, .slnil, fun x => iff_of_false List.not_mem_nil ?_⟩
      rintro ⟨e, w', ⟨a, b, hnil, -⟩, -⟩
      simp at hnil
  | cons e es ih =>
      obtain ⟨now, hnow, hkey, hmem⟩ := visited_visitLeft visit since e.1 e.2 w
      simp only [comesTo_cons]
      rw [visitAll]
      split
      · rename_i hgo
        obtain ⟨seen, hseen, hkeys, hrest⟩ :=
          ih (visitLeft since (Program.visitBy visit) e.1 e.2 w).2
        refine ⟨now ++ seen, by rw [hseen, hnow, List.append_assoc], ?_, fun x => ?_⟩
        · rw [List.map_append]
          exact hkey.append hkeys
        · rw [List.mem_append, hmem, hrest]
          constructor
          · rintro (hx | ⟨e', w', hcomes, hx⟩)
            · exact ⟨e, w, Or.inl ⟨rfl, rfl⟩, hx⟩
            · exact ⟨e', w', Or.inr ⟨hgo, hcomes⟩, hx⟩
          · rintro ⟨e', w', ⟨rfl, rfl⟩ | ⟨-, hcomes⟩, hx⟩
            · exact Or.inl hx
            · exact Or.inr ⟨e', w', hcomes, hx⟩
      · rename_i hstop
        refine ⟨now, hnow, hkey.trans (List.sublist_append_left [e.1] _), fun x => ?_⟩
        rw [hmem]
        constructor
        · exact fun hx => ⟨e, w, Or.inl ⟨rfl, rfl⟩, hx⟩
        · rintro ⟨e', w', ⟨rfl, rfl⟩ | ⟨hgo, -⟩, hx⟩
          · exact hx
          · exact absurd hgo hstop

variable [QuietTraversal β K V]

theorem visitLeft_leads (k : K) (v : V) (w : Traversal β K V S) :
    w.session.Leads (visitLeft since (Program.visitBy visit) k v w).2.session := by
  rw [visitLeft]
  split
  · exact .refl _
  · exact Program.visitBy_leads visit _ _ w

end visited

end remaining

namespace PushList

variable {K V S : Type} [BEq K]

instance : QuietTraversal (PushList K V) K V where
  forEach_preserves := by
    intro ω P visit view hvisit w hw
    show P (visitFrom view visit (view w).head w).2
    generalize (view w).head = link
    fun_induction visitFrom view visit link w with
    | case1 w => exact hw
    | case2 w i hnone => exact hw
    | case3 w i node hnode hnext hr ih => exact ih hw
    | case4 w i node hnode hnext hr r hgo ih => exact ih (hvisit _ _ _ hw)
    | case5 w i node hnode hnext hr r hgo => exact hvisit _ _ _ hw

/-! ### The entry of a node through a run -/

theorem Linked.size_le_apply {l : PushList K V} (h : l.Linked) (op : Bucket.Op K V) :
    l.nodes.size ≤ (Bucket.apply l op).2.nodes.size := by
  cases op with
  | set k v => exact h.size_le_set k v
  | delete k => exact Nat.le_of_eq (h.size_delete k).symm
  | _ => exact Nat.le_refl _

variable [EquivBEq K]

namespace Sound

variable {l : PushList K V} (h : l.Sound)

include h

theorem apply (op : Bucket.Op K V) : (Bucket.apply l op).2.Sound :=
  let _ : Hashable K := ⟨fun _ => 0⟩
  have hl : LawfulBucket.Sound l := h
  LawfulBucket.sound_apply hl op

theorem entryAt_apply (op : Bucket.Op K V) {i : Nat} (hi : i < l.nodes.size) :
    (Bucket.apply l op).2.entryAt i = (l.entryAt i).bind op.onEntry := by
  cases op with
  | set k v =>
      show (l.set k v).2.entryAt i = _
      rw [h.entryAt_set k v hi]
      cases l.entryAt i <;> rfl
  | delete k =>
      show (l.delete k).2.entryAt i = _
      rw [h.entryAt_delete k]
      cases l.entryAt i with
      | none => rfl
      | some e => cases hk : e.1 == k <;> simp [Option.filter, Bucket.Op.onEntry, hk]
  | _ =>
      show l.entryAt i = (l.entryAt i).bind some
      rw [Option.bind_fun_some]

theorem run (ops : List (Bucket.Op K V)) : (Bucket.run l ops).2.Sound :=
  let _ : Hashable K := ⟨fun _ => 0⟩
  have hl : LawfulBucket.Sound l := h
  LawfulBucket.sound_run hl ops

theorem size_le_run (ops : List (Bucket.Op K V)) :
    l.nodes.size ≤ (Bucket.run l ops).2.nodes.size := by
  induction ops generalizing l with
  | nil => exact Nat.le_refl _
  | cons op ops ih => exact (h.size_le_apply op).trans (ih (h.apply op))

theorem entryAt_run (ops : List (Bucket.Op K V)) {i : Nat} (hi : i < l.nodes.size) :
    (Bucket.run l ops).2.entryAt i = (l.entryAt i).bind (remaining ops) := by
  induction ops generalizing l with
  | nil => cases he : l.entryAt i <;> exact he
  | cons op ops ih =>
      have hrun := ih (h.apply op) (hi.trans_le (h.size_le_apply op))
      rw [h.entryAt_apply op hi, Option.bind_assoc] at hrun
      exact hrun

end Sound

/-! ### Lists within a bucket -/

variable {β : Type} [Bucket β K V]

/-- The list `part` of a bucket from a session on: in every session that follows, it is the list in
which the operations since then have left of each node's entry what they leave of an entry. -/
structure Tracked (part : β → PushList K V) (s : Session β K V) : Prop where
  sound : ∀ {s'}, s.Leads s' → (part s'.bucket).Sound
  size_le : ∀ {s'}, s.Leads s' → (part s.bucket).nodes.size ≤ (part s'.bucket).nodes.size
  entryAt : ∀ {s'}, s.Leads s' → ∀ i < (part s.bucket).nodes.size, (part s'.bucket).entryAt i =
    ((part s.bucket).entryAt i).bind (remaining (s'.log.drop s.log.length))

variable {part : β → PushList K V} {s s' : Session β K V}

/-- A list is tracked if it takes some of the operations on the bucket, and the others leave its entries
as they are. -/
theorem tracked_of_takes (part : β → PushList K V) (h : (part s.bucket).Sound)
    (takes : Bucket.Op K V → Bool) (hrun : ∀ ops, part (Bucket.run s.bucket ops).2 =
      (Bucket.run (part s.bucket) (ops.filter takes)).2)
    (hleft : ∀ ops, ∀ e ∈ (part s.bucket).entries,
      remaining (ops.filter takes) e = remaining ops e) : Tracked part s where
  sound := by
    rintro s' ⟨ops, hbucket, -⟩
    rw [hbucket, hrun]
    exact h.run _
  size_le := by
    rintro s' ⟨ops, hbucket, -⟩
    rw [hbucket, hrun]
    exact h.size_le_run _
  entryAt := by
    rintro s' ⟨ops, hbucket, hlog⟩ i hi
    rw [hbucket, hrun, h.entryAt_run _ hi, hlog, List.drop_left]
    refine Option.bind_congr fun e he => hleft ops e ?_
    rw [h.entries_eq]
    exact mem_below.mpr ⟨i, hi, he⟩

omit [EquivBEq K] [Bucket β K V] in
/-- Entries of which nothing is left do not matter. -/
theorem visitAll_below {l : PushList K V} {since : Nat}
    (visit : K → V → Traversal β K V S → Bool × Traversal β K V S) {w : Traversal β K V S}
    {n link : Nat} (hle : link ≤ n) (hgone : ∀ i, link ≤ i → i < n →
      (l.entryAt i).bind (remaining (w.session.log.drop since)) = none) :
    visitAll (visitLeft since visit) (l.below n) w =
      visitAll (visitLeft since visit) (l.below link) w := by
  induction n with
  | zero => rw [Nat.le_zero.mp hle]
  | succ n ih =>
      rcases Nat.eq_or_lt_of_le hle with rfl | hlt
      · rfl
      · rw [← ih (by omega) fun i hi hin => hgone i hi (by omega), below]
        have hn := hgone n (by omega) (by omega)
        cases he : l.entryAt n with
        | none => rfl
        | some e =>
            rw [he, Option.bind_some] at hn
            simp [visitAll, visitLeft, hn]

namespace Tracked

variable (h : Tracked part s)

include h

omit [EquivBEq K] in
/-- What is left of an entry is an entry of the list. -/
theorem mem_of_remaining (hs : s.Leads s') {e e' : K × V} (he : e ∈ (part s.bucket).entries)
    (hleft : remaining (s'.log.drop s.log.length) e = some e') : e' ∈ (part s'.bucket).entries := by
  rw [(h.sound (.refl s)).entries_eq] at he
  obtain ⟨i, hi, hat⟩ := mem_below.mp he
  rw [(h.sound hs).entries_eq]
  refine mem_below.mpr ⟨i, hi.trans_le (h.size_le hs), ?_⟩
  rw [h.entryAt hs i hi, hat, Option.bind_some, hleft]

theorem get_of_remaining (hs : s.Leads s') {e e' : K × V} (he : e ∈ (part s.bucket).entries)
    (hleft : remaining (s'.log.drop s.log.length) e = some e') :
    (part s'.bucket).get e'.1 = some e'.2 :=
  (h.sound hs).get_of_mem (h.mem_of_remaining hs he hleft)

omit [EquivBEq K] in
/-- A traversal of the list visits what is left on arrival of the entries that are there at its
beginning, whatever the visitor does to the bucket in between.  What a link passes over is gone by then,
and stays so while the visitor is at work. -/
theorem visitFrom_eq_visitAll {visit : K → V → Traversal β K V S → Bool × Traversal β K V S}
    (hvisit : ∀ k v (w : Traversal β K V S), w.session.Leads (visit k v w).2.session) (link : Nat) :
    ∀ w : Traversal β K V S, link ≤ (part s.bucket).nodes.size → s.Leads w.session →
      visitFrom (fun w : Traversal β K V S => part w.session.bucket) visit link w =
        visitAll (visitLeft s.log.length visit) ((part s.bucket).below link) w := by
  induction link using Nat.strong_induction_on with
  | _ link ih =>
      intro w hle hw
      cases link with
      | zero => simp [visitFrom, below, visitAll]
      | succ i =>
          have hsize := h.size_le hw
          have hentry := h.entryAt hw
          obtain ⟨node, hnode, hnext, hskips⟩ :=
            (h.sound hw).exists_node (Nat.lt_of_lt_of_le hle hsize)
          have hgone : ∀ w' : Traversal β K V S, w.session.Leads w'.session →
              ∀ j, node.next ≤ j → j < i → ((part s.bucket).entryAt j).bind
                (remaining (w'.session.log.drop s.log.length)) = none := by
            intro w' hw' j hj hji
            have hnone := hskips j hj hji
            rw [hentry j (by omega)] at hnone
            exact hw'.gone hw.length_le hnone
          rw [visitFrom_succ (fun w : Traversal β K V S => part w.session.bucket) hnode]
          cases hr : node.removed with
          | true =>
              have hi := hentry i hle
              rw [entryAt_of_removed hnode hr] at hi
              rw [if_pos rfl, ih node.next (by omega) w (by omega) hw]
              refine (visitAll_below visit (by omega) fun j hj hji => ?_).symm
              rcases Nat.eq_or_lt_of_le (Nat.le_of_lt_succ hji) with rfl | hlt
              · exact hi.symm
              · exact hgone w (.refl _) j hj hlt
          | false =>
              have hi := hentry i hle
              rw [entryAt_of_not_removed hnode hr] at hi
              obtain ⟨e, he, hleft⟩ := Option.bind_eq_some_iff.mp hi.symm
              have hv := hvisit node.key node.value w
              have hrest := ih node.next (by omega) (visit node.key node.value w).2 (by omega)
                (hw.trans hv)
              have hbelow := visitAll_below visit hnext (hgone _ hv)
              rw [below, he]
              simp [visitAll, visitLeft, hleft, Node.entry, hrest, hbelow]

end Tracked

namespace Sound

variable {l : PushList K V} (h : l.Sound)

include h

theorem tracked_self : Tracked (fun l : PushList K V => l) ⟨l, []⟩ :=
  have hall : ∀ ops : List (Bucket.Op K V), ops.filter (fun _ => true) = ops :=
    fun _ => List.filter_eq_self.mpr fun _ _ => rfl
  tracked_of_takes (fun l => l) h (fun _ => true) (fun ops => by rw [hall])
    fun ops e _ => by rw [hall]

theorem visitFrom_eq_visitRemaining {visit : K → V → Traversal (PushList K V) K V S →
    Bool × Traversal (PushList K V) K V S}
    (hvisit : ∀ k v (w : Traversal (PushList K V) K V S),
      w.session.Leads (visit k v w).2.session) (link : Nat) (w : Traversal (PushList K V) K V S)
    (hle : link ≤ l.nodes.size) (hw : Session.Leads ⟨l, []⟩ w.session) :
    visitFrom (fun w : Traversal (PushList K V) K V S => w.session.bucket) visit link w =
      visitRemaining visit (l.below link) w := by
  rw [visitRemaining_eq_visitAll]
  exact h.tracked_self.visitFrom_eq_visitAll hvisit link w hle hw

/-- What a traversal sees: entries of the list, in their order, each with the value that is stored. -/
theorem visited_visitRemaining (visit : K → V → S → Program K V (Bool × S)) {es : List (K × V)}
    (hes : ∀ e ∈ es, e ∈ l.entries) {w : Traversal (PushList K V) K V S}
    (hw : Session.Leads ⟨l, []⟩ w.session) :
    ∃ seen, (visitRemaining (Program.visitBy visit) es w).2.visited = w.visited ++ seen ∧
      (seen.map (·.1.1)).Sublist (es.map (·.1)) ∧ ∀ x ∈ seen, x.2.get x.1.1 = some x.1.2 := by
  obtain ⟨seen, hseen, hkeys, hmem⟩ := exists_visited_visitAll visit 0 es w
  rw [← visitRemaining_eq_visitAll] at hseen
  refine ⟨seen, hseen, hkeys, fun x hx => ?_⟩
  obtain ⟨e, w', hcomes, hleft, hbucket⟩ := (hmem x).mp hx
  have hw' : Session.Leads ⟨l, []⟩ w'.session :=
    hcomes.preserves (P := fun w => Session.Leads ⟨l, []⟩ w.session)
      (fun k v w hw => hw.trans (visitLeft_leads visit 0 k v w)) hw
  rw [← hbucket]
  exact h.tracked_self.get_of_remaining hw' (hes e hcomes.mem) hleft

end Sound

/-- A traversal visits what is left on arrival of the entries that the list started with, whatever the
visitor does to the list in between.  The operations of the visitor are the only thing that changes the
list. -/
theorem traverse_eq_visitRemaining (ops : List (Bucket.Op K V))
    (visit : K → V → S → Program K V (Bool × S)) (start : S) :
    let l := (Bucket.run (empty : PushList K V) ops).2
    let r := Program.traverse visit start l
    r = visitRemaining (Program.visitBy visit) l.entries ⟨start, ⟨l, []⟩, []⟩ ∧
      r.2.visited.length ≤ l.entries.length ∧
      (r.2.visited.map (·.1.1)).Sublist (l.entries.map (·.1)) ∧
      Distinct (fun a b => a == b) (r.2.visited.map (·.1)) ∧
      (∀ x ∈ r.2.visited, x.2.get x.1.1 = some x.1.2) ∧
      r.2.session.bucket = (Bucket.run l r.2.session.log).2 := by
  intro l r
  have hl : l.Sound := sound_empty.run ops
  have hstart := Session.Leads.refl (Session.mk l ([] : List (Bucket.Op K V)))
  have heq : r = visitRemaining (Program.visitBy visit) l.entries ⟨start, ⟨l, []⟩, []⟩ := by
    rw [hl.entries_eq, hl.below_head]
    exact hl.visitFrom_eq_visitRemaining (Program.visitBy_leads visit) l.head _ l.head_le hstart
  obtain ⟨seen, hseen, hkeys, hget⟩ :=
    hl.visited_visitRemaining visit (fun _ he => he) (w := ⟨start, ⟨l, []⟩, []⟩) hstart
  rw [← heq, List.nil_append] at hseen
  rw [hseen]
  refine ⟨heq, ?_, hkeys, ?_, hget, (Program.traverse_leads visit start l).bucket_eq⟩
  · simpa using hkeys.length_le
  · refine hl.distinct.of_sublist_keys ?_
    rw [List.map_map]
    exact hkeys

/-- A visitor that leaves little as it was: it removes the entry that it is shown, removes the entry
that comes next and brings its key in again, and traverses the list to raise all values by one. -/
def upset (k _ seen : Nat) : Program Nat Nat (Bool × Nat) :=
  .call (.delete k) fun _ => .call (.delete (k - 1)) fun _ => .call (.set (k - 1) 0) fun _ =>
    .forEach () (fun k v _ => .call (.set k (v + 1)) fun _ => .done (true, ()))
      fun _ => .done (true, seen + 1)

/-- Of four entries two are left to visit, the second with a value that it did not have at first. -/
theorem traverse_upset :
    let ops : List (Bucket.Op Nat Nat) := [.set 1 10, .set 2 20, .set 3 30, .set 4 40]
    let l := (Bucket.run (empty : PushList Nat Nat) ops).2
    let r := Program.traverse upset 0 l
    EquivBEq Nat ∧ r.2.visited.map (·.1) = [(4, 40), (2, 21)] ∧
      r.2.session.bucket.entries = [(1, 1), (3, 2)] ∧
      r = visitRemaining (Program.visitBy upset) l.entries ⟨0, ⟨l, []⟩, []⟩ ∧
      r.2.visited.length ≤ l.entries.length ∧
      (r.2.visited.map (·.1.1)).Sublist (l.entries.map (·.1)) ∧
      Distinct (fun a b => a == b) (r.2.visited.map (·.1)) ∧
      (∀ x ∈ r.2.visited, x.2.get x.1.1 = some x.1.2) ∧
      r.2.session.bucket = (Bucket.run l r.2.session.log).2 := by
  intro ops l r
  refine ⟨inferInstance, ?_, ?_, traverse_eq_visitRemaining ops upset 0⟩
  · decide +kernel
  · decide +kernel

end PushList
end HashStore
