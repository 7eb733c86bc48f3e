import HashStore.Proofs.Bucket.Quiet
import HashStore.Proofs.Bucket.Striping

/-! # Traversals of stripes that change under them

A traversal of stripes goes through one stripe after another, and to each it comes at a moment of its
own.  What it visits there is what is left, on arrival, of the entries that it finds when it enters the
stripe.  So a key that comes in before that moment is visited like those that were there at first, and
one that comes in later is not, whichever stripe the visitor is in when it brings the key
(`Striped.Tour.Thorough`).

The lists of the stripes are parts of one bucket.  Operations on the bucket do to a stripe what those on
its own keys do to it (`Striped.stripe_run`), and the others leave its entries as they are, so every
stripe is tracked from the moment on at which it is entered (`PushList.Tracked`). -/

namespace HashStore

open Entries

/-! ### Moments of a session -/

section moments

variable {β K V : Type} [Bucket β K V]

/-- A bucket with operations carried out on it. -/
def Session.after (b : β) (ops : List (Bucket.Op K V)) : Session β K V := ⟨(Bucket.run b ops).2, ops⟩

theorem Session.after_leads_append (b : β) (ops ops' : List (Bucket.Op K V)) :
    (Session.after b ops).Leads (.after b (ops ++ ops')) :=
  ⟨ops', Bucket.run_append b ops ops', rfl⟩

theorem Session.after_take_leads (b : β) (log : List (Bucket.Op K V)) {p q : Nat} (h : p ≤ q) :
    (Session.after b (log.take p)).Leads (.after b (log.take q)) := by
  obtain ⟨d, rfl⟩ := Nat.exists_eq_add_of_le h
  rw [List.take_add]
  exact after_leads_append b _ _

/-- A session on the way to another is told by the number of its operations. -/
theorem Session.Leads.eq_after {b : β} {s s' : Session β K V} (hs : Session.Leads ⟨b, []⟩ s)
    (h : s.Leads s') : s = .after b (s'.log.take s.log.length) := by
  obtain ⟨ops, -, hlog⟩ := h
  rw [hlog, List.take_left]
  obtain ⟨bucket, log⟩ := s
  exact congrArg (Session.mk · log) hs.bucket_eq

end moments

section spares

variable {K V : Type} [BEq K]

/-- Operations that do not remove a key. -/
def Bucket.Spares (k : K) (ops : List (Bucket.Op K V)) : Prop :=
  ∀ k', .delete k' ∈ ops → (k' == k) = false

variable {k : K} {e : K × V}

theorem Bucket.Spares.mono {ops ops' : List (Bucket.Op K V)} (h : Spares k ops)
    (hsub : ops' ⊆ ops) : Spares k ops' := fun k' hk' => h k' (hsub hk')

/-- Something is left of an entry whose key is spared. -/
theorem remaining_of_spares [EquivBEq K] {ops : List (Bucket.Op K V)} (h : Bucket.Spares k ops)
    (he : (e.1 == k) = true) : ∃ v, remaining ops e = some (e.1, v) := by
  induction ops generalizing e with
  | nil => exact ⟨e.2, rfl⟩
  | cons op ops ih =>
      obtain ⟨e', he'⟩ : ∃ e', op.onEntry e = some e' := by
        cases op with
        | delete k' =>
            have hne := isSameness_beq.apart he (h k' (List.mem_cons_self ..))
            exact ⟨e, if_neg (Bool.eq_false_iff.mp hne)⟩
        | _ => exact ⟨_, rfl⟩
      have hkey := key_of_onEntry he'
      rw [← hkey] at he ⊢
      rw [remaining, List.foldlM_cons, he']
      exact ih (h.mono (List.subset_cons_self ..)) he

theorem onEntry_of_not_concerns {p : K → Bool} (hp : ∀ a b, (a == b) = true → p a = p b)
    (he : p e.1 = true) {op : Bucket.Op K V} (hop : op.concerns p = false) :
    op.onEntry e = some e := by
  have hne : ∀ {k}, p k = false → (e.1 == k) = false := fun hk =>
    Bool.eq_false_iff.mpr fun hek => by rw [← hp _ _ hek, he] at hk; cases hk
  cases op with
  | set k v => exact congrArg some (if_neg (Bool.eq_false_iff.mp (hne hop)))
  | delete k => exact if_neg (Bool.eq_false_iff.mp (hne hop))
  | _ => rfl

/-- Operations on keys that are not selected leave an entry whose key is as it is. -/
theorem remaining_filter {p : K → Bool} (hp : ∀ a b, (a == b) = true → p a = p b)
    (he : p e.1 = true) (ops : List (Bucket.Op K V)) :
    remaining (ops.filter fun op => op.concerns p) e = remaining ops e := by
  induction ops generalizing e with
  | nil => rfl
  | cons op ops ih =>
      rw [List.filter_cons]
      split
      · rw [remaining, remaining, List.foldlM_cons, List.foldlM_cons]
        refine Option.bind_congr fun e' he' => ih ?_
        rw [key_of_onEntry he', he]
      · rename_i hop
        rw [ih he]
        conv_rhs => rw [remaining, List.foldlM_cons,
          onEntry_of_not_concerns hp he (Bool.eq_false_iff.mpr hop)]
        rfl

end spares

namespace Striped

variable {bits : Nat} {K V S : Type}

/-! ### Stripes of a bucket in use -/

section stripes

variable {β : Type} [Bucket β K V]

theorem visitStripes_append {ω : Type} (view : ω → Striped bits β) (visit : K → V → ω → Bool × ω)
    (is js : List (Fin (powerOfTwo bits))) (w : ω) :
    visitStripes view visit (is ++ js) w =
      if (visitStripes view visit is w).1
      then visitStripes view visit js (visitStripes view visit is w).2
      else visitStripes view visit is w := by
  induction is generalizing w with
  | nil => rfl
  | cons i is ih =>
      rw [List.cons_append, visitStripes, visitStripes]
      split
      · exact ih _
      · rfl

theorem visitStripes_singleton {ω : Type} (view : ω → Striped bits β)
    (visit : K → V → ω → Bool × ω) (i : Fin (powerOfTwo bits)) (w : ω) :
    visitStripes view visit [i] w = Bucket.forEach (fun w => (view w).stripe i) visit w := by
  rw [visitStripes]
  split
  · rename_i hgo
    exact Prod.ext hgo.symm rfl
  · rfl

/-- Operations on stripes do to each what those on its keys do to it. -/
theorem stripe_run [Hashable K] (s : Striped bits β) (ops : List (Bucket.Op K V))
    (i : Fin (powerOfTwo bits)) :
    (Bucket.run s ops).2.stripe i =
      (Bucket.run (s.stripe i) (ops.filter fun op => op.concerns fun k => slot bits k = i)).2 := by
  induction ops generalizing s with
  | nil => rfl
  | cons op ops ih =>
      rw [List.filter_cons]
      refine (ih _).trans ?_
      rw [stripe_apply]
      split <;> rfl

end stripes

variable [BEq K] [Hashable K]

section lists

variable [EquivBEq K] {s : Striped bits (PushList K V)} {k : K}

theorem Sound.slot_of_mem (h : s.Sound) {i : Fin (powerOfTwo bits)} {e : K × V}
    (he : e ∈ (s.stripe i).entries) : slot bits e.1 = i := by
  refine h.placed i e ?_
  rwa [PushList.bucket_entries]

theorem Sound.contains_iff (h : s.Sound) {i : Fin (powerOfTwo bits)} (hi : slot bits k = i) :
    Bucket.contains s k = true ↔ ∃ e ∈ (s.stripe i).entries, (e.1 == k) = true := by
  have hstripe : (s.stripe i).Sound := h.stripe i
  show (s.stripe (slot bits k)).contains k = true ↔ _
  rw [hi, hstripe.contains_eq_has, has, List.any_eq_true]

variable [LawfulHashable K]

/-- Every stripe is tracked from every moment on. -/
theorem Sound.tracked {s : Session (Striped bits (PushList K V)) K V} (h : s.bucket.Sound)
    (i : Fin (powerOfTwo bits)) :
    PushList.Tracked (fun b : Striped bits (PushList K V) => b.stripe i) s := by
  refine PushList.tracked_of_takes (fun b : Striped bits (PushList K V) => b.stripe i) (h.stripe i)
    (fun op => op.concerns fun k => slot bits k = i) (fun ops => stripe_run _ ops i)
    fun ops e he => remaining_filter (fun a b hab => by rw [slot_congr hab]) ?_ ops
  exact decide_eq_true (h.slot_of_mem he)

end lists

/-! ### Tours -/

/-- A traversal of stripes of lists: the visitor, its state at first and what is traversed. -/
structure Tour (bits : Nat) (K V S : Type) where
  visit : K → V → S → Program K V (Bool × S)
  start : S
  list : Striped bits (PushList K V)

namespace Tour

/-- How far a traversal of stripes of lists has come. -/
abbrev State (bits : Nat) (K V S : Type) := Traversal (Striped bits (PushList K V)) K V S

variable (T : Tour bits K V S)

/-- How the traversal ends. -/
def result : Bool × State bits K V S := Program.traverse T.visit T.start T.list

/-- What the visitor has done to the stripes in the end. -/
def log : List (Bucket.Op K V) := T.result.2.session.log

/-- The stripes after some of the operations of the visitor. -/
def moment (p : Nat) : Session (Striped bits (PushList K V)) K V := .after T.list (T.log.take p)

/-- The operations of the visitor between two moments. -/
def between (p q : Nat) : List (Bucket.Op K V) := (T.log.take q).drop p

/-- How the traversal comes to a stripe, and whether it goes on there. -/
def cameTo (n : Nat) : Bool × State bits K V S :=
  visitStripes (fun w => w.session.bucket) (Program.visitBy T.visit) ((List.finRange _).take n)
    ⟨T.start, ⟨T.list, []⟩, []⟩

/-- The number of operations that have been carried out when the traversal enters a stripe. -/
def enteredAt (n : Nat) : Nat := (T.cameTo n).2.session.log.length

/-- The entries that the traversal finds in a stripe. -/
def found (i : Fin (powerOfTwo bits)) : List (K × V) :=
  ((T.cameTo i).2.session.bucket.stripe i).entries

/-- Visits what is left of an entry that was found in a stripe. -/
def visitFound (i : Fin (powerOfTwo bits)) (k : K) (v : V) (w : State bits K V S) :
    Bool × State bits K V S :=
  visitLeft (T.enteredAt i) (Program.visitBy T.visit) k v w

/-- The traversal arrives at an entry that it has found in the stripe of its key. -/
def ArrivesAt (e : K × V) (w : State bits K V S) : Prop :=
  (T.cameTo (slot bits e.1)).1 = true ∧
    ComesTo (T.visitFound (slot bits e.1)) (T.found (slot bits e.1)) (T.cameTo (slot bits e.1)).2 e w

/-- The traversal visits an entry: what is left of one that it arrives at. -/
def Visits (e : K × V) (w : State bits K V S) : Prop :=
  ∃ e₀, T.ArrivesAt e₀ w ∧
    remaining (w.session.log.drop (T.enteredAt (slot bits e₀.1))) e₀ = some e

/-! ### The way through the stripes -/

theorem cameTo_add (m d : Nat) : T.cameTo (m + d) =
    if (T.cameTo m).1 then
      visitStripes (fun w => w.session.bucket) (Program.visitBy T.visit)
        (((List.finRange _).drop m).take d) (T.cameTo m).2
    else T.cameTo m := by
  unfold cameTo
  rw [List.take_add, visitStripes_append]

theorem cameTo_all : T.cameTo (powerOfTwo bits) = T.result := by
  unfold cameTo
  rw [List.take_of_length_le (Nat.le_of_eq List.length_finRange)]
  rfl

theorem cameTo_succ (i : Fin (powerOfTwo bits)) : T.cameTo (i + 1) =
    if (T.cameTo i).1 then
      Bucket.forEach (fun w => w.session.bucket.stripe i) (Program.visitBy T.visit) (T.cameTo i).2
    else T.cameTo i := by
  have hone : ((List.finRange (powerOfTwo bits)).drop i).take 1 = [i] := by
    rw [List.drop_eq_getElem_cons (by simp), List.take_succ_cons, List.take_zero]
    simp
  rw [cameTo_add, hone, visitStripes_singleton]

theorem leads_cameTo {m n : Nat} (h : m ≤ n) :
    (T.cameTo m).2.session.Leads (T.cameTo n).2.session := by
  obtain ⟨d, rfl⟩ := Nat.exists_eq_add_of_le h
  rw [cameTo_add]
  split
  · exact visitStripes_preserves (P := fun w => (T.cameTo m).2.session.Leads w.session)
      (fun w : State bits K V S => w.session.bucket)
      (fun k v w hw => hw.trans (Program.visitBy_leads T.visit k v w)) _ _ (.refl _)
  · exact .refl _

theorem start_leads (n : Nat) : Session.Leads ⟨T.list, []⟩ (T.cameTo n).2.session :=
  T.leads_cameTo (Nat.zero_le n)

theorem leads_result {n : Nat} (hn : n ≤ powerOfTwo bits) :
    (T.cameTo n).2.session.Leads T.result.2.session := by
  have hall := T.leads_cameTo hn
  rwa [cameTo_all] at hall

theorem cameTo_of_stop {n : Nat} (hn : n ≤ powerOfTwo bits) (hstop : (T.cameTo n).1 = false) :
    T.result = T.cameTo n := by
  obtain ⟨d, hd⟩ := Nat.exists_eq_add_of_le hn
  rw [← cameTo_all, hd, cameTo_add, hstop]
  exact if_neg Bool.false_ne_true

theorem going (hall : T.result.1 = true) {n : Nat} (hn : n ≤ powerOfTwo bits) :
    (T.cameTo n).1 = true := by
  by_contra hstop
  have hend := T.cameTo_of_stop hn (Bool.eq_false_iff.mpr hstop)
  exact hstop (hend ▸ hall)

/-! ### Moments of the traversal -/

theorem moment_leads {p q : Nat} (h : p ≤ q) : (T.moment p).Leads (T.moment q) :=
  Session.after_take_leads T.list T.log h

theorem start_leads_moment (p : Nat) : Session.Leads ⟨T.list, []⟩ (T.moment p) :=
  T.moment_leads (Nat.zero_le p)

variable {T} in
theorem moment_eq {s : Session (Striped bits (PushList K V)) K V}
    (hs : Session.Leads ⟨T.list, []⟩ s) (h : s.Leads T.result.2.session) :
    s = T.moment s.log.length := hs.eq_after h

theorem cameTo_eq_moment (i : Fin (powerOfTwo bits)) :
    (T.cameTo i).2.session = T.moment (T.enteredAt i) :=
  moment_eq (T.start_leads i) (T.leads_result (Nat.le_of_lt i.isLt))

theorem enteredAt_le (i : Fin (powerOfTwo bits)) : T.enteredAt i ≤ T.log.length :=
  (T.leads_result (Nat.le_of_lt i.isLt)).length_le

theorem length_moment {p : Nat} (h : p ≤ T.log.length) : (T.moment p).log.length = p :=
  List.length_take_of_le h

/-! ### What happens in a stripe -/

variable {T} {e : K × V} {w : State bits K V S} {i : Fin (powerOfTwo bits)} {k : K}

theorem visitFound_leads (i : Fin (powerOfTwo bits)) (k : K) (v : V) (w : State bits K V S) :
    w.session.Leads (T.visitFound i k v w).2.session := visitLeft_leads T.visit _ k v w

theorem ArrivesAt.leads (h : T.ArrivesAt e w) :
    (T.cameTo (slot bits e.1)).2.session.Leads w.session :=
  h.2.preserves (P := fun w => (T.cameTo (slot bits e.1)).2.session.Leads w.session)
    (fun k v w hw => hw.trans (visitFound_leads _ k v w)) (.refl _)

theorem Visits.start_leads (h : T.Visits e w) : Session.Leads ⟨T.list, []⟩ w.session := by
  obtain ⟨e₀, harrive, -⟩ := h
  exact (T.start_leads _).trans harrive.leads

theorem visitFound_of_remaining {e₀ : K × V}
    (hleft : remaining (w.session.log.drop (T.enteredAt i)) e₀ = some e) :
    T.visitFound i e₀.1 e₀.2 w = Program.visitBy T.visit e.1 e.2 w := by
  rw [visitFound, visitLeft, hleft]

variable [EquivBEq K]

/-- The list at any moment is sound. -/
theorem sound_of_leads (hT : T.list.Sound) {s : Session (Striped bits (PushList K V)) K V}
    (hs : Session.Leads ⟨T.list, []⟩ s) : s.bucket.Sound := by
  rw [hs.bucket_eq]
  exact LawfulBucket.sound_run (b := T.list) hT s.log

theorem sound_stripe (hT : T.list.Sound) (i : Fin (powerOfTwo bits)) :
    ((T.cameTo i).2.session.bucket.stripe i).Sound :=
  (sound_of_leads hT (T.start_leads i)).stripe i

theorem slot_of_found (hT : T.list.Sound) (he : e ∈ T.found i) : slot bits e.1 = i :=
  (sound_of_leads hT (T.start_leads i)).slot_of_mem he

variable [LawfulHashable K] (hT : T.list.Sound)

include hT

theorem tracked (i : Fin (powerOfTwo bits)) {s : Session (Striped bits (PushList K V)) K V}
    (hs : Session.Leads ⟨T.list, []⟩ s) :
    PushList.Tracked (fun b : Striped bits (PushList K V) => b.stripe i) s :=
  (sound_of_leads hT hs).tracked i

/-- Where the traversal goes on, it visits what is left of the entries that it finds in the stripe. -/
theorem cameTo_through (i : Fin (powerOfTwo bits)) : T.cameTo (i + 1) =
    if (T.cameTo i).1 then visitAll (T.visitFound i) (T.found i) (T.cameTo i).2
    else T.cameTo i := by
  have hstripe := sound_stripe hT i
  have hvisit := (tracked hT i (T.start_leads i)).visitFrom_eq_visitAll
    (Program.visitBy_leads T.visit) ((T.cameTo i).2.session.bucket.stripe i).head (T.cameTo i).2
    (PushList.head_le _) (.refl _)
  rw [← hstripe.below_head, ← hstripe.entries_eq] at hvisit
  rw [cameTo_succ]
  split
  · exact hvisit
  · rfl

theorem leads_of_comesTo (hgo : (T.cameTo i).1 = true)
    (hcomes : ComesTo (T.visitFound i) (T.found i) (T.cameTo i).2 e w) :
    w.session.Leads (T.cameTo (i + 1)).2.session := by
  obtain ⟨rest, hrest⟩ := hcomes.visitAll_eq
  rw [cameTo_through hT, if_pos hgo, hrest]
  exact visitAll_preserves (P := fun w' : State bits K V S => w.session.Leads w'.session)
    (fun k v w' hw => hw.trans (visitFound_leads _ k v w')) _ w (.refl _)

theorem ArrivesAt.leads_result (h : T.ArrivesAt e w) : w.session.Leads T.result.2.session :=
  (leads_of_comesTo hT h.1 h.2).trans (T.leads_result (Fin.is_lt _))

omit [LawfulHashable K] in
theorem visits_iff : T.Visits e w ∧ slot bits e.1 = i ↔ (T.cameTo i).1 = true ∧
    ∃ e₀, ComesTo (T.visitFound i) (T.found i) (T.cameTo i).2 e₀ w ∧
      remaining (w.session.log.drop (T.enteredAt i)) e₀ = some e := by
  constructor
  · rintro ⟨⟨e₀, ⟨hgo, hcomes⟩, hleft⟩, hi⟩
    have hi₀ : slot bits e₀.1 = i := by rw [← key_of_remaining hleft, hi]
    subst hi₀
    exact ⟨hgo, e₀, hcomes, hleft⟩
  · rintro ⟨hgo, e₀, hcomes, hleft⟩
    have hi₀ := slot_of_found hT hcomes.mem
    subst hi₀
    exact ⟨⟨e₀, ⟨hgo, hcomes⟩, hleft⟩, by rw [key_of_remaining hleft]⟩

/-! ### What is visited -/

/-- What the traversal visits in a stripe. -/
theorem exists_visited (i : Fin (powerOfTwo bits)) :
    ∃ seen, (T.cameTo (i + 1)).2.visited = (T.cameTo i).2.visited ++ seen ∧
      (seen.map (·.1.1)).Sublist ((T.found i).map (·.1)) ∧
      ∀ x, x ∈ seen ↔ ∃ w, (T.Visits x.1 w ∧ slot bits x.1.1 = i) ∧ w.session.bucket = x.2 := by
  simp only [visits_iff hT]
  rw [cameTo_through hT]
  split
  · rename_i hgo
    obtain ⟨seen, hseen, hkeys, hmem⟩ :=
      exists_visited_visitAll T.visit (T.enteredAt i) (T.found i) (T.cameTo i).2
    refine ⟨seen, hseen, hkeys, fun x => (hmem x).trans ?_⟩
    constructor
    · rintro ⟨e, w, hcomes, hleft, hbucket⟩
      exact ⟨w, ⟨hgo, e, hcomes, hleft⟩, hbucket⟩
    · rintro ⟨w, ⟨-, e, hcomes, hleft⟩, hbucket⟩
      exact ⟨e, w, hcomes, hleft, hbucket⟩
  · rename_i hstop
    refine ⟨[], (List.append_nil _).symm, List.nil_sublist _, fun x => ?_⟩
    refine iff_of_false List.not_mem_nil ?_
    rintro ⟨w, ⟨hgo, -⟩, -⟩
    exact hstop hgo

/-- What the traversal has visited on its way to a stripe. -/
theorem visited_cameTo {n : Nat} (hn : n ≤ powerOfTwo bits) :
    ((T.cameTo n).2.visited.map (·.1.1)).Sublist
        (((List.finRange _).take n).flatMap fun i => (T.found i).map (·.1)) ∧
      ∀ x, x ∈ (T.cameTo n).2.visited ↔
        ∃ w, (T.Visits x.1 w ∧ (slot bits x.1.1).val < n) ∧ w.session.bucket = x.2 := by
  induction n with
  | zero =>
      refine ⟨List.nil_sublist _, fun x => iff_of_false List.not_mem_nil ?_⟩
      rintro ⟨w, ⟨-, hlt⟩, -⟩
      exact Nat.not_lt_zero _ hlt
  | succ n ih =>
      obtain ⟨hkeys, hmem⟩ := ih (Nat.le_of_succ_le hn)
      obtain ⟨seen, hseen, hnew, hin⟩ := exists_visited hT ⟨n, hn⟩
      rw [hseen]
      constructor
      · have hlast : n < (List.finRange (powerOfTwo bits)).length := by
          rw [List.length_finRange]
          exact hn
        rw [List.map_append, ← List.take_append_getElem hlast, List.flatMap_append,
          List.getElem_finRange, List.flatMap_singleton]
        exact hkeys.append hnew
      · intro x
        rw [List.mem_append, hmem, hin]
        constructor
        · rintro (⟨w, ⟨hx, hlt⟩, hbucket⟩ | ⟨w, ⟨hx, hi⟩, hbucket⟩)
          · exact ⟨w, ⟨hx, Nat.lt_succ_of_lt hlt⟩, hbucket⟩
          · exact ⟨w, ⟨hx, hi ▸ Nat.lt_succ_self n⟩, hbucket⟩
        · rintro ⟨w, ⟨hx, hlt⟩, hbucket⟩
          rcases Nat.eq_or_lt_of_le (Nat.le_of_lt_succ hlt) with heq | hlt
          · exact Or.inr ⟨w, ⟨hx, Fin.ext heq⟩, hbucket⟩
          · exact Or.inl ⟨w, ⟨hx, hlt⟩, hbucket⟩

theorem mem_visited_iff (x : (K × V) × Striped bits (PushList K V)) :
    x ∈ T.result.2.visited ↔ ∃ w, T.Visits x.1 w ∧ w.session.bucket = x.2 := by
  have hmem := (visited_cameTo hT (Nat.le_refl _)).2 x
  rw [cameTo_all] at hmem
  simpa only [Fin.is_lt, and_true] using hmem

theorem keys_visited : (T.result.2.visited.map (·.1.1)).Sublist
    (((List.finRange _).flatMap T.found).map (·.1)) := by
  have hkeys := (visited_cameTo hT (Nat.le_refl _)).1
  rw [cameTo_all, List.take_of_length_le (Nat.le_of_eq List.length_finRange)] at hkeys
  rwa [List.map_flatMap]

/-- The entries that are found in all the stripes have keys that differ. -/
theorem distinct_found : Distinct (fun a b => a == b) ((List.finRange _).flatMap T.found) := by
  have hd : ∀ i ∈ List.finRange (powerOfTwo bits), Distinct (meets onlyPlace) (T.found i) := by
    intro i _
    rw [meets_eq_beq]
    exact (sound_stripe hT i).distinct
  have hall := distinct_flatMap (stripeIndex bits) hd fun j hj e he => ?_
  · rwa [meets_eq_beq] at hall
  · have hslot := slot_of_found hT he
    rw [List.getElem_finRange] at hslot
    exact congrArg Fin.val hslot

/-- What is visited is the present entry of its key. -/
theorem Visits.get_eq (h : T.Visits e w) : Bucket.get w.session.bucket e.1 = some e.2 := by
  obtain ⟨e₀, harrive, hleft⟩ := h
  have hkey := key_of_remaining hleft
  have hget := (tracked hT _ (T.start_leads _)).get_of_remaining harrive.leads harrive.2.mem hleft
  show (w.session.bucket.stripe (slot bits e.1)).get e.1 = some e.2
  rw [hkey] at hget ⊢
  exact hget

/-! ### Keys that come and go -/

theorem exists_arrivesAt (hall : T.result.1 = true) (he : e ∈ T.found i) : ∃ w, T.ArrivesAt e w := by
  have hthrough := cameTo_through hT i
  rw [if_pos (T.going hall (Nat.le_of_lt i.isLt))] at hthrough
  obtain ⟨w, hcomes⟩ := exists_comesTo (hthrough ▸ T.going hall i.isLt) he
  have hi := slot_of_found hT he
  subst hi
  exact ⟨w, T.going hall (Nat.le_of_lt (Fin.is_lt _)), hcomes⟩

/-- A key that is there at a moment and spared from then on is found in its stripe. -/
theorem exists_found (hi : slot bits k = i) {s : Session (Striped bits (PushList K V)) K V}
    (hs : Session.Leads ⟨T.list, []⟩ s) (hto : s.Leads (T.cameTo i).2.session)
    (hk : Bucket.contains s.bucket k = true)
    (hspares : Bucket.Spares k ((T.cameTo i).2.session.log.drop s.log.length)) :
    ∃ e ∈ T.found i, (e.1 == k) = true := by
  obtain ⟨e, he, hek⟩ := ((sound_of_leads hT hs).contains_iff hi).mp hk
  obtain ⟨v, hleft⟩ := remaining_of_spares hspares hek
  exact ⟨(e.1, v), (tracked hT i hs).mem_of_remaining hto he hleft, hek⟩

theorem Visits.leads_result (h : T.Visits e w) : w.session.Leads T.result.2.session := by
  obtain ⟨e₀, harrive, -⟩ := h
  exact harrive.leads_result hT

/-- A key that has once been missing since its stripe was entered is not visited from then on: of an
entry that was gone nothing is left later. -/
theorem Visits.length_lt (h : T.Visits e w) (hi : slot bits k = i) (hek : (e.1 == k) = true)
    {p : Nat} (hp : T.enteredAt i ≤ p)
    (hmissing : Bucket.contains (T.moment p).bucket k = false) : w.session.log.length < p := by
  by_contra hle
  have hsession := moment_eq h.start_leads (h.leads_result hT)
  obtain ⟨-, e₀, hcomes, hleft⟩ := (visits_iff hT).mp ⟨h, (slot_congr hek).trans hi⟩
  have hbefore : (T.cameTo i).2.session.Leads (T.moment p) := by
    rw [cameTo_eq_moment]
    exact T.moment_leads hp
  have hlater : (T.moment p).Leads w.session := by
    rw [hsession]
    exact T.moment_leads (Nat.le_of_not_lt hle)
  cases hthen : remaining ((T.moment p).log.drop (T.enteredAt i)) e₀ with
  | none =>
      have hnone : (some e₀).bind (remaining ((T.moment p).log.drop (T.enteredAt i))) = none := hthen
      exact Option.some_ne_none e (hleft.symm.trans (hlater.gone hbefore.length_le hnone))
  | some e' =>
      have hin := (tracked hT i (T.start_leads i)).mem_of_remaining hbefore hcomes.mem hthen
      have hek' : (e'.1 == k) = true := by
        rw [key_of_remaining hthen, ← key_of_remaining hleft, hek]
      have hsound := sound_of_leads hT (T.start_leads_moment p)
      have hthere := (hsound.contains_iff hi).mpr ⟨e', hin, hek'⟩
      rw [hmissing] at hthere
      cases hthere

theorem result_of_stop (hgo : (T.cameTo i).1 = true) {e₀ : K × V}
    (hcomes : ComesTo (T.visitFound i) (T.found i) (T.cameTo i).2 e₀ w)
    (hleft : remaining (w.session.log.drop (T.enteredAt i)) e₀ = some e)
    (hstop : (Program.visitBy T.visit e.1 e.2 w).1 = false) :
    T.result = Program.visitBy T.visit e.1 e.2 w := by
  rw [← visitFound_of_remaining hleft] at hstop ⊢
  have hthrough := cameTo_through hT i
  rw [if_pos hgo, hcomes.visitAll_of_stop hstop] at hthrough
  rw [← hthrough] at hstop ⊢
  exact T.cameTo_of_stop i.isLt hstop

theorem result_of_go (hgo : ∀ e w, T.Visits e w → (Program.visitBy T.visit e.1 e.2 w).1 = true) :
    T.result.1 = true := by
  have hall : ∀ n ≤ powerOfTwo bits, (T.cameTo n).1 = true := by
    intro n hn
    induction n with
    | zero => rfl
    | succ n ih =>
        have hbefore := ih (Nat.le_of_succ_le hn)
        refine (congrArg Prod.fst (cameTo_through hT ⟨n, hn⟩)).trans ?_
        rw [if_pos hbefore]
        refine visitAll_fst_of_comesTo fun e w hcomes => ?_
        rw [visitFound, visitLeft]
        split
        · rfl
        · rename_i e' hleft
          exact hgo e' w ((visits_iff hT (i := ⟨n, hn⟩)).mpr ⟨hbefore, e, hcomes, hleft⟩).1
  rw [← cameTo_all]
  exact hall _ (Nat.le_refl _)

omit [LawfulHashable K] in
theorem contains_moment_succ {p : Nat} {v : V} (hset : T.log[p]? = some (.set k v)) :
    Bucket.contains (T.moment (p + 1)).bucket k = true := by
  have hsound : LawfulBucket.Sound (T.moment p).bucket := sound_of_leads hT (T.start_leads_moment p)
  have hbucket : (T.moment (p + 1)).bucket = (Bucket.set (T.moment p).bucket k v).2 := by
    show (Bucket.run T.list (T.log.take (p + 1))).2 = _
    rw [List.take_add_one, hset, Bucket.run_append]
    rfl
  rw [hbucket]
  exact LawfulBucket.contains_set k v hsound

omit [LawfulHashable K] hT in
theorem ArrivesAt.visits_of_spares (h : T.ArrivesAt e w) (hek : (e.1 == k) = true)
    (hspares : Bucket.Spares k (w.session.log.drop (T.enteredAt (slot bits e.1)))) :
    ∃ v, T.Visits (e.1, v) w := by
  obtain ⟨v, hleft⟩ := remaining_of_spares hspares hek
  exact ⟨v, e, h, hleft⟩

end Tour

/-! ### What traversals do, whatever the visitor does -/

/-- What a traversal of stripes of lists does while its visitor is at work on them. -/
structure Tour.Thorough (T : Tour bits K V S) : Prop where
  /-- It visits what is left of the entries that it finds in one stripe after another. -/
  through : ∀ i : Fin (powerOfTwo bits), T.cameTo (i + 1) =
    if (T.cameTo i).1 then visitAll (T.visitFound i) (T.found i) (T.cameTo i).2 else T.cameTo i
  result_eq : T.result = T.cameTo (powerOfTwo bits)
  /-- Nothing but what the visitor does changes the stripes. -/
  session_eq : T.result.2.session = T.moment T.log.length
  entered_eq : ∀ i : Fin (powerOfTwo bits), (T.cameTo i).2.session = T.moment (T.enteredAt i)
  visits_eq : ∀ {e w}, T.Visits e w → w.session = T.moment w.session.log.length
  mem_visited_iff : ∀ x, x ∈ T.result.2.visited ↔ ∃ w, T.Visits x.1 w ∧ w.session.bucket = x.2
  /-- There are no more visits than entries that are found, and they come in the order of those. -/
  sublist : (T.result.2.visited.map (·.1.1)).Sublist
    (((List.finRange _).flatMap T.found).map (·.1))
  /-- No key is visited twice. -/
  distinct : Distinct (fun a b => a == b) (T.result.2.visited.map (·.1))
  /-- A visit shows the value that is stored on arrival. -/
  current : ∀ x ∈ T.result.2.visited, Bucket.get x.2 x.1.1 = some x.1.2
  /-- If no visit answers `false`, the traversal reaches the end. -/
  ends : (∀ e w, T.Visits e w → (Program.visitBy T.visit e.1 e.2 w).1 = true) → T.result.1 = true
  /-- A visit that answers `false` is the last. -/
  last : ∀ {e w}, T.Visits e w → (Program.visitBy T.visit e.1 e.2 w).1 = false →
    T.result = Program.visitBy T.visit e.1 e.2 w ∧
      T.result.2.visited.getLast? = some (e, w.session.bucket)
  /-- A key that is there at first and is not removed is visited. -/
  kept : ∀ {k}, T.result.1 = true → Bucket.contains T.list k = true → Bucket.Spares k T.log →
    ∃ x ∈ T.result.2.visited, (x.1.1 == k) = true
  /-- The traversal arrives at a key that comes in before its stripe is entered, unless it is removed
  again before that, and visits it if it has not been removed on arrival. -/
  brought : ∀ {k v p}, T.result.1 = true → T.log[p]? = some (.set k v) →
    p < T.enteredAt (slot bits k) →
    Bucket.Spares k (T.between (p + 1) (T.enteredAt (slot bits k))) →
    ∃ e w, (e.1 == k) = true ∧ T.ArrivesAt e w ∧
      (Bucket.Spares k (T.between (T.enteredAt (slot bits k)) w.session.log.length) →
        ∃ v', ((e.1, v'), w.session.bucket) ∈ T.result.2.visited)
  /-- A key that is missing at some moment after its stripe has been entered is not visited from then
  on, so not if it comes in later. -/
  late : ∀ {k p}, T.enteredAt (slot bits k) ≤ p → Bucket.contains (T.moment p).bucket k = false →
    ∀ {e w}, T.Visits e w → (e.1 == k) = true → w.session.log.length < p

variable [EquivBEq K] [LawfulHashable K]

theorem Tour.thorough {T : Tour bits K V S} (hT : T.list.Sound) : T.Thorough where
  through := cameTo_through hT
  result_eq := T.cameTo_all.symm
  session_eq := moment_eq (Program.traverse_leads T.visit T.start T.list) (.refl _)
  entered_eq := T.cameTo_eq_moment
  visits_eq h := moment_eq h.start_leads (h.leads_result hT)
  mem_visited_iff := mem_visited_iff hT
  sublist := keys_visited hT
  distinct := by
    refine (distinct_found hT).of_sublist_keys ?_
    rw [List.map_map]
    exact keys_visited hT
  current x hx := by
    obtain ⟨w, hvisits, hbucket⟩ := (mem_visited_iff hT x).mp hx
    rw [← hbucket]
    exact hvisits.get_eq hT
  ends := result_of_go hT
  last {e w} h hstop := by
    obtain ⟨e₀, ⟨hgo, hcomes⟩, hleft⟩ := h
    have hresult := result_of_stop hT hgo hcomes hleft hstop
    refine ⟨hresult, ?_⟩
    rw [hresult]
    exact List.getLast?_concat
  kept {k} hall hk hspares := by
    have hspared : ∀ {s : Session (Striped bits (PushList K V)) K V},
        s.Leads T.result.2.session → ∀ p, Bucket.Spares k (s.log.drop p) := fun hs p =>
      hspares.mono (List.Subset.trans (List.drop_subset p _) hs.log_subset)
    obtain ⟨e, he, hek⟩ := exists_found hT rfl (.refl ⟨T.list, []⟩) (T.start_leads _) hk
      (hspared (T.leads_result (Nat.le_of_lt (Fin.is_lt _))) 0)
    obtain ⟨w, harrive⟩ := exists_arrivesAt hT hall he
    obtain ⟨v, hvisits⟩ := harrive.visits_of_spares hek (hspared (harrive.leads_result hT) _)
    exact ⟨((e.1, v), w.session.bucket), (mem_visited_iff hT _).mpr ⟨w, hvisits, rfl⟩, hek⟩
  brought {k v p} hall hset hp hspares := by
    generalize hi : slot bits k = i at hp hspares ⊢
    have hto : (T.moment (p + 1)).Leads (T.cameTo i).2.session := by
      rw [cameTo_eq_moment]
      exact T.moment_leads hp
    have hspared : Bucket.Spares k ((T.cameTo i).2.session.log.drop (T.moment (p + 1)).log.length) := by
      rw [cameTo_eq_moment, length_moment T (Nat.le_trans hp (T.enteredAt_le i))]
      exact hspares
    obtain ⟨e, he, hek⟩ := exists_found hT hi (T.start_leads_moment (p + 1)) hto
      (contains_moment_succ hT hset) hspared
    obtain ⟨w, harrive⟩ := exists_arrivesAt hT hall he
    refine ⟨e, w, hek, harrive, fun hlater => ?_⟩
    have hsession := moment_eq ((T.start_leads _).trans harrive.leads) (harrive.leads_result hT)
    have hlog : T.log.take w.session.log.length = w.session.log :=
      (congrArg Session.log hsession).symm
    rw [between, hlog, ← slot_of_found hT he] at hlater
    obtain ⟨v', hvisits⟩ := harrive.visits_of_spares hek hlater
    exact ⟨v', (mem_visited_iff hT _).mpr ⟨w, hvisits, rfl⟩⟩
  late hp hmissing _ _ h hek := h.length_lt hT rfl hek hp hmissing

/-- A traversal of stripes of lists visits every key at most once, with its value on arrival.  Keys that
come in are visited if their stripe has not been entered yet, and keys that go are not. -/
theorem run_tour_thorough (bits : Nat) (ops : List (Bucket.Op K V))
    (visit : K → V → S → Program K V (Bool × S)) (start : S) :
    let list := (Bucket.run (replicate bits (PushList.empty : PushList K V)) ops).2
    (Tour.mk visit start list).Thorough := by
  intro list
  have hnew : LawfulBucket.Sound (replicate bits (PushList.empty : PushList K V)) :=
    sound_replicate bits PushList.sound_empty
      ((PushList.bucket_entries _).trans PushList.entries_empty)
  exact Tour.thorough (LawfulBucket.sound_run hnew ops)

/-- A visitor that is at work in the stripe that is traversed, in the one before it and in the one after
it.  At key 4 it changes the entry that comes next and brings in two keys, and takes one away from the
stripe that follows; at key 3 it removes 4, which has been visited, and brings it in again. -/
def stir (k _ seen : Nat) : Program Nat Nat (Bool × Nat) :=
  match k with
  | 4 => .call (.set 2 21) fun _ => .call (.set 0 0) fun _ => .call (.set 3 30) fun _ =>
      .call (.delete 1) fun _ => .done (true, seen + 1)
  | 3 => .call (.delete 4) fun _ => .call (.set 4 44) fun _ => .call (.set 6 60) fun _ =>
      .done (true, seen + 1)
  | _ => .done (true, seen + 1)

/-- Of two stripes the first has the even keys up to 4 and the second has 1, 3 and 6.  The visitor brings
in 0 and 6 too late to be visited, but not 3. -/
theorem run_tour_thorough_while_stirred :
    let ops : List (Bucket.Op Nat Nat) := [.set 1 10, .set 2 20, .set 4 40]
    let list := (Bucket.run (replicate 1 (PushList.empty : PushList Nat Nat)) ops).2
    let T := Tour.mk stir 0 list
    EquivBEq Nat ∧ LawfulHashable Nat ∧
      T.result.2.visited.map (·.1) = [(4, 40), (2, 21), (3, 30)] ∧
      (List.finRange 2).map T.found = [[(4, 40), (2, 20)], [(3, 30)]] ∧
      Bucket.entries T.result.2.session.bucket =
        [(4, 44), (0, 0), (2, 21), (6, 60), (3, 30)] ∧
      T.Thorough := by
  intro ops list T
  refine ⟨inferInstance, inferInstance, ?_, ?_, ?_, run_tour_thorough 1 ops stir 0⟩
  · decide +kernel
  · decide +kernel
  · decide +kernel

end Striped

end HashStore
