import HashStore.Bucket.Basic

/-! # Programs on a bucket

A `Program` works on a bucket.  It carries out operations, of which each may depend on the answers to
the ones before, and traversals, whose visitors are programs again: a visitor may carry out operations
on the very bucket that is being traversed, and traverse it once more, before it decides whether to go
on.

A `Session` is a bucket with the operations that have been carried out on it, and a `Traversal` is a
traversal under way with the entries that have been visited.  Where traversals change nothing of their
own accord (`QuietTraversal`), whatever a program does comes down to the operations in its log
(`Program.exec_leads`). -/

namespace HashStore

/-- What is done with a bucket of entries `K × V` to come to a result. -/
inductive Program (K V : Type) : Type → Type 1 where
  | done {α : Type} (result : α) : Program K V α
  | call {α : Type} (op : Bucket.Op K V) (next : Bucket.Answer V → Program K V α) : Program K V α
  /-- A traversal by a visitor with a state of its own, which is `start` at first. -/
  | forEach {α S : Type} (start : S) (visit : K → V → S → Program K V (Bool × S))
      (next : S → Program K V α) : Program K V α

/-- A bucket in use. -/
structure Session (β K V : Type) where
  bucket : β
  /-- The operations that have been carried out, in their order. -/
  log : List (Bucket.Op K V)

/-- A traversal under way. -/
structure Traversal (β K V S : Type) where
  /-- The state of the visitor. -/
  visitor : S
  session : Session β K V
  /-- The entries that have been visited, each with the bucket as it was on arrival. -/
  visited : List ((K × V) × β)

variable {β K V S : Type}

/-- Visits an entry.  The visitor is given by what it does in a state of its own and in a session. -/
def Traversal.visit (act : S → Session β K V → (Bool × S) × Session β K V) (k : K) (v : V)
    (w : Traversal β K V S) : Bool × Traversal β K V S :=
  let r := act w.visitor w.session
  (r.1.1, ⟨r.1.2, r.2, w.visited ++ [((k, v), w.session.bucket)]⟩)

namespace Program

variable [Bucket β K V]

/-- Carries out a program. -/
def exec {α : Type} : Program K V α → Session β K V → α × Session β K V
  | done result, s => (result, s)
  | call op next, s =>
    let r := Bucket.apply s.bucket op
    (next r.1).exec ⟨r.2, s.log ++ [op]⟩
  | forEach start visit next, s =>
    let r := Bucket.forEach (fun w => w.session.bucket)
      (fun k v => Traversal.visit (fun state s => (visit k v state).exec s) k v)
      (Traversal.mk start s [])
    (next r.2.visitor).exec r.2.session

/-- What visiting an entry does if visitors act by programs. -/
def visitBy (visit : K → V → S → Program K V (Bool × S)) (k : K) (v : V) :
    Traversal β K V S → Bool × Traversal β K V S :=
  Traversal.visit (fun state s => (visit k v state).exec s) k v

/-- Traverses a bucket that has been put to no other use yet. -/
def traverse (visit : K → V → S → Program K V (Bool × S)) (start : S) (b : β) :
    Bool × Traversal β K V S :=
  Bucket.forEach (fun w => w.session.bucket) (visitBy visit) ⟨start, ⟨b, []⟩, []⟩

end Program

/-! ### The log tells everything -/

section log

variable [Bucket β K V]

theorem Bucket.run_append (b : β) (ops ops' : List (Op K V)) :
    (run b (ops ++ ops')).2 = (run (run b ops).2 ops').2 := by
  induction ops generalizing b with
  | nil => rfl
  | cons op ops ih => exact ih _

/-- The way from one session to another: the operations that the log has gained. -/
def Session.Leads (s s' : Session β K V) : Prop :=
  ∃ ops, s'.bucket = (Bucket.run s.bucket ops).2 ∧ s'.log = s.log ++ ops

theorem Session.Leads.refl (s : Session β K V) : s.Leads s := ⟨[], rfl, by simp⟩

theorem Session.Leads.trans {s s' s'' : Session β K V} (h : s.Leads s') (h' : s'.Leads s'') :
    s.Leads s'' := by
  obtain ⟨ops, hbucket, hlog⟩ := h
  obtain ⟨ops', hbucket', hlog'⟩ := h'
  refine ⟨ops ++ ops', ?_, ?_⟩
  · rw [hbucket', hbucket, Bucket.run_append]
  · rw [hlog', hlog, List.append_assoc]

/-- The log of a bucket that has been put to no other use tells how it came about. -/
theorem Session.Leads.bucket_eq {b : β} {s : Session β K V} (h : Session.Leads ⟨b, []⟩ s) :
    s.bucket = (Bucket.run b s.log).2 := by
  obtain ⟨ops, hbucket, hlog⟩ := h
  rw [List.nil_append] at hlog
  rw [hbucket, hlog]

theorem Session.Leads.length_le {s s' : Session β K V} (h : s.Leads s') :
    s.log.length ≤ s'.log.length := by
  obtain ⟨ops, -, hlog⟩ := h
  rw [hlog]
  exact (List.sublist_append_left ..).length_le

theorem Session.Leads.log_subset {s s' : Session β K V} (h : s.Leads s') : s.log ⊆ s'.log := by
  obtain ⟨ops, -, hlog⟩ := h
  rw [hlog]
  exact List.subset_append_left ..

theorem Session.Leads.call (s : Session β K V) (op : Bucket.Op K V) :
    s.Leads ⟨(Bucket.apply s.bucket op).2, s.log ++ [op]⟩ := ⟨[op], rfl, rfl⟩

end log

/-- Buckets whose traversals leave it to the visitor to change anything. -/
class QuietTraversal (β K V : Type) [Bucket β K V] : Prop where
  /-- What every visit preserves is preserved by the traversal. -/
  forEach_preserves : ∀ {ω : Type} {P : ω → Prop} {visit : K → V → ω → Bool × ω} (view : ω → β),
    (∀ k v w, P w → P (visit k v w).2) → ∀ w, P w → P (Bucket.forEach view visit w).2

variable [Bucket β K V] [QuietTraversal β K V]

theorem Program.exec_leads {α : Type} (p : Program K V α) (s : Session β K V) :
    s.Leads (p.exec s).2 := by
  induction p generalizing s with
  | done result => exact Session.Leads.refl s
  | call op next ih => exact (Session.Leads.call s op).trans (ih _ _)
  | forEach start visit next ihvisit ihnext =>
      refine Session.Leads.trans ?_ (ihnext _ _)
      refine QuietTraversal.forEach_preserves (P := fun w : Traversal β K V _ => s.Leads w.session)
        _ ?_ _ (Session.Leads.refl s)
      exact fun k v w hw => hw.trans (ihvisit k v _ _)

theorem Program.visitBy_leads (visit : K → V → S → Program K V (Bool × S)) (k : K) (v : V)
    (w : Traversal β K V S) : w.session.Leads (visitBy visit k v w).2.session :=
  exec_leads _ _

theorem Program.traverse_leads (visit : K → V → S → Program K V (Bool × S)) (start : S) (b : β) :
    Session.Leads ⟨b, []⟩ (traverse visit start b).2.session :=
  exec_leads (.forEach start visit .done) ⟨b, []⟩

end HashStore
