import HashStore.Proofs.Table.Update

/-! # Removals are all or nothing

A removal asks whether the key is there, has its bucket carry it out and brings the count up to date,
and it can fail before each of these steps.  Where equal keys have equal hashes it nevertheless either
takes out the one entry of the key and leaves every other where it is (`Table.Loses`), or it leaves
the table as it was and reports the key absent (`AllOrNothing`).  The number of buckets never
changes. -/

namespace HashStore

open Entries Surroundings

/-- A removal from a store in state `s` that succeeds if the key is there and a bucket carries the
removal out, and that otherwise fails and leaves the store as it was.  Either way it reports no event
and leaves the capacity as it was. -/
structure AllOrNothing {S γ σ : Type} (present carriedOut : Prop) (capacity : S → γ)
    (Loses : S → Prop) (s : S) (r : Reply (Except StoreError Unit) S σ) : Prop where
  ok_iff : r.answer = .ok () ↔ present ∧ carriedOut
  loses : r.answer = .ok () → Loses r.state
  failed : r.answer ≠ .ok () → r.answer = .error .notFound ∧ r.state = s
  capacity : capacity r.state = capacity s
  events : r.events = []

theorem AllOrNothing.of_ok {S γ σ : Type} {present carriedOut : Prop} {capacity : S → γ}
    {Loses : S → Prop} {s s' : S} (env : σ) (hp : present) (hc : carriedOut) (hl : Loses s')
    (hcap : capacity s' = capacity s) :
    AllOrNothing present carriedOut capacity Loses s ⟨.ok (), s', env, []⟩ :=
  ⟨iff_of_true rfl ⟨hp, hc⟩, fun _ => hl, fun hne => absurd rfl hne, hcap, rfl⟩

theorem AllOrNothing.of_notFound {S γ σ : Type} {present carriedOut : Prop} {capacity : S → γ}
    {Loses : S → Prop} {s : S} (env : σ) (h : ¬(present ∧ carriedOut)) :
    AllOrNothing present carriedOut capacity Loses s ⟨.error .notFound, s, env, []⟩ :=
  ⟨iff_of_false (fun hok => nomatch hok) h, (fun hok => nomatch hok), fun _ => ⟨rfl, rfl⟩, rfl, rfl⟩

/-- Among entries with distinct keys that of one key is gone, and the others lie as they did. -/
def LosesEntry {K V : Type} [BEq K] (k : K) (l l' : List (K × V)) : Prop :=
  ∃ a e c, l = a ++ e :: c ∧ (e.1 == k) = true ∧ l' = a ++ c

variable {K V : Type} [BEq K] [Hashable K] [LawfulHashable K]

theorem LawfulBucket.rowsDiffer_delete {β : Type} [Bucket β K V] [LawfulBucket β K V] {b : β}
    (h : Sound b) (k : K) :
    Bucket.RowsDiffer (remove (fun a b => a == b) k) b (Bucket.delete b k).2 := by
  intro p
  rw [LawfulBucket.entries_delete k h, meets_eq_beq]
  exact Bucket.filter_remove (p := fun k' => place β (hash k') = p) k _

namespace Table

/-- One table is another without the entry of a key: the rows of its bucket have lost that entry, all
other buckets are the same, and the count is one less. -/
structure Loses {β : Type} [Bucket β K V] (t : Table β) (k : K) (t' : Table β) : Prop where
  bucket : ∃ b : β, t' = (t.withBucket (t.index (hash k)) b).counting (-1) ∧
    Bucket.layout b =
      (Bucket.layout (t.bucketAt (t.index (hash k)))).mapRows (remove (fun a b => a == b) k)
  entries : LosesEntry k t.entries t'.entries
  size : t'.size + 1 = t.size

variable [EquivBEq K] {shape : Shape} {t : Table (shape.Content K V)}

namespace Sound

variable (h : t.Sound)

include h

theorem loses_erased {k : K} (hk : has (fun a b => a == b) k t.entries = true) :
    t.Loses k ((t.erased k).counting (-1)) where
  bucket := by
    have hb := h.sound_bucketAt (hash k)
    exact ⟨_, rfl, shape.layout_of_rowsDiffer hb (LawfulBucket.sound_delete k hb)
      (LawfulBucket.rowsDiffer_delete hb k)⟩
  entries := by
    have hd := h.distinct
    rw [meets_eq_beq] at hd
    obtain ⟨a, e, c, hold, hek, hnew⟩ := hd.exists_remove isSameness_beq hk
    refine ⟨a, e, c, hold, hek, ?_⟩
    rw [counting_entries, h.entries_erased, meets_eq_beq, hnew]
  size := by
    rw [← meets_eq_beq (place (shape.Content K V) t.capacity)] at hk
    have hlen := length_remove (isSameness_meets _) (k := k) h.distinct
    rw [hk, Bool.toNat_true] at hlen
    rw [(h.erased hk).size_eq, h.size_eq, counting_entries, h.entries_erased]
    exact hlen

variable {σ : Type} [Access σ (shape.Content K V) K V] [Surroundings σ]
  [TruthfulAccess σ (shape.Content K V) K V] {env : σ} (ht : Truthful env)

include ht

theorem delete_allOrNothing (k : K) :
    AllOrNothing (has (fun a b => a == b) k t.entries = true) (allowsDelete env = true)
      capacity (t.Loses k) t (t.delete k env) := by
  have hloses := h.loses_erased (k := k)
  have habsent := h.delete_absent ht (k := k)
  have hallowed := h.delete_allowed ht (k := k)
  have hrefused := h.delete_refused ht (k := k)
  rw [meets_eq_beq] at habsent hallowed hrefused
  cases hk : has (fun a b => a == b) k t.entries with
  | false =>
      rw [habsent hk]
      exact .of_notFound _ fun hboth => Bool.false_ne_true hboth.1
  | true =>
      cases hallow : allowsDelete env with
      | false =>
          rw [hrefused hk hallow]
          exact .of_notFound _ fun hboth => Bool.false_ne_true hboth.2
      | true =>
          rw [hallowed hk hallow]
          exact .of_ok _ rfl rfl (hloses hk) rfl

end Sound

end Table
end HashStore
