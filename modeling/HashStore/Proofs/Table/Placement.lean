import HashStore.Proofs.Table.Balance
import HashStore.Proofs.Table.Rehash

/-! # Where entries lie, whatever is reported

Buckets may report what they have not done.  Then a table counts wrongly, grows when it need not, and
gives up a growth or loses an entry in it.  But if every call to a bucket is carried out or has no
effect, and a traversal shows what there is (`FaithfulAccess`), entries do not go astray: each lies in
the bucket of its key, and the table has no keys but those that have been written
(`Table.Confined.apply`). -/

namespace HashStore

/-- Calls to buckets `β` are carried out or have no effect, whatever the surroundings make of the
answers, and entries are shown as they are. -/
class FaithfulAccess (σ β : Type) (K V : outParam Type) [Bucket β K V] [Access σ β K V] : Prop where
  set_cases : ∀ (b : β) (k : K) (v : V) (env : σ),
    (Access.set b k v env).2.1 = b ∨ (Access.set b k v env).2.1 = (Bucket.set b k v).2
  delete_cases : ∀ (b : β) (k : K) (env : σ),
    (Access.delete b k env).2.1 = b ∨ (Access.delete b k env).2.1 = (Bucket.delete b k).2
  forEach_eq : ∀ {ω : Type} (b : β) (visit : K → V → ω → Bool × ω) (w : ω),
    Access.forEach σ b visit w = (Bucket.forEach (fun _ => b) visit w).2

section instances

variable {β K V : Type} [Bucket β K V]

instance : FaithfulAccess Unit β K V where
  set_cases _ _ _ _ := Or.inr rfl
  delete_cases _ _ _ := Or.inr rfl
  forEach_eq _ _ _ := rfl

/-- No fault makes a bucket do something else than it is asked for. -/
instance : FaithfulAccess Faults β K V where
  set_cases b k v faults := by
    show (Faults.set b k v faults).2.1 = b ∨ (Faults.set b k v faults).2.1 = _
    unfold Faults.set
    cases faults.onSet faults.sets with
    | done => exact Or.inr rfl
    | refused => exact Or.inl rfl
    | reported how => exact Or.inr rfl
  delete_cases b k faults := by
    show (Faults.delete b k faults).2.1 = b ∨ (Faults.delete b k faults).2.1 = _
    unfold Faults.delete
    cases faults.onDelete faults.deletes with
    | done => exact Or.inr rfl
    | refused => exact Or.inl rfl
    | ignored => exact Or.inl rfl
    | claimed => exact Or.inr rfl
  forEach_eq _ _ _ := rfl

end instances

namespace Table

variable {β K V : Type} [BEq K] [Hashable K] [Bucket β K V] [LawfulBucket β K V]

/-- Every entry lies in the bucket of its key, and the keys have some property. -/
structure Confined (P : K → Prop) (t : Table β) : Prop extends t.Placed where
  keys : ∀ e ∈ t.entries, P e.1

theorem confined_create {factory : Factory β} (hf : factory.Lawful) (requested : Nat)
    (P : K → Prop) : (create factory requested).1.Confined P where
  toPlaced := (sound_create hf requested).toPlaced
  keys := by simp [entries_create hf]

namespace Confined

variable {P : K → Prop} {t : Table β} (h : t.Confined P)

include h

/-! ### Without calls to buckets -/

theorem counting (change : Int) : (t.counting change).Confined P :=
  ⟨h.toPlaced.counting change, h.keys⟩

theorem clear : t.clear.1.Confined P := ⟨h.toPlaced.clear, by simp [h.entries_clear]⟩

theorem doubled : t.doubled.Confined P := ⟨h.placed_doubled, by simp [h.entries_doubled]⟩

/-! ### Single calls -/

variable {σ : Type} [Access σ β K V] [FaithfulAccess σ β K V]

theorem write {k : K} (hk : P k) (v : V) (env : σ) : (t.write k v env).2.1.Confined P := by
  show (t.withBucket _ (Access.set _ k v env).2.1).Confined P
  rcases FaithfulAccess.set_cases (t.bucketAt (t.index (hash k))) k v env with hsame | hset
  · rw [hsame, h.withBucket_bucketAt]
    exact h
  · rw [hset]
    exact ⟨h.stored k v, (h.wrote_stored k v).forall_key h.keys hk⟩

theorem erase (k : K) (env : σ) : (t.erase k env).2.1.Confined P := by
  show (t.withBucket _ (Access.delete _ k env).2.1).Confined P
  rcases FaithfulAccess.delete_cases (t.bucketAt (t.index (hash k))) k env with hsame | hdelete
  · rw [hsame, h.withBucket_bucketAt]
    exact h
  · rw [hdelete]
    have hentries := h.entries_erased k
    exact ⟨h.erased k, fun e he => h.keys e (List.mem_filter.mp (hentries ▸ he)).1⟩

/-! ### Growth -/

omit h in
theorem visitAll_take {es : List (K × V)} (hes : ∀ e ∈ es, P e.1) {r : Rebuild β σ}
    (hr : r.target.Confined P) : (visitAll Rebuild.take es r).2.target.Confined P := by
  induction es generalizing r with
  | nil => exact hr
  | cons e es ih =>
      have htake : (Rebuild.take e.1 e.2 r).2.target.Confined P := by
        rw [Rebuild.take_target]
        exact hr.write (hes e (List.mem_cons_self ..)) e.2 r.env
      rw [visitAll]
      split
      · exact ih (fun e he => hes e (List.mem_cons_of_mem _ he)) htake
      · exact htake

omit h in
theorem takeAll {bs : List β} (hbs : ∀ b ∈ bs, LawfulBucket.Sound b)
    (hkeys : ∀ b ∈ bs, ∀ e ∈ Bucket.entries b, P e.1) {r : Rebuild β σ}
    (hr : r.target.Confined P) : (Rebuild.takeAll bs r).target.Confined P := by
  induction bs generalizing r with
  | nil => exact hr
  | cons b bs ih =>
      have hfirst : (Access.forEach σ b Rebuild.take r).target.Confined P := by
        rw [FaithfulAccess.forEach_eq,
          LawfulBucket.forEach_const _ r (hbs b (List.mem_cons_self ..))]
        exact visitAll_take (hkeys b (List.mem_cons_self ..)) hr
      rw [Rebuild.takeAll]
      split
      · exact hfirst
      · exact ih (fun b hb => hbs b (List.mem_cons_of_mem _ hb))
          (fun b hb => hkeys b (List.mem_cons_of_mem _ hb)) hfirst

theorem rehash (env : σ) : (t.rehash env).state.Confined P := by
  have hbs : ∀ b ∈ t.buckets.toList, LawfulBucket.Sound b := by
    intro b hb
    obtain ⟨i, hi, rfl⟩ := List.getElem_of_mem hb
    exact h.sound i (by simpa using hi)
  have hkeys : ∀ b ∈ t.buckets.toList, ∀ e ∈ Bucket.entries b, P e.1 := by
    intro b hb e he
    refine h.keys e ?_
    rw [entries_eq]
    exact List.mem_flatMap.mpr ⟨b, hb, he⟩
  have htarget := takeAll hbs hkeys (r := ⟨t.doubled, 0, env, none⟩) h.doubled
  rw [Table.rehash]
  split
  · exact h
  · exact htarget

/-! ### Operations -/

theorem set {k : K} (hk : P k) (v : V) (env : σ) : (t.set k v env).state.Confined P :=
  set_preserves (h.write hk v env) (fun _ h => h.counting 1) fun _ env h => h.rehash env

theorem delete (k : K) (env : σ) : (t.delete k env).state.Confined P :=
  delete_preserves h (h.erase k) (fun _ h => h.counting (-1)) env

/-- Whatever is true of the keys, and of a key that is written, is true of them afterwards. -/
theorem apply {op : Store.Op K V} (hop : ∀ k v, op = .set k v → P k) (env : σ) :
    (Store.apply t op env).state.Confined P := by
  cases op with
  | set k v => exact h.set (hop k v rfl) v env
  | delete k => exact h.delete k env
  | clear => exact h.clear
  | _ => exact h

end Confined

theorem Placed.apply {σ : Type} [Access σ β K V] [FaithfulAccess σ β K V] {t : Table β}
    (h : t.Placed) (op : Store.Op K V) (env : σ) : (Store.apply t op env).state.Placed := by
  have hconfined : t.Confined fun _ => True := ⟨h, fun _ _ => trivial⟩
  exact (hconfined.apply (fun _ _ _ => trivial) env).toPlaced

theorem Placed.run {σ : Type} [Access σ β K V] [FaithfulAccess σ β K V] {t : Table β}
    (h : t.Placed) (ops : List (Store.Op K V)) (env : σ) :
    (Store.run t env ops).state.Placed := by
  induction ops generalizing t env with
  | nil => exact h
  | cons op ops ih => exact ih (h.apply op env) _

end Table
end HashStore
