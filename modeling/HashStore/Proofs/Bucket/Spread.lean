import HashStore.Bucket.Shape
import HashStore.Table.Basic
import Mathlib.Data.Nat.ModEq
import Mathlib.Data.Set.Card

/-! # How stripes share the hashes of a bucket

A table chooses a bucket by the low bits of a hash, and a striped bucket chooses a stripe by the top
bits of the hash times `spread`.  The multiplication rearranges the 64-bit words
(`toNat_mul_spread_injective`, `exists_mul_spread`), and, as `spread` is odd, it does so remainder by
remainder for every power of two (`mod_eq_iff_mul_spread`).  So the hashes of a bucket go over into
all words of some remainder.  A stripe takes a stretch of consecutive words
(`setOf_bucket_stripe`), and stretches of one length have equally many words of a remainder in them
(`encard_stretch`).

Hence every stripe gets the same number of the hashes of a bucket (`ncard_bucket_stripe`). -/

namespace HashStore

/-! ### Stretches of numbers -/

/-- The numbers with remainder `r` modulo `d` in stretch number `s`, where each stretch is `w` numbers
long. -/
def stretch (w s d r : Nat) : Set Nat := {x | x / w = s ∧ x % d = r}

theorem mem_stretch {w s d r x : Nat} : x ∈ stretch w s d r ↔ x / w = s ∧ x % d = r := Iff.rfl

/-- In a stretch every remainder modulo a divisor `d` of its length comes once in `d` numbers. -/
theorem encard_stretch {w d r : Nat} (hw : 0 < w) (hd : d ∣ w) (hr : r < d) (s : Nat) :
    (stretch w s d r).encard = (w / d : Nat) := by
  obtain ⟨k, rfl⟩ := hd
  have hd : 0 < d := by omega
  have hk : 0 < k := Nat.pos_of_mul_pos_left hw
  have himage : stretch (d * k) s d r =
      (fun q => d * (k * s + q) + r) '' (Finset.range k : Set Nat) := by
    ext x
    rw [mem_stretch, ← Nat.div_div_eq_div_mul]
    simp only [Set.mem_image, Finset.coe_range, Set.mem_Iio]
    constructor
    · rintro ⟨rfl, rfl⟩
      exact ⟨x / d % k, Nat.mod_lt _ hk, by rw [Nat.div_add_mod, Nat.div_add_mod]⟩
    · rintro ⟨q, hq, rfl⟩
      have hdiv : (d * (k * s + q) + r) / d = k * s + q := by
        rw [Nat.mul_add_div hd, Nat.div_eq_of_lt hr, Nat.add_zero]
      rw [hdiv, Nat.mul_add_div hk, Nat.div_eq_of_lt hq, Nat.mul_add_mod, Nat.mod_eq_of_lt hr]
      exact ⟨rfl, rfl⟩
  have hinj : Function.Injective fun q => d * (k * s + q) + r := by
    intro q q' h
    have := Nat.eq_of_mul_eq_mul_left hd (Nat.add_right_cancel h)
    omega
  rw [himage, hinj.encard_image, Set.encard_coe_eq_coe_finsetCard, Finset.card_range,
    Nat.mul_div_cancel_left k hd]

/-! ### Multiplication by an odd constant -/

/-- The word that undoes a multiplication by `spread`. -/
def gather : UInt64 := 0xf1de83e19937733d

theorem mul_spread_mul_gather (u : UInt64) : u * spread * gather = u := by
  have hone : spread * gather = 1 := by decide
  rw [UInt64.mul_assoc, hone, UInt64.mul_one]

theorem toNat_mul_spread_injective :
    Function.Injective fun u : UInt64 => (u * spread).toNat := by
  intro u v h
  rw [← mul_spread_mul_gather u, UInt64.toNat_inj.mp h, mul_spread_mul_gather]

theorem exists_mul_spread {x : Nat} (hx : x < powerOfTwo 64) :
    ∃ u : UInt64, (u * spread).toNat = x := by
  refine ⟨UInt64.ofNat x * gather, ?_⟩
  rw [UInt64.mul_assoc, UInt64.mul_comm gather, ← UInt64.mul_assoc, mul_spread_mul_gather]
  exact UInt64.toNat_ofNat_of_lt hx

/-- Hashes of one remainder are those that `spread` takes to words of one remainder. -/
theorem mod_eq_iff_mul_spread {m r : Nat} (hm : m ≤ 64) (hr : r < powerOfTwo m) (u : UInt64) :
    u.toNat % powerOfTwo m = r ↔
      (u * spread).toNat % powerOfTwo m = r * spread.toNat % powerOfTwo m := by
  have hcoprime : (powerOfTwo m).Coprime spread.toNat := Nat.Coprime.pow_left m (by decide)
  have hmul : (u * spread).toNat % powerOfTwo m = u.toNat * spread.toNat % powerOfTwo m := by
    rw [UInt64.toNat_mul]
    exact Nat.mod_mod_of_dvd _ (powerOfTwo_dvd_powerOfTwo hm)
  rw [hmul]
  constructor
  · rintro rfl
    exact ((Nat.mod_modEq _ _).mul_right _).symm
  · intro h
    rw [Nat.ModEq.cancel_right_of_coprime hcoprime h, Nat.mod_eq_of_lt hr]

/-! ### The hashes of a bucket and a stripe -/

section bucket

variable {β : Type} {t : Table β} {m n r s : Nat} (hmn : m + n ≤ 64)
  (ht : t.capacity = powerOfTwo m) (hr : r < powerOfTwo m)

include hmn ht hr

theorem setOf_bucket_stripe : {u : UInt64 | t.index u = r ∧ stripeIndex n u = s} =
    Set.preimage (fun u => (u * spread).toNat)
      (stretch (powerOfTwo (64 - n)) s (powerOfTwo m) (r * spread.toNat % powerOfTwo m)) := by
  ext u
  show t.index u = r ∧ stripeIndex n u = s ↔ _
  rw [and_comm, Table.index, ht, mod_eq_iff_mul_spread (by omega) hr, stripeIndex,
    Nat.shiftRight_eq_div_pow]
  rfl

/-- In a table of `2 ^ m` buckets, each of `2 ^ n` stripes, a stripe of a bucket is chosen by
`2 ^ (64 - m - n)` of the `2 ^ (64 - m)` hashes of the bucket, whichever stripe and bucket that is. -/
theorem ncard_bucket_stripe (hs : s < powerOfTwo n) :
    {u : UInt64 | t.index u = r ∧ stripeIndex n u = s}.ncard = powerOfTwo (64 - m - n) := by
  have hwords : powerOfTwo 64 = powerOfTwo n * powerOfTwo (64 - n) := by
    rw [← powerOfTwo_add, Nat.add_sub_cancel' (by omega)]
  have hstretch : powerOfTwo (64 - n) = powerOfTwo m * powerOfTwo (64 - m - n) := by
    rw [← powerOfTwo_add, Nat.sub_right_comm, Nat.add_sub_cancel' (by omega)]
  have hpos := powerOfTwo_pos (64 - n)
  have hrange : stretch (powerOfTwo (64 - n)) s (powerOfTwo m) (r * spread.toNat % powerOfTwo m) ⊆
      Set.range fun u : UInt64 => (u * spread).toNat := by
    rintro x ⟨hx, -⟩
    refine exists_mul_spread ?_
    rw [hwords]
    exact (Nat.div_lt_iff_lt_mul hpos).mp (hx ▸ hs)
  have hcard := encard_stretch hpos ⟨_, hstretch⟩
    (Nat.mod_lt (r * spread.toNat) (powerOfTwo_pos m)) s
  rw [setOf_bucket_stripe hmn ht hr, Set.ncard,
    Set.encard_preimage_of_injective_subset_range toNat_mul_spread_injective hrange, hcard,
    hstretch, Nat.mul_div_cancel_left _ (powerOfTwo_pos m), ENat.toNat_natCast]

end bucket

/-- Of the hashes of a bucket among 16 a quarter goes to each of four stripes, and 37 is one of
them. -/
theorem ncard_bucket_stripe_of_sixteen :
    let t := (Table.create ((Shape.striped 3 .append).factory UInt64 Nat) 16).1
    t.capacity = powerOfTwo 4 ∧ stripeBits 3 = 2 ∧ 5 < powerOfTwo 4 ∧ 3 < powerOfTwo 2 ∧
      t.index 37 = 5 ∧ stripeIndex 2 37 = 3 ∧
      {u : UInt64 | t.index u = 5 ∧ stripeIndex 2 u = 3}.ncard = powerOfTwo 58 := by
  intro t
  have ht : t.capacity = powerOfTwo 4 := by decide
  have hr : 5 < powerOfTwo 4 := by decide
  have hs : 3 < powerOfTwo 2 := by decide
  refine ⟨ht, by decide, hr, hs, by decide, by decide +kernel, ?_⟩
  exact ncard_bucket_stripe (by decide) ht hr hs

end HashStore
