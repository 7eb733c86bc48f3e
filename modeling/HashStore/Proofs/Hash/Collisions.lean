import HashStore.Hash.Fnv
import HashStore.Hash.Polynomial
import Mathlib.Algebra.BigOperators.Fin
import Mathlib.Data.Nat.ModEq
import Mathlib.Data.Nat.Prime.Basic

/-! # What byte strings the hashes tell apart

Both hashes take in a string byte by byte, and a step can be undone: the state and the byte that it
leads to a new state from are told by the new state and the other one of the two
(`Polynomial.cancellable`, `Fnv.cancellable`).  For FNV-1a as for the polynomial hash that comes from
the multiplication by an odd constant, which loses nothing modulo `2 ^ 64`
(`mul_left_injective_of_odd`).

Hence a common end neither makes nor mends a collision (`Cancellable.foldl_inj`), and strings that
differ at one position only do not collide (`Cancellable.foldl_ne`). -/

namespace HashStore

open Function

/-! ### Steps that can be undone -/

/-- A step from a state by a byte, where of the two either is told by the other and the result. -/
structure Cancellable {S : Type} (step : S → UInt8 → S) : Prop where
  state : ∀ b, Injective fun s => step s b
  byte : ∀ s, Injective (step s)

/-- Strings of one length that differ at one position are made of a common beginning, two different
bytes, and a common end. -/
theorem exists_split_of_existsUnique {a b : List UInt8} (hlen : a.length = b.length)
    (hone : ∃! i : Nat, a[i]? ≠ b[i]?) : ∃ front x y rest, a = front ++ x :: rest ∧
      b = front ++ y :: rest ∧ x ≠ y := by
  induction a generalizing b with
  | nil =>
      obtain ⟨i, hi, -⟩ := hone
      rw [List.eq_nil_of_length_eq_zero hlen.symm] at hi
      exact absurd rfl hi
  | cons x a ih =>
      obtain ⟨y, b, rfl⟩ := List.exists_cons_of_length_eq_add_one hlen.symm
      obtain ⟨i, hi, honly⟩ := hone
      by_cases hxy : x = y
      · subst hxy
        obtain ⟨j, rfl⟩ : ∃ j, i = j + 1 := by
          cases i with
          | zero => exact absurd rfl hi
          | succ j => exact ⟨j, rfl⟩
        have hrest : ∃! j, a[j]? ≠ b[j]? :=
          ⟨j, hi, fun j' hj' => Nat.succ_inj.mp (honly (j' + 1) hj')⟩
        obtain ⟨front, u, v, rest, rfl, rfl, huv⟩ := ih (Nat.succ_inj.mp hlen) hrest
        exact ⟨x :: front, u, v, rest, rfl, rfl, huv⟩
      · have hzero : i = 0 := (honly 0 fun h => hxy (Option.some.inj h)).symm
        have hsame : a = b := by
          refine List.ext_getElem? fun j => not_not.mp fun hj => ?_
          exact Nat.succ_ne_zero j ((honly (j + 1) hj).trans hzero)
        exact ⟨[], x, y, a, rfl, by rw [hsame]; rfl, hxy⟩

namespace Cancellable

variable {S : Type} {step : S → UInt8 → S} (h : Cancellable step)

include h

theorem foldl_inj {s s' : S} (bytes : List UInt8) :
    bytes.foldl step s = bytes.foldl step s' ↔ s = s' := by
  induction bytes generalizing s s' with
  | nil => exact Iff.rfl
  | cons b bytes ih => exact ih.trans (h.state b).eq_iff

theorem foldl_append_inj (s : S) (a b rest : List UInt8) :
    (a ++ rest).foldl step s = (b ++ rest).foldl step s ↔ a.foldl step s = b.foldl step s := by
  rw [List.foldl_append, List.foldl_append]
  exact h.foldl_inj rest

theorem foldl_ne (s : S) {a b : List UInt8} (hlen : a.length = b.length)
    (hone : ∃! i : Nat, a[i]? ≠ b[i]?) : a.foldl step s ≠ b.foldl step s := by
  obtain ⟨front, x, y, rest, rfl, rfl, hxy⟩ := exists_split_of_existsUnique hlen hone
  rw [List.foldl_append, List.foldl_append, List.foldl_cons, List.foldl_cons]
  exact fun heq => hxy (h.byte _ ((h.foldl_inj rest).mp heq))

end Cancellable

/-! ### Multiplication by an odd word -/

theorem mul_left_injective_of_odd {c : UInt64} (hc : c.toNat % 2 = 1) :
    Injective fun u : UInt64 => u * c := by
  intro u v h
  have hcoprime : (2 ^ 64).Coprime c.toNat :=
    Nat.Coprime.pow_left 64 (Nat.coprime_two_left.mpr (Nat.odd_iff.mpr hc))
  have hmod : u.toNat * c.toNat ≡ v.toNat * c.toNat [MOD 2 ^ 64] := by
    have hnat := congrArg UInt64.toNat h
    rwa [UInt64.toNat_mul, UInt64.toNat_mul] at hnat
  have hcancel := Nat.ModEq.cancel_right_of_coprime hcoprime hmod
  exact UInt64.toNat_inj.mp (hcancel.eq_of_lt_of_lt u.toNat_lt v.toNat_lt)

/-! ### The polynomial hash -/

namespace Polynomial

theorem cancellable : Cancellable fun (h : UInt64) (b : UInt8) => h * factor + b.toUInt64 where
  state b h h' heq :=
    mul_left_injective_of_odd (by decide) ((UInt64.add_left_inj b.toUInt64).mp heq)
  byte h b b' heq := UInt8.toUInt64_inj.mp ((UInt64.add_right_inj (h * factor)).mp heq)

theorem toNat_step (h : UInt64) (b : UInt8) :
    (h * factor + b.toUInt64).toNat ≡ h.toNat * 31 + b.toNat [MOD 2 ^ 64] := by
  have hfactor : factor.toNat = 31 := by decide
  show (h * factor + b.toUInt64).toNat % 2 ^ 64 = (h.toNat * 31 + b.toNat) % 2 ^ 64
  rw [UInt64.toNat_add, UInt64.toNat_mul, UInt8.toNat_toUInt64, hfactor, Nat.mod_mod,
    Nat.mod_add_mod]

/-- Going on from `h` adds up `h` and the bytes, each times a power of the base. -/
theorem toNat_extend (h : UInt64) (bytes : List UInt8) :
    (extend h bytes).toNat = (h.toNat * 31 ^ bytes.length +
      ∑ i : Fin bytes.length, bytes[i].toNat * 31 ^ (bytes.length - 1 - i)) % 2 ^ 64 := by
  induction bytes generalizing h with
  | nil => simp [Nat.mod_eq_of_lt h.toNat_lt]
  | cons b bytes ih =>
      have hsum : ∑ i : Fin (b :: bytes).length,
          (b :: bytes)[i].toNat * 31 ^ ((b :: bytes).length - 1 - i) =
            b.toNat * 31 ^ bytes.length +
              ∑ i : Fin bytes.length, bytes[i].toNat * 31 ^ (bytes.length - 1 - i) := by
        refine (Fin.sum_univ_succ _).trans (congrArg _ (Finset.sum_congr rfl fun i _ => ?_))
        have hexp : (b :: bytes).length - 1 - (i.succ : Nat) = bytes.length - 1 - i := by
          rw [Fin.val_succ, List.length_cons]
          omega
        rw [hexp]
        rfl
      have hdigits : h.toNat * 31 ^ (b :: bytes).length + b.toNat * 31 ^ bytes.length =
          (h.toNat * 31 + b.toNat) * 31 ^ bytes.length := by
        rw [List.length_cons, pow_succ', add_mul, mul_assoc]
      rw [extend_cons, ih, hsum, ← add_assoc, hdigits]
      exact ((toNat_step h b).mul_right _).add_right _

end Polynomial

/-! ### FNV-1a -/

namespace Fnv

theorem odd_prime : prime.toNat % 2 = 1 := by decide

theorem cancellable : Cancellable absorb where
  state b s s' heq := by
    have hxor := mul_left_injective_of_odd odd_prime (Fnv.mk.inj heq)
    exact congrArg Fnv.mk ((UInt64.xor_left_inj b.toUInt64).mp hxor)
  byte s b b' heq := by
    have hxor := mul_left_injective_of_odd odd_prime (Fnv.mk.inj heq)
    exact UInt8.toUInt64_inj.mp ((UInt64.xor_right_inj s.state).mp hxor)

theorem hash_inj {a b : List UInt8} : hash a = hash b ↔ start.feed a = start.feed b :=
  ⟨fun h => congrArg Fnv.mk h, congrArg finish⟩

end Fnv

/-! ### Both hashes -/

/-- A common end makes and mends no collision of either hash, strings that differ at one position
only do not collide, and the polynomial hash is the number whose digits in base 31 are the bytes,
modulo `2 ^ 64`. -/
theorem hashes_tell_apart (a b rest : List UInt8) :
    (Polynomial.hash (a ++ rest) = Polynomial.hash (b ++ rest) ↔
      Polynomial.hash a = Polynomial.hash b) ∧
    (Fnv.hash (a ++ rest) = Fnv.hash (b ++ rest) ↔ Fnv.hash a = Fnv.hash b) ∧
    (a.length = b.length → (∃! i : Nat, a[i]? ≠ b[i]?) →
      Polynomial.hash a ≠ Polynomial.hash b ∧ Fnv.hash a ≠ Fnv.hash b) ∧
    (Polynomial.hash a).toNat =
      (∑ i : Fin a.length, a[i].toNat * 31 ^ (a.length - 1 - i)) % 2 ^ 64 := by
  refine ⟨Polynomial.cancellable.foldl_append_inj 0 a b rest, ?_, fun hlen hone => ⟨?_, ?_⟩, ?_⟩
  · rw [Fnv.hash_inj, Fnv.hash_inj]
    exact Fnv.cancellable.foldl_append_inj Fnv.start a b rest
  · exact Polynomial.cancellable.foldl_ne 0 hlen hone
  · rw [Ne, Fnv.hash_inj]
    exact Fnv.cancellable.foldl_ne Fnv.start hlen hone
  · rw [Polynomial.hash, Polynomial.toNat_extend, UInt64.toNat_zero, Nat.zero_mul, Nat.zero_add]

/-- The first two strings differ in one byte, the second and the third in two: there the higher byte
goes up by 1 and the lower one down by 31, which the polynomial hash does not see. -/
theorem hashes_tell_apart_three_bytes :
    let a : List UInt8 := [7, 200, 1]
    let b : List UInt8 := [7, 100, 1]
    let c : List UInt8 := [8, 69, 1]
    a.length = b.length ∧ (∃! i : Nat, a[i]? ≠ b[i]?) ∧
      Polynomial.hash b = Polynomial.hash c ∧ Polynomial.hash a ≠ Polynomial.hash b ∧
      Fnv.hash a ≠ Fnv.hash b := by
  intro a b c
  have hone : ∃! i : Nat, a[i]? ≠ b[i]? := by
    refine ⟨1, by decide, fun i hi => ?_⟩
    match i with
    | 0 => exact absurd rfl hi
    | 1 => rfl
    | 2 => exact absurd rfl hi
    | _ + 3 => exact absurd rfl hi
  exact ⟨rfl, hone, by decide, (hashes_tell_apart a b []).2.2.1 rfl hone⟩

end HashStore
