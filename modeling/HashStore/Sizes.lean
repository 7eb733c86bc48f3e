/-! # Sizes

Where an index is cut out of the bits of a hash, the number of places is a power of two.
`ceilLog2 n` is the exponent of the least power of two that is at least `n`.  The size of something
that has parts is the `total` of the sizes of its parts. -/

namespace HashStore

/-! ### Powers of two -/

/-- The power of two with an exponent. -/
def powerOfTwo (e : Nat) : Nat := Nat.pow 2 e

/-- The least exponent `e` with `n ≤ powerOfTwo e`. -/
def ceilLog2 (n : Nat) : Nat := if n ≤ 1 then 0 else (n - 1).log2 + 1

/-- The least power of two that is at least `n`. -/
def roundUp (n : Nat) : Nat := powerOfTwo (ceilLog2 n)

theorem powerOfTwo_pos (e : Nat) : 0 < powerOfTwo e := Nat.two_pow_pos e

theorem powerOfTwo_succ (e : Nat) : powerOfTwo (e + 1) = 2 * powerOfTwo e := Nat.pow_succ'

theorem lt_powerOfTwo (e : Nat) : e < powerOfTwo e := Nat.lt_two_pow_self

theorem powerOfTwo_le_powerOfTwo {e e' : Nat} (h : e ≤ e') : powerOfTwo e ≤ powerOfTwo e' :=
  Nat.pow_le_pow_right Nat.two_pos h

theorem powerOfTwo_add (a b : Nat) : powerOfTwo (a + b) = powerOfTwo a * powerOfTwo b :=
  Nat.pow_add 2 a b

theorem powerOfTwo_dvd_powerOfTwo {e e' : Nat} (h : e ≤ e') : powerOfTwo e ∣ powerOfTwo e' :=
  Nat.pow_dvd_pow 2 h

theorem ceilLog2_le_iff (n e : Nat) : ceilLog2 n ≤ e ↔ n ≤ powerOfTwo e := by
  have hpos := powerOfTwo_pos e
  unfold ceilLog2
  split
  · omega
  · rename_i h
    rw [Nat.succ_le_iff, Nat.log2_lt (by omega)]
    show n - 1 < powerOfTwo e ↔ n ≤ powerOfTwo e
    omega

theorem le_roundUp (n : Nat) : n ≤ roundUp n := (ceilLog2_le_iff n _).mp (Nat.le_refl _)

theorem roundUp_pos (n : Nat) : 0 < roundUp n := powerOfTwo_pos _

/-! ### Totals -/

/-- The sum of the sizes of some parts. -/
def total {α : Type} (size : α → Nat) (parts : List α) : Nat :=
  parts.foldr (fun part n => size part + n) 0

variable {α : Type} {parts : List α}

@[simp] theorem total_nil (size : α → Nat) : total size [] = 0 := rfl

@[simp] theorem total_cons (size : α → Nat) (part : α) (parts : List α) :
    total size (part :: parts) = size part + total size parts := rfl

theorem total_congr {size size' : α → Nat} (h : ∀ part ∈ parts, size part = size' part) :
    total size parts = total size' parts := by
  induction parts with
  | nil => rfl
  | cons part parts ih =>
    rw [total_cons, total_cons, h part (List.mem_cons_self ..),
      ih fun part' h' => h part' (List.mem_cons_of_mem _ h')]

theorem total_eq_zero_iff {size : α → Nat} :
    total size parts = 0 ↔ ∀ part ∈ parts, size part = 0 := by
  induction parts with
  | nil => simp
  | cons part parts ih => simp [ih]

theorem length_flatMap_eq_total {γ : Type} (f : α → List γ) (parts : List α) :
    (parts.flatMap f).length = total (fun part => (f part).length) parts := by
  induction parts with
  | nil => rfl
  | cons part parts ih => rw [List.flatMap_cons, List.length_append, ih, total_cons]

end HashStore
