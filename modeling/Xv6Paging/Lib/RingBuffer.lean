import Mathlib

/-! # Ring buffers with wrapping counters

    A sequence of elements is kept in a ring of `size` cells: element number `k` is in
    cell `k % size`, and the ring has the elements from `lo` up to `hi`. The numbers of
    elements are counted in 32 bits and wrap around; as long as the numbers that are
    compared are less than `2 ^ 32` apart, this makes no difference, and the cell can be
    found from the counter because `size` divides `2 ^ 32`.
-/

namespace RingBuffer

open Function

/-! ## Counters -/

/-- The 32-bit counter for `k`. -/
def counter (k : Nat) : UInt32 := UInt32.ofNat k

theorem counter_add (k j : Nat) : counter k + counter j = counter (k + j) := (UInt32.ofNat_add k j).symm

theorem toNat_counter (k : Nat) : (counter k).toNat = k % 2 ^ 32 := UInt32.toNat_ofNat'

/-- Counters that are close enough are equal only if the numbers are. -/
theorem counter_eq_iff (hle : k ≤ j) (hlt : j < k + 2 ^ 32) : counter j = counter k ↔ j = k := by
  constructor
  · intro h
    have hmod := congrArg UInt32.toNat h
    rw [toNat_counter, toNat_counter] at hmod
    omega
  · intro h
    rw [h]

theorem counter_sub (hle : k ≤ j) : counter j - counter k = counter (j - k) := by
  have hadd : counter (j - k) + counter k = counter j := by rw [counter_add, Nat.sub_add_cancel hle]
  rw [← hadd, UInt32.add_sub_cancel]

/-- How far apart two counters are. -/
theorem toNat_counter_sub (hle : k ≤ j) (hlt : j < k + 2 ^ 32) : (counter j - counter k).toNat = j - k := by
  rw [counter_sub hle, toNat_counter, Nat.mod_eq_of_lt (by omega)]

/-- The cell of element `k`. -/
theorem counter_mod {k size : Nat} (hsize : size ∣ 2 ^ 32) (hlt : size < 2 ^ 32) :
    (counter k % counter size).toNat = k % size := by
  rw [UInt32.toNat_mod, toNat_counter, toNat_counter, Nat.mod_eq_of_lt hlt, Nat.mod_mod_of_dvd k hsize]

/-! ## Cells -/

variable {α : Type} {size lo hi : Nat} {data : Nat → α} {f f' : Nat → α}

/-- The cells have the elements `f` from `lo` up to `hi`. -/
def Window (size : Nat) (data : Nat → α) (lo hi : Nat) (f : Nat → α) : Prop :=
  ∀ k, lo ≤ k → k < hi → data (k % size) = f k

theorem Window.congr (h : Window size data lo hi f) (hf : ∀ k, lo ≤ k → k < hi → f' k = f k) :
    Window size data lo hi f' := by
  intro k hlo hhi
  rw [hf k hlo hhi]
  exact h k hlo hhi

theorem Window.mono {lo' hi' : Nat} (h : Window size data lo hi f) (hlo : lo ≤ lo') (hhi : hi' ≤ hi) :
    Window size data lo' hi' f :=
  fun k hk hk' => h k (hlo.trans hk) (Nat.lt_of_lt_of_le hk' hhi)

/-- An element is added behind the last one, if there is a free cell. -/
theorem Window.push (h : Window size data lo hi f) (hroom : hi < lo + size) :
    Window size (update data (hi % size) (f hi)) lo (hi + 1) f := by
  intro k hlo hhi
  by_cases hk : k = hi
  · rw [hk, update_self]
  · have hne : k % size ≠ hi % size := by
      -- Two numbers less than `size` apart have different remainders.
      intro heq
      have hdvd : size ∣ hi - k := (Nat.modEq_iff_dvd' (by omega)).mp heq
      exact absurd (Nat.le_of_dvd (by omega) hdvd) (by omega)
    rw [update_of_ne hne]
    exact h k hlo (by omega)

end RingBuffer
