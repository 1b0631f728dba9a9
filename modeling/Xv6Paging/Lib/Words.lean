import Mathlib

/-! # Words in a block of bytes

    A block of bytes read and written as an array of 32-bit little-endian numbers.
-/

namespace Words

variable {blk : Nat → UInt8} {j k v : Nat}

/-- Word `j` of a block. -/
def get (blk : Nat → UInt8) (j : Nat) : Nat :=
  (blk (4 * j)).toNat + 2 ^ 8 * (blk (4 * j + 1)).toNat + 2 ^ 16 * (blk (4 * j + 2)).toNat +
    2 ^ 24 * (blk (4 * j + 3)).toNat

/-- The block with word `j` set to `v`. -/
def set (blk : Nat → UInt8) (j v : Nat) : Nat → UInt8 := fun k =>
  if k / 4 = j then UInt8.ofNat (v / 256 ^ (k % 4)) else blk k

theorem set_byte (hr : r < 4) : (set blk j v (4 * j + r)).toNat = v / 256 ^ r % 256 := by
  have hdiv : (4 * j + r) / 4 = j := by omega
  have hmod : (4 * j + r) % 4 = r := by omega
  rw [set, if_pos hdiv, hmod, UInt8.toNat_ofNat']

theorem get_set_self (hv : v < 2 ^ 32) : get (set blk j v) j = v := by
  have h0 : (set blk j v (4 * j + 0)).toNat = v / 256 ^ 0 % 256 := set_byte (by decide)
  unfold get
  rw [Nat.add_zero] at h0
  rw [h0, set_byte (by decide), set_byte (by decide), set_byte (by decide)]
  omega

/-- A word is its four bytes. -/
theorem get_congr {blk' : Nat → UInt8} (h : ∀ r < 4, blk' (4 * k + r) = blk (4 * k + r)) : get blk' k = get blk k := by
  have h0 := h 0 (by decide)
  rw [Nat.add_zero] at h0
  unfold get
  rw [h0, h 1 (by decide), h 2 (by decide), h 3 (by decide)]

theorem get_set_ne (h : k ≠ j) : get (set blk j v) k = get blk k := by
  refine get_congr fun r hr => ?_
  have hdiv : (4 * k + r) / 4 ≠ j := by omega
  rw [set, if_neg hdiv]

theorem get_zero (j : Nat) : get (fun _ => 0) j = 0 := rfl

/-- The block with the `n` words from `j` on set to `f 0`, `f 1`, and so on. -/
def fill (blk : Nat → UInt8) (j n : Nat) (f : Nat → Nat) : Nat → UInt8 := fun k =>
  if j ≤ k / 4 ∧ k / 4 < j + n then UInt8.ofNat (f (k / 4 - j) / 256 ^ (k % 4)) else blk k

theorem get_fill (hi : i < n) (hv : f i < 2 ^ 32) : get (fill blk j n f) (j + i) = f i := by
  have hset : get (fill blk j n f) (j + i) = get (set blk (j + i) (f i)) (j + i) := by
    refine get_congr fun r hr => ?_
    have hdiv : (4 * (j + i) + r) / 4 = j + i := by omega
    rw [fill, set, hdiv, if_pos rfl, if_pos ⟨by omega, by omega⟩, Nat.add_sub_cancel_left]
  rw [hset, get_set_self hv]

theorem get_fill_out (h : k < j ∨ j + n ≤ k) : get (fill blk j n f) k = get blk k := by
  refine get_congr fun r hr => ?_
  have hdiv : (4 * k + r) / 4 = k := by omega
  rw [fill, hdiv, if_neg (by omega)]

end Words
