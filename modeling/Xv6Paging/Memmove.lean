import Mathlib

/-! # The two versions of `memmove`

    The kernel's `memmove` copies downwards where the destination lies above the source and
    overlaps it. That of the user library always copies upwards, and it takes the length as a
    signed number.
-/

namespace Xv6Paging

open Function

/-- The address space, one byte per address. -/
abbrev Bytes : Type := BitVec 32 → UInt8

/-- `k` turns of `*d = *s` after each of which both pointers move by `step`. -/
def copyLoop (step : BitVec 32) : Nat → BitVec 32 → BitVec 32 → Bytes → Bytes
  | 0, _, _, mem => mem
  | k + 1, s, d, mem => copyLoop step k (s + step) (d + step) (update mem d (mem s))

/-- `memmove` of `string.c`: the pointer it returns, and memory. -/
def Kstring.memmove (dst src n : BitVec 32) (mem : Bytes) : BitVec 32 × Bytes :=
  if src < dst ∧ src + n > dst then
    -- `*--d = *--s`
    (dst, copyLoop (-1) n.toNat (src + n - 1) (dst + n - 1) mem)
  else
    (dst, copyLoop 1 n.toNat src dst mem)

/-- `memmove` of `ulib.c`, where `n` is an `int`. -/
def Ulib.memmove (vdst vsrc n : BitVec 32) (mem : Bytes) : BitVec 32 × Bytes :=
  (vdst, copyLoop 1 n.toInt.toNat vsrc vdst mem)

/-- The bytes at `dst` are those that were at `src`; nothing else has changed. -/
def Moved (dst src n : BitVec 32) (mem : Bytes) (r : BitVec 32 × Bytes) : Prop :=
  r.1 = dst ∧ ∀ a, r.2 a = if a - dst < n then mem (src + (a - dst)) else mem a

variable {k : Nat} {s d a x dst src n : BitVec 32} {mem : Bytes}

/-! ## The loop -/

/-- Where no turn writes what a later one reads, the loop copies. -/
theorem copyLoop_up (hk : k < 2 ^ 32) (h : d = s ∨ k ≤ (d - s).toNat) :
    copyLoop 1 k s d mem a = if (a - d).toNat < k then mem (s + (a - d)) else mem a := by
  induction k generalizing s d mem with
  | zero => rfl
  | succ k ih =>
    rw [copyLoop, ih (by omega) (by bv_omega), show s + 1 + (a - (d + 1)) = s + (a - d) by bv_omega]
    by_cases had : a = d
    · subst had
      rw [if_neg (by bv_omega), if_pos (by simp), update_self, BitVec.sub_self, BitVec.add_zero]
    · have hone : (a - d).toNat = (a - (d + 1)).toNat + 1 := by bv_omega
      rw [hone, update_of_ne had]
      split_ifs with hin hin' hin'
      · exact update_of_ne (by bv_omega) ..
      · omega
      · omega
      · rfl

/-- Copying downwards is copying upwards in the mirrored address space. -/
theorem copyLoop_down :
    copyLoop (-1) k s d mem a = copyLoop 1 k (-s) (-d) (fun b => mem (-b)) (-a) := by
  induction k generalizing s d mem with
  | zero => rw [copyLoop, copyLoop, BitVec.neg_neg]
  | succ k ih =>
    rw [copyLoop, copyLoop, ih, show -(s + -1) = -s + 1 by bv_omega,
      show -(d + -1) = -d + 1 by bv_omega, BitVec.neg_neg]
    congr 1
    funext b
    by_cases hb : b = -d
    · rw [hb, BitVec.neg_neg, update_self, update_self]
    · rw [update_of_ne hb, update_of_ne (by bv_omega)]

theorem copyLoop_frame (h : k ≤ (a - d).toNat) : copyLoop 1 k s d mem a = mem a := by
  induction k generalizing s d mem with
  | zero => rfl
  | succ k ih => rw [copyLoop, ih (by bv_omega), update_of_ne (by bv_omega)]

/-- Copying upwards to a higher address, the loop does not touch what it has read. -/
theorem copyLoop_same (mem : Bytes) (hk : k ≤ (s - d).toNat) (hx : x.toNat < k) :
    copyLoop 1 k s d mem (d + x) = copyLoop 1 k s d mem (s + x) := by
  induction k generalizing s d x mem with
  | zero => omega
  | succ k ih =>
    rw [copyLoop]
    by_cases h0 : x = 0#32
    · subst h0
      rw [copyLoop_frame (by bv_omega), copyLoop_frame (by bv_omega), BitVec.add_zero,
        BitVec.add_zero, update_self, update_of_ne (by bv_omega)]
    · have hnext := @ih (s + 1) (d + 1) (x - 1) (update mem d (mem s)) (by bv_omega) (by bv_omega)
      rwa [show d + 1 + (x - 1) = d + x by bv_omega,
        show s + 1 + (x - 1) = s + x by bv_omega] at hnext

/-! ## Both versions -/

theorem Kstring.memmove_moved (hsrc : src.toNat + n.toNat ≤ 2 ^ 32)
    (hdst : dst.toNat + n.toNat ≤ 2 ^ 32) : Moved dst src n mem (memmove dst src n mem) := by
  unfold memmove
  split
  · rename_i hover
    refine ⟨rfl, fun a => ?_⟩
    dsimp only
    have hapart : n.toNat ≤ (src - dst).toNat := by bv_omega
    have hin : ∀ x : BitVec 32, (n - 1 - x).toNat < n.toNat ↔ x < n := fun x => by bv_omega
    have hdist : -(dst + n - 1) - -(src + n - 1) = src - dst := by grind
    have hindex : -a - -(dst + n - 1) = n - 1 - (a - dst) := by grind
    have hread : -(-(src + n - 1) + (n - 1 - (a - dst))) = src + (a - dst) := by grind
    rw [copyLoop_down, copyLoop_up n.isLt (.inr (hdist ▸ hapart)), hindex, hread, BitVec.neg_neg]
    exact if_congr (hin _) rfl rfl
  · refine ⟨rfl, fun a => ?_⟩
    dsimp only
    rw [copyLoop_up n.isLt (by bv_omega)]
    exact if_congr (by bv_omega) rfl rfl

/-- When the user's version does the same: for a negative `n`, which moves nothing, the bytes are
    those of the source already; otherwise what overlaps the source repeats it. -/
def UserSafe (dst src n : BitVec 32) (mem : Bytes) : Prop :=
  ∀ x : BitVec 32, (if n.toInt < 0 then x.toNat else x.toNat + (dst - src).toNat) < n.toNat →
    mem (dst + x) = mem (src + x)

theorem Ulib.memmove_moved_iff (hsrc : src.toNat + n.toNat ≤ 2 ^ 32)
    (hdst : dst.toNat + n.toNat ≤ 2 ^ 32) :
    Moved dst src n mem (memmove dst src n mem) ↔ UserSafe dst src n mem := by
  unfold memmove UserSafe
  by_cases hneg : n.toInt < 0
  · rw [show n.toInt.toNat = 0 by omega]
    simp only [hneg, if_true, copyLoop, Moved, true_and]
    refine ⟨fun h x hx => ?_, fun h a => ?_⟩
    · have hmoved := h (dst + x)
      rwa [show dst + x - dst = x by bv_omega, if_pos (by bv_omega)] at hmoved
    · split
      · rename_i hin
        have hsame := h (a - dst) (by bv_omega)
        rwa [show dst + (a - dst) = a by bv_omega] at hsame
      · rfl
  have hpos : n.toInt.toNat = n.toNat := by
    have hcond := BitVec.toInt_eq_toNat_cond n
    split at hcond <;> omega
  rw [hpos]
  simp only [hneg, if_false, Moved, true_and]
  by_cases hle : src < dst
  · -- The loop reads what it has written.
    refine ⟨fun h x hx => ?_, fun h a => ?_⟩
    · have hx' : (x + (dst - src)).toNat < n.toNat := by bv_omega
      have hread := copyLoop_same (s := src) (d := dst) mem (by bv_omega) hx'
      rw [show src + (x + (dst - src)) = dst + x by bv_omega, h, h, if_pos (by bv_omega),
        if_pos (by bv_omega), show dst + (x + (dst - src)) - dst = x + (dst - src) by bv_omega,
        show src + (x + (dst - src)) = dst + x by bv_omega, show dst + x - dst = x by bv_omega] at hread
      exact hread
    · split
      · rename_i hin
        have hall : ∀ (k : Nat) (x : BitVec 32), x.toNat = k → x < n →
            copyLoop 1 n.toNat src dst mem (dst + x) = mem (src + x) := by
          intro k
          induction k using Nat.strongRecOn with
          | ind k ih =>
            intro x hk hx
            rw [copyLoop_same _ (by bv_omega) (by bv_omega)]
            by_cases hlow : x < dst - src
            · exact copyLoop_frame (by bv_omega)
            · have hback := ih (x - (dst - src)).toNat (by bv_omega) _ rfl (by bv_omega)
              rw [← h (x - (dst - src)) (by bv_omega),
                show dst + (x - (dst - src)) = src + x by bv_omega] at hback
              exact hback
        have hmoved := hall _ (a - dst) rfl hin
        rwa [show dst + (a - dst) = a by bv_omega] at hmoved
      · exact copyLoop_frame (by bv_omega)
  · refine iff_of_true (fun a => ?_) fun x hx => ?_
    · rw [copyLoop_up n.isLt (by bv_omega)]
      exact if_congr (by bv_omega) rfl rfl
    · rw [show dst = src by bv_omega]

/-- For ranges that do not wrap around, both versions move the bytes exactly if the user's does
    not read what it has written, or that makes no difference. -/
theorem memmove_agree_iff (hsrc : src.toNat + n.toNat ≤ 2 ^ 32)
    (hdst : dst.toNat + n.toNat ≤ 2 ^ 32) :
    Moved dst src n mem (Kstring.memmove dst src n mem) ∧
        Moved dst src n mem (Ulib.memmove dst src n mem) ↔
      UserSafe dst src n mem := by
  rw [Ulib.memmove_moved_iff hsrc hdst]
  exact and_iff_right (Kstring.memmove_moved hsrc hdst)

/-- Each byte is the low byte of its address. -/
def ramp : Bytes := fun a => UInt8.ofNat a.toNat

/-- Two bytes move down by one. -/
theorem memmove_agree_iff_down : Moved 0 1 2 ramp (Kstring.memmove 0 1 2 ramp) ∧
    Moved 0 1 2 ramp (Ulib.memmove 0 1 2 ramp) :=
  (memmove_agree_iff (by decide) (by decide)).mpr fun x hx => by
    rw [if_neg (by decide)] at hx
    bv_omega

/-- Moved up by one, the second byte is lost. -/
theorem memmove_up_loses : Moved 1 0 2 ramp (Kstring.memmove 1 0 2 ramp) ∧
    ¬ Moved 1 0 2 ramp (Ulib.memmove 1 0 2 ramp) := by
  refine ⟨Kstring.memmove_moved (by decide) (by decide), fun h => ?_⟩
  exact absurd (h.2 2) (by decide)

end Xv6Paging
