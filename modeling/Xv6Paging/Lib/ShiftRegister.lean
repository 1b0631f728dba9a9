import Mathlib

/-! # Shift registers

    A register of `w` bits into which one bit after the other is shifted from the top. It holds
    the last bits, the most recent one on top, and below them what is left of its initial value.
-/

namespace ShiftRegister

variable {w : Nat} {init x y : BitVec w} {bits : List Bool}

/-- Shift a bit in at the top. -/
def shiftIn (b : Bool) (x : BitVec w) : BitVec w :=
  if b = true then x >>> 1 ||| BitVec.twoPow w (w - 1) else x >>> 1

/-- The register `x`, once `init`, has taken in `bits`, the most recent one first. -/
def Recorded (init x : BitVec w) (bits : List Bool) : Prop :=
  ∀ k < w, x.getLsbD k =
    if w - 1 - k < bits.length then bits.getD (w - 1 - k) false else init.getLsbD (k + bits.length)

theorem Recorded.nil (init : BitVec w) : Recorded init init [] := by
  intro k _
  simp

/-- The record determines the register. -/
theorem Recorded.eq (h : Recorded init x bits) (h' : Recorded init y bits) : x = y := by
  refine BitVec.eq_of_getLsbD_eq fun k hk => ?_
  rw [h k hk, h' k hk]

theorem recorded_nil_iff : Recorded init x [] ↔ x = init :=
  ⟨fun h => h.eq (.nil init), fun h => h ▸ .nil x⟩

theorem getLsbD_shiftIn : (shiftIn b x).getLsbD k = if k + 1 = w then b else x.getLsbD (k + 1) := by
  have htop : (BitVec.twoPow w (w - 1)).getLsbD k = decide (k + 1 = w) := by
    rw [BitVec.getLsbD_twoPow]
    simp only [← Bool.decide_and, decide_eq_decide]
    omega
  have hshift : (x >>> 1).getLsbD k = x.getLsbD (k + 1) := by
    rw [BitVec.getLsbD_ushiftRight, Nat.add_comm]
  have hout : x.getLsbD w = false := BitVec.getLsbD_of_ge x w le_rfl
  unfold shiftIn
  by_cases hw : k + 1 = w
  · rw [if_pos hw]
    cases b with
    | true => simp [BitVec.getLsbD_or, htop, hw]
    | false => simp only [Bool.false_eq_true, if_false, hshift, hw, hout]
  · rw [if_neg hw]
    cases b with
    | true => simp [BitVec.getLsbD_or, htop, hw, hshift]
    | false => simp only [Bool.false_eq_true, if_false, hshift]

theorem Recorded.shiftIn (h : Recorded init x bits) (b : Bool) :
    Recorded init (shiftIn b x) (b :: bits) := by
  intro k hk
  rw [getLsbD_shiftIn]
  by_cases hw : k + 1 = w
  · have h0 : w - 1 - k = 0 := by omega
    simp [hw, h0]
  · obtain ⟨j, hj⟩ : ∃ j, w - 1 - k = j + 1 := ⟨w - 1 - k - 1, by omega⟩
    have hj' : w - 1 - (k + 1) = j := by omega
    rw [if_neg hw, h (k + 1) (by omega), hj', hj]
    simp only [List.length_cons, Nat.add_lt_add_iff_right, List.getD_cons_succ]
    congr 2
    omega

end ShiftRegister
