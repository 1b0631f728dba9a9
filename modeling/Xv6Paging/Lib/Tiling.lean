import Mathlib

/-! # Tilings of memory by blocks

    Blocks are given by their addresses and a function `size`, in units of `u` addresses.
    They tile a set of addresses when each address in the set lies in one of them and no
    other does. Blocks can be joined, cut in two, and added.
-/

namespace Tiling

open List Function

variable {u : Nat} {size size' : Nat → Nat} {bs cs : List Nat} {R S : Nat → Prop} {a b k x : Nat}

/-- Address `x` lies in the block at `a`. -/
def Inside (u : Nat) (size : Nat → Nat) (a x : Nat) : Prop := a ≤ x ∧ x < a + u * size a

/-- The blocks at `a` and `b` do not overlap. -/
def Apart (u : Nat) (size : Nat → Nat) (a b : Nat) : Prop := a + u * size a ≤ b ∨ b + u * size b ≤ a

theorem Apart.symm (h : Apart u size a b) : Apart u size b a := Or.symm h

instance : Std.Symm (Apart u size) := ⟨fun _ _ h => h.symm⟩

/-- The blocks `bs` are not empty, do not overlap, and make up the set `R`. -/
structure Tiled (u : Nat) (size : Nat → Nat) (bs : List Nat) (R : Nat → Prop) : Prop where
  unit : 0 < u
  pos : ∀ a ∈ bs, 0 < size a
  apart : bs.Pairwise (Apart u size)
  cover : ∀ x, (∃ a ∈ bs, Inside u size a x) ↔ R x

theorem tiled_nil (hu : 0 < u) (size : Nat → Nat) : Tiled u size [] fun _ => False :=
  ⟨hu, nofun, .nil, fun x => by simp⟩

section Tiled

variable (h : Tiled u size bs R)

include h

theorem Tiled.perm (hp : bs.Perm cs) : Tiled u size cs R := by
  refine ⟨h.unit, fun a ha => h.pos a (hp.mem_iff.mpr ha), ?_, fun x => ?_⟩
  · exact (hp.pairwise_iff Apart.symm).mp h.apart
  · rw [← h.cover x]
    constructor
    · rintro ⟨a, ha, hx⟩
      exact ⟨a, hp.mem_iff.mpr ha, hx⟩
    · rintro ⟨a, ha, hx⟩
      exact ⟨a, hp.mem_iff.mp ha, hx⟩

theorem Tiled.congr (hs : ∀ a ∈ bs, size' a = size a) : Tiled u size' bs R := by
  refine ⟨h.unit, fun a ha => ?_, ?_, fun x => ?_⟩
  · rw [hs a ha]
    exact h.pos a ha
  · refine h.apart.imp_of_mem ?_
    intro a b ha hb hab
    unfold Apart
    rw [hs a ha, hs b hb]
    exact hab
  · rw [← h.cover x]
    constructor
    · rintro ⟨a, ha, hx⟩
      rw [Inside, hs a ha] at hx
      exact ⟨a, ha, hx⟩
    · rintro ⟨a, ha, hx⟩
      refine ⟨a, ha, ?_⟩
      rw [Inside, hs a ha]
      exact hx

/-- A block starts in the set. -/
theorem Tiled.start (ha : a ∈ bs) : R a := by
  have hpos := Nat.mul_pos h.unit (h.pos a ha)
  exact (h.cover a).mp ⟨a, ha, le_rfl, by omega⟩

/-- The last address of a block is in the set. -/
theorem Tiled.stop (ha : a ∈ bs) : R (a + u * size a - 1) := by
  have hpos := Nat.mul_pos h.unit (h.pos a ha)
  exact (h.cover _).mp ⟨a, ha, by omega, by omega⟩

/-- A block ends before a later one starts. -/
theorem Tiled.stop_le (ha : a ∈ bs) (hb : b ∈ bs) (hlt : a < b) : a + u * size a ≤ b := by
  have hpos := Nat.mul_pos h.unit (h.pos b hb)
  rcases h.apart.forall ha hb hlt.ne with hab | hab
  · exact hab
  · omega

end Tiled

theorem Tiled.not_mem (h : Tiled u size (a :: bs) R) : a ∉ bs := by
  intro hmem
  have hpos := Nat.mul_pos h.unit (h.pos a mem_cons_self)
  rcases (pairwise_cons.mp h.apart).1 a hmem with hab | hab <;> omega

theorem tiled_single (hu : 0 < u) (size : Nat → Nat) (hpos : 0 < size a) : Tiled u size [a] (Inside u size a) :=
  ⟨hu, by simpa using hpos, pairwise_singleton _ _, fun x => by simp⟩

theorem Tiled.of_iff (h : Tiled u size bs R) (hR : ∀ x, R x ↔ S x) : Tiled u size bs S :=
  ⟨h.unit, h.pos, h.apart, fun x => (h.cover x).trans (hR x)⟩

/-- Tilings of disjoint sets are one tiling of their union. -/
theorem Tiled.append (hc : Tiled u size cs S) (h : Tiled u size bs R) (hd : ∀ x, S x → ¬ R x) :
    Tiled u size (cs ++ bs) fun x => S x ∨ R x := by
  refine ⟨h.unit, ?_, pairwise_append.mpr ⟨hc.apart, h.apart, ?_⟩, fun x => ?_⟩
  · exact fun a ha => (mem_append.mp ha).elim (hc.pos a) (h.pos a)
  · intro a ha b hb
    have hposa := Nat.mul_pos h.unit (hc.pos a ha)
    have hposb := Nat.mul_pos h.unit (h.pos b hb)
    unfold Apart
    -- Two intervals that overlap have the larger of their starts in common.
    by_contra hover
    exact hd (max a b) ((hc.cover _).mp ⟨a, ha, by omega, by omega⟩)
      ((h.cover _).mp ⟨b, hb, by omega, by omega⟩)
  · simp only [mem_append, or_and_right, exists_or, hc.cover, h.cover]

/-- The parts of a tiling tile disjoint sets. -/
theorem Tiled.of_append (h : Tiled u size (cs ++ bs) R) :
    ∃ S T : Nat → Prop, Tiled u size cs S ∧ Tiled u size bs T ∧ (∀ x, S x → ¬ T x) ∧
      ∀ x, S x ∨ T x ↔ R x := by
  obtain ⟨hc, hb, hcb⟩ := pairwise_append.mp h.apart
  refine ⟨fun x => ∃ a ∈ cs, Inside u size a x, fun x => ∃ a ∈ bs, Inside u size a x,
    ⟨h.unit, fun a ha => h.pos a (by simp [ha]), hc, fun _ => Iff.rfl⟩,
    ⟨h.unit, fun a ha => h.pos a (by simp [ha]), hb, fun _ => Iff.rfl⟩, ?_, fun x => ?_⟩
  · rintro x ⟨a, ha, hax⟩ ⟨b, hb, hbx⟩
    have hab := hcb a ha b hb
    unfold Inside at hax hbx
    unfold Apart at hab
    omega
  · rw [← h.cover x]
    simp only [mem_append, or_and_right, exists_or]

/-- Two blocks one of which begins where the other ends are one block. -/
theorem Tiled.join (h : Tiled u size (a :: b :: bs) R) (hab : a + u * size a = b) :
    Tiled u (update size a (size a + size b)) (a :: bs) R := by
  obtain ⟨S, T, hS, hT, hd, hR⟩ := (show Tiled u size ([a, b] ++ bs) R from h).of_append
  have hkeep : ∀ c ∈ bs, update size a (size a + size b) c = size c := by
    intro c hc
    have hne : c ≠ a := fun he => h.not_mem (mem_cons_of_mem b (he ▸ hc))
    exact update_of_ne hne ..
  have hpos : 0 < update size a (size a + size b) a := by
    have := h.pos a mem_cons_self
    rw [update_self]
    omega
  have hone : Tiled u (update size a (size a + size b)) [a] S := by
    refine (tiled_single h.unit _ hpos).of_iff fun x => ?_
    rw [← hS.cover x]
    simp only [mem_cons, not_mem_nil, or_false, exists_eq_or_imp, exists_eq_left, Inside,
      update_self, Nat.mul_add]
    omega
  exact (hone.append (hT.congr hkeep) hd).of_iff hR

/-- A block is cut in two, the second of `k` units. -/
theorem Tiled.split (h : Tiled u size (a :: bs) R) (hk : 0 < k) (hlt : k < size a)
    (hb : b = a + u * (size a - k)) :
    Tiled u (update (update size a (size a - k)) b k) (b :: a :: bs) R := by
  obtain ⟨S, T, hS, hT, hd, hR⟩ := (show Tiled u size ([a] ++ bs) R from h).of_append
  have hsum : u * size a = u * (size a - k) + u * k := by
    rw [← Nat.mul_add]
    congr 1
    omega
  have hposk := Nat.mul_pos h.unit hk
  have hposa := Nat.mul_pos h.unit (Nat.sub_pos_of_lt hlt)
  have hself : update (update size a (size a - k)) b k a = size a - k := by
    rw [update_of_ne (by omega), update_self]
  have hkeep : ∀ c ∈ bs, update (update size a (size a - k)) b k c = size c := by
    intro c hc
    have hca : c ≠ a := fun he => h.not_mem (he ▸ hc)
    have hcb : c ≠ b := by
      rintro rfl
      exact hd c ((hS.cover c).mp ⟨a, mem_cons_self, by omega, by omega⟩) (hT.start hc)
    rw [update_of_ne hcb, update_of_ne hca]
  have hsecond := tiled_single h.unit (update (update size a (size a - k)) b k) (a := b)
    (by rw [update_self]; exact hk)
  have hfirst := tiled_single h.unit (update (update size a (size a - k)) b k) (a := a)
    (by rw [hself]; exact Nat.sub_pos_of_lt hlt)
  have hboth : Tiled u (update (update size a (size a - k)) b k) [b, a] S := by
    refine (hsecond.append hfirst fun x => ?_).of_iff fun x => ?_
    · simp only [Inside, update_self, hself]
      omega
    · rw [← hS.cover x]
      simp only [mem_singleton, exists_eq_left, Inside, update_self, hself]
      omega
  exact (hboth.append (hT.congr hkeep) hd).of_iff hR

theorem Tiled.add (h : Tiled u size bs R) (hk : 0 < k) (hnew : ∀ x, a ≤ x → x < a + u * k → ¬ R x) :
    Tiled u (update size a k) (a :: bs) fun x => R x ∨ a ≤ x ∧ x < a + u * k := by
  have hposk := Nat.mul_pos h.unit hk
  have hkeep : ∀ c ∈ bs, update size a k c = size c := by
    intro c hc
    refine update_of_ne ?_ ..
    rintro rfl
    exact hnew c le_rfl (by omega) (h.start hc)
  have hone := tiled_single h.unit (update size a k) (a := a) (by rw [update_self]; exact hk)
  refine (hone.append (h.congr hkeep) fun x hx => ?_).of_iff fun x => ?_
  · rw [Inside, update_self] at hx
    exact hnew x hx.1 hx.2
  · rw [Inside, update_self, or_comm]

end Tiling
