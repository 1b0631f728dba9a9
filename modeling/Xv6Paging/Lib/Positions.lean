import Mathlib

/-! # Who is where

    Threads that are in the middle of some piece of code, each at a position of its
    own, as an association list. A thread is moved to a position or moved out; the
    list with a thread's entry in front is a permutation of the list, which is how a
    quantity summed over the threads is followed through a step of one of them.
-/

namespace Positions

open List

variable {ι A : Type} [DecidableEq ι] {l : List (ι × A)} {p : ι} {a : A}

/-- Thread `p` leaves. -/
def drop (l : List (ι × A)) (p : ι) : List (ι × A) := l.filter (·.1 ≠ p)

/-- Thread `p` comes to position `a`. -/
def put (l : List (ι × A)) (p : ι) (a : A) : List (ι × A) := (p, a) :: drop l p

/-- The entry of thread `p` at a position, or of `p` outside. -/
def entry (p : ι) : Option A → List (ι × A)
  | none => []
  | some a => [(p, a)]

/-- Thread `p` comes to position `a`, or leaves. -/
def place (l : List (ι × A)) (p : ι) (a : Option A) : List (ι × A) := entry p a ++ drop l p

@[simp] theorem lookup_put : (put l p a).lookup p = some a := by
  simp [put]

theorem put_ne_nil : put l p a ≠ [] := cons_ne_nil _ _

theorem mem_drop : x ∈ drop l p ↔ x ∈ l ∧ x.1 ≠ p := by
  simp [drop]

theorem not_mem_drop : p ∉ (drop l p).map Prod.fst := by
  rw [mem_map]
  rintro ⟨x, hx, hxp⟩
  exact (mem_drop.mp hx).2 hxp

/-- Every thread is at one position. -/
def Distinct (l : List (ι × A)) : Prop := (l.map Prod.fst).Nodup

theorem distinct_drop (h : Distinct l) (p : ι) : Distinct (drop l p) :=
  h.sublist (filter_sublist.map _)

theorem distinct_put (h : Distinct l) (p : ι) (a : A) : Distinct (put l p a) := by
  refine nodup_cons.mpr ⟨not_mem_drop, distinct_drop h p⟩

theorem drop_of_not_mem (h : p ∉ l.map Prod.fst) : drop l p = l := by
  unfold drop
  rw [filter_eq_self]
  intro x hx
  have hne : x.1 ≠ p := fun he => h (he ▸ mem_map_of_mem hx)
  simpa using hne

/-- A thread that is nowhere is not in the list. -/
theorem drop_of_lookup (h : l.lookup p = none) : drop l p = l := by
  apply drop_of_not_mem
  intro hmem
  obtain ⟨x, hx, rfl⟩ := mem_map.mp hmem
  have hne := lookup_eq_none_iff.mp h x hx
  simp at hne

theorem perm_put (h : Distinct l) (hp : l.lookup p = some a) : l.Perm (put l p a) := by
  induction l with
  | nil => simp at hp
  | cons x l ih =>
    obtain ⟨hx, hl⟩ := nodup_cons.mp h
    rw [lookup_cons] at hp
    by_cases he : p = x.1
    · -- The entry is the first one; no other entry is for `p`.
      subst he
      simp only [beq_self_eq_true] at hp
      cases hp
      have hdrop : drop (x :: l) x.1 = l := by
        have hnot : drop l x.1 = l := drop_of_not_mem hx
        simpa [drop] using hnot
      rw [put, hdrop]
    · have hbeq : (p == x.1) = false := by simpa using he
      rw [hbeq] at hp
      have hdrop : drop (x :: l) p = x :: drop l p := by
        have hne : x.1 ≠ p := fun h => he h.symm
        simp [drop, hne]
      rw [put, hdrop]
      exact ((ih hl hp).cons x).trans (List.Perm.swap _ _ _)

theorem distinct_place (h : Distinct l) (p : ι) (a : Option A) : Distinct (place l p a) := by
  cases a with
  | none => exact distinct_drop h p
  | some a => exact distinct_put h p a

theorem perm_place (h : Distinct l) (p : ι) : l.Perm (place l p (l.lookup p)) := by
  cases hp : l.lookup p with
  | none =>
    show l.Perm (drop l p)
    rw [drop_of_lookup hp]
  | some a => exact perm_put h hp

end Positions
