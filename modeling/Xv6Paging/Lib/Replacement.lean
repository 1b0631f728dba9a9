import Mathlib

/-! # Choosing a page to replace

    Page replacement policies on the queue of resident pages, oldest first: second chance,
    the smallest counter, and a queue in which pages that were used fall back behind their
    successor.
-/

namespace Replacement

open List

variable {A : Type}
  {candidate used : A → Bool} {l : List A} {i x : A}

/-! ## Second chance -/

/-- The first candidate that was not used, or else the first candidate. -/
def secondChance (candidate used : A → Bool) (l : List A) : Option A :=
  (l.find? fun i => candidate i && !used i).or (l.find? candidate)

/-- Either some candidate was not used and the first such is taken, or all of them were used. -/
theorem secondChance_cases (used : A → Bool) (h : ∃ i ∈ l, candidate i = true) :
    ∃ xs i ys, l = xs ++ i :: ys ∧ secondChance candidate used l = some i ∧ candidate i = true ∧
      ((used i = false ∧ ∀ x ∈ xs, candidate x = true → used x = true) ∨
        ((∀ x ∈ l, candidate x = true → used x = true) ∧ ∀ x ∈ xs, candidate x = false)) := by
  unfold secondChance
  cases hfind : l.find? fun i => candidate i && !used i with
  | some i =>
    obtain ⟨hi, xs, ys, rfl, hxs⟩ := find?_eq_some_iff_append.mp hfind
    simp only [Bool.and_eq_true, Bool.not_eq_eq_eq_not, Bool.not_true] at hi
    refine ⟨xs, i, ys, rfl, rfl, hi.1, .inl ⟨hi.2, fun x hx hc => ?_⟩⟩
    simpa [hc] using hxs x hx
  | none =>
    have hall : ∀ x ∈ l, candidate x = true → used x = true := by
      intro x hx hc
      simpa [hc] using find?_eq_none.mp hfind x hx
    cases hfind' : l.find? candidate with
    | none =>
      obtain ⟨i, hi, hc⟩ := h
      exact absurd hc (find?_eq_none.mp hfind' i hi)
    | some i =>
      obtain ⟨hi, xs, ys, rfl, hxs⟩ := find?_eq_some_iff_append.mp hfind'
      refine ⟨xs, i, ys, rfl, rfl, hi, .inr ⟨hall, fun x hx => ?_⟩⟩
      simpa using hxs x hx

theorem secondChance_map {B : Type} (f : B → A) (l : List B) : secondChance candidate used (l.map f) =
    (secondChance (candidate ∘ f) (used ∘ f) l).map f := by
  unfold secondChance
  rw [find?_map, find?_map, Option.map_or]
  rfl

/-- The pages that second chance passes over at least once. -/
def passedOver (candidate used : A → Bool) (l : List A) : List A :=
  l.takeWhile fun i => !candidate i || used i

theorem passedOver_all (h : ∀ x ∈ l, candidate x = true → used x = true) :
    passedOver candidate used l = l := by
  refine takeWhile_eq_self_iff.mpr fun x hx => ?_
  have := h x hx
  cases hc : candidate x <;> simp_all

theorem passedOver_of_not_used {xs ys : List A} (hi : candidate i = true) (hu : used i = false)
    (h : ∀ x ∈ xs, candidate x = true → used x = true) :
    passedOver candidate used (xs ++ i :: ys) = xs := by
  have hxs : xs.takeWhile (fun i => !candidate i || used i) = xs := passedOver_all h
  rw [passedOver, takeWhile_append, hxs, if_pos rfl, takeWhile_cons_of_neg (by simp [hi, hu]),
    append_nil]

/-! ## Smallest counter -/

section Counter

variable {K : Type} [LT K] [DecidableLT K]

/-- The scan behind `best` for a candidate with a smaller counter. -/
def smallest (candidate : A → Bool) (counter : A → K) (best : A) (l : List A) : A :=
  l.foldl (fun best i => if candidate i = true ∧ counter i < counter best then i else best) best

theorem smallest_mem (candidate : A → Bool) (counter : A → K) (best : A) (l : List A) :
    smallest candidate counter best l ∈ best :: l := by
  induction l generalizing best with
  | nil => exact mem_cons_self
  | cons i l ih =>
    have := ih (if candidate i = true ∧ counter i < counter best then i else best)
    unfold smallest at this ⊢
    rw [foldl_cons]
    split_ifs at this ⊢
    · exact mem_cons_of_mem _ this
    · rcases mem_cons.mp this with h | h
      · rw [h]
        exact mem_cons_self
      · exact mem_cons_of_mem _ (mem_cons_of_mem _ h)

theorem smallest_map {B : Type} (counter : A → K) (f : B → A) (best : B) (l : List B) :
    smallest candidate counter (f best) (l.map f) =
      f (smallest (candidate ∘ f) (counter ∘ f) best l) := by
  induction l generalizing best with
  | nil => rfl
  | cons i l ih =>
    unfold smallest at ih ⊢
    rw [map_cons, foldl_cons, foldl_cons, ← ih]
    simp only [Function.comp_apply, apply_ite f]

/-- Only the order of the counters matters. -/
theorem smallest_comp {K' : Type} [LT K'] [DecidableLT K'] {f : K → K'}
    (hf : ∀ a b, f a < f b ↔ a < b) (candidate : A → Bool) (counter : A → K) (best : A) (l : List A) :
    smallest candidate (fun i => f (counter i)) best l = smallest candidate counter best l := by
  unfold smallest
  simp only [hf]

end Counter

/-- The scan keeps `best` if no candidate has a smaller counter; otherwise it ends with the first
    of the candidates with the smallest one. -/
theorem smallest_cases {K : Type} [LinearOrder K] (candidate : A → Bool) (counter : A → K) (best : A)
    (l : List A) :
    (smallest candidate counter best l = best ∧
      ∀ x ∈ l, candidate x = true → counter best ≤ counter x) ∨
    ∃ xs i ys, smallest candidate counter best l = i ∧ l = xs ++ i :: ys ∧ candidate i = true ∧
      counter i < counter best ∧ (∀ x ∈ xs, candidate x = true → counter i < counter x) ∧
      ∀ y ∈ ys, candidate y = true → counter i ≤ counter y := by
  induction l generalizing best with
  | nil => exact .inl ⟨rfl, by simp⟩
  | cons j l ih =>
    have hstep : smallest candidate counter best (j :: l) =
        smallest candidate counter (if candidate j = true ∧ counter j < counter best then j else best) l :=
      rfl
    rw [hstep]
    by_cases htake : candidate j = true ∧ counter j < counter best
    · rw [if_pos htake]
      rcases ih j with ⟨hr, hmin⟩ | ⟨xs, i, ys, hr, rfl, hi, hlt, hxs, hys⟩
      · exact .inr ⟨[], j, l, hr, rfl, htake.1, htake.2, by simp, hmin⟩
      · refine .inr ⟨j :: xs, i, ys, hr, rfl, hi, hlt.trans htake.2, ?_, hys⟩
        intro x hx
        rcases mem_cons.mp hx with rfl | hx
        · exact fun _ => hlt
        · exact hxs x hx
    · rw [if_neg htake]
      have hj : candidate j = true → counter best ≤ counter j := fun hc =>
        not_lt.mp fun hlt => htake ⟨hc, hlt⟩
      rcases ih best with ⟨hr, hmin⟩ | ⟨xs, i, ys, hr, rfl, hi, hlt, hxs, hys⟩
      · refine .inl ⟨hr, fun x hx => ?_⟩
        rcases mem_cons.mp hx with rfl | hx
        · exact hj
        · exact hmin x hx
      · refine .inr ⟨j :: xs, i, ys, hr, rfl, hi, hlt, ?_, hys⟩
        intro x hx
        rcases mem_cons.mp hx with rfl | hx
        · exact fun hc => hlt.trans_le (hj hc)
        · exact hxs x hx

/-! ## Falling back -/

/-- Every used page changes places with its successor if that was not used; a page moves once. -/
def advance (used : A → Bool) : List A → List A
  | i :: j :: l => if used i = true ∧ used j = false then j :: i :: advance used l else i :: advance used (j :: l)
  | l => l

theorem advance_cons_of_not (h : used i = false) (l : List A) :
    advance used (i :: l) = i :: advance used l := by
  cases l with
  | nil => rfl
  | cons j l => rw [advance, if_neg (by simp [h])]

theorem advance_congr {used' : A → Bool} (h : ∀ i ∈ l, used' i = used i) :
    advance used' l = advance used l := by
  induction l using advance.induct used with
  | case1 i j l hc ih =>
    rw [advance, advance, h i (by simp), h j (by simp), if_pos hc, if_pos hc,
      ih fun k hk => h k (mem_cons_of_mem _ (mem_cons_of_mem _ hk))]
  | case2 i j l hc ih =>
    rw [advance, advance, h i (by simp), h j (by simp), if_neg hc, if_neg hc,
      ih fun k hk => h k (mem_cons_of_mem _ hk)]
  | case3 l hl =>
    cases l with
    | nil => rfl
    | cons i l =>
      cases l with
      | nil => rfl
      | cons j l => exact absurd rfl (hl i j l)

theorem advance_perm (used : A → Bool) (l : List A) : (advance used l).Perm l := by
  induction l using advance.induct used with
  | case1 i j l hc ih =>
    rw [advance, if_pos hc]
    exact (List.Perm.swap i j _).trans ((ih.cons j).cons i)
  | case2 i j l hc ih =>
    rw [advance, if_neg hc]
    exact ih.cons i
  | case3 l hl =>
    cases l with
    | nil => exact List.Perm.refl _
    | cons i l =>
      cases l with
      | nil => exact List.Perm.refl _
      | cons j l => exact absurd rfl (hl i j l)

/-- Every page moves by one place at most: used pages towards the end, the others towards the
    front. -/
theorem advance_idxOf [BEq A] [LawfulBEq A] (hnd : l.Nodup) (hx : x ∈ l) :
    (advance used l).idxOf x ≤ l.idxOf x + 1 ∧ l.idxOf x ≤ (advance used l).idxOf x + 1 ∧
      (used x = true → l.idxOf x ≤ (advance used l).idxOf x) ∧
      (used x = false → (advance used l).idxOf x ≤ l.idxOf x) := by
  induction l using advance.induct used with
  | case1 i j l hc ih =>
    simp only [nodup_cons, mem_cons, not_or] at hnd
    obtain ⟨⟨hij, hil⟩, hjl, hnd⟩ := hnd
    rw [advance, if_pos hc]
    by_cases hxi : x = i
    · subst hxi
      simp [idxOf_cons, hc.1, beq_false_of_ne (Ne.symm hij)]
    by_cases hxj : x = j
    · subst hxj
      simp [idxOf_cons, hc.2, beq_false_of_ne hij]
    have hxl : x ∈ l := by simpa [hxi, hxj] using hx
    have := ih hnd hxl
    simp only [idxOf_cons, beq_false_of_ne (Ne.symm hxi), beq_false_of_ne (Ne.symm hxj), cond_false]
    refine ⟨by omega, by omega, fun hu => ?_, fun hu => ?_⟩
    · have := this.2.2.1 hu
      omega
    · have := this.2.2.2 hu
      omega
  | case2 i j l hc ih =>
    rw [advance, if_neg hc]
    by_cases hxi : x = i
    · subst hxi
      simp
    have := ih (nodup_cons.mp hnd).2 (by simpa [hxi] using hx)
    rw [idxOf_cons_ne _ (Ne.symm hxi), idxOf_cons_ne _ (Ne.symm hxi)]
    refine ⟨by omega, by omega, fun hu => ?_, fun hu => ?_⟩
    · have := this.2.2.1 hu
      omega
    · have := this.2.2.2 hu
      omega
  | case3 l hl =>
    cases l with
    | nil => cases hx
    | cons i l =>
      cases l with
      | nil => simp [advance]
      | cons j l => exact absurd rfl (hl i j l)

/-- A used page changes places with a successor that was not used. -/
theorem advance_exchange (hx : l[k]? = some x) (hy : l[k + 1]? = some y)
    (hux : used x = true) (huy : used y = false) :
    (advance used l)[k]? = some y ∧ (advance used l)[k + 1]? = some x := by
  induction l using advance.induct used generalizing k with
  | case1 i j l hc ih =>
    rw [advance, if_pos hc]
    match k with
    | 0 =>
      simp only [getElem?_cons_zero, getElem?_cons_succ, Option.some.injEq] at hx hy ⊢
      exact ⟨hy, hx⟩
    | 1 =>
      simp only [getElem?_cons_zero, getElem?_cons_succ, Option.some.injEq] at hx
      rw [← hx, hc.2] at hux
      cases hux
    | k + 2 => exact ih hx hy
  | case2 i j l hc ih =>
    rw [advance, if_neg hc]
    match k with
    | 0 =>
      simp only [getElem?_cons_zero, getElem?_cons_succ, Option.some.injEq] at hx hy
      exact absurd ⟨hx ▸ hux, hy ▸ huy⟩ hc
    | k + 1 => exact ih hx hy
  | case3 l hl =>
    cases l with
    | nil => cases hx
    | cons i l =>
      cases l with
      | nil => simp at hy
      | cons j l => exact absurd rfl (hl i j l)

end Replacement
