import Mathlib

/-! # Circular singly linked lists

    A function `next` on nodes links a head `h` and nodes `l` into a cycle when the list
    `h, l, h` follows it. Any node of a cycle may be taken as its head.
-/

namespace CircularList

open List Function

variable {α : Type} {next next' : α → α} {h x p : α} {l xs ys zs us : List α}

/-- A list of nodes each of which leads to the one after it. -/
def Path (next : α → α) (l : List α) : Prop := l.IsChain fun x y => next x = y

theorem path_singleton (next : α → α) (x : α) : Path next [x] := .singleton x

theorem path_cons_cons : Path next (x :: y :: l) ↔ next x = y ∧ Path next (y :: l) :=
  isChain_cons_cons

theorem path_split : Path next (xs ++ x :: ys) ↔ Path next (xs ++ [x]) ∧ Path next (x :: ys) :=
  isChain_split

/-- The nodes `l` in a cycle with head `h`. -/
structure IsCycle (next : α → α) (h : α) (l : List α) : Prop where
  links : Path next (h :: l ++ [h])
  nodup : (h :: l).Nodup

/-- A path only depends on `next` of all nodes but the last. -/
theorem path_congr (hl : Path next (us ++ [p])) (hn : ∀ x ∈ us, next' x = next x) :
    Path next' (us ++ [p]) := by
  induction us with
  | nil => exact path_singleton next' p
  | cons x us ih =>
    obtain ⟨hx, hrest⟩ := isChain_cons.mp hl
    refine isChain_cons.mpr ⟨fun y hy => ?_, ih hrest fun z hz => hn z (mem_cons_of_mem x hz)⟩
    rw [hn x mem_cons_self]
    exact hx y hy

section Update

variable [DecidableEq α] {y : α}

theorem path_update (hl : Path next (us ++ [p])) (hy : y ∉ us) :
    Path (update next y x) (us ++ [p]) :=
  path_congr hl fun z hz => update_of_ne (fun he : z = y => hy (he ▸ hz)) ..

/-- A path from another node that is made to lead to the same one. -/
theorem path_relink (hl : Path next (x :: (us ++ [p]))) (hy : y ∉ us) :
    Path (update next y (next x)) (y :: (us ++ [p])) := by
  obtain ⟨hx, hrest⟩ := isChain_cons.mp hl
  refine isChain_cons.mpr ⟨fun z hz => ?_, path_update hrest hy⟩
  rw [update_self]
  exact hx z hz

end Update

/-- A head that points to itself. -/
theorem isCycle_nil (hn : next h = h) : IsCycle next h [] :=
  ⟨path_cons_cons.mpr ⟨hn, path_singleton next h⟩, nodup_singleton h⟩

theorem IsCycle.rotate (hc : IsCycle next h (xs ++ x :: ys)) : IsCycle next x (ys ++ h :: xs) := by
  constructor
  · have hlinks := hc.links
    have hwhole : h :: (xs ++ x :: ys) ++ [h] = h :: xs ++ x :: (ys ++ [h]) := by simp
    rw [hwhole, path_split] at hlinks
    have hnew : x :: (ys ++ h :: xs) ++ [x] = x :: ys ++ h :: (xs ++ [x]) := by simp
    rw [hnew, path_split]
    exact ⟨by simpa using hlinks.2, by simpa using hlinks.1⟩
  · refine (List.Perm.nodup_iff ?_).mp hc.nodup
    calc (h :: (xs ++ x :: ys)).Perm ((h :: xs) ++ (x :: ys)) := by simp
      _ |>.Perm ((x :: ys) ++ (h :: xs)) := perm_append_comm
      _ |>.Perm (x :: (ys ++ h :: xs)) := by simp

/-- A cycle through all nodes, from any of them. -/
theorem IsCycle.from (hc : IsCycle next h l) (hx : x ∈ h :: l) :
    ∃ l', IsCycle next x l' ∧ (x :: l').Perm (h :: l) := by
  rcases mem_cons.mp hx with rfl | hx
  · exact ⟨l, hc, .refl _⟩
  · obtain ⟨xs, ys, rfl⟩ := append_of_mem hx
    refine ⟨ys ++ h :: xs, hc.rotate, ?_⟩
    calc (x :: (ys ++ h :: xs)).Perm ((x :: ys) ++ (h :: xs)) := by simp
      _ |>.Perm ((h :: xs) ++ (x :: ys)) := perm_append_comm
      _ |>.Perm (h :: (xs ++ x :: ys)) := by simp

/-- The way from a node to another one. -/
theorem IsCycle.way (hc : IsCycle next h l) (hx : x ∈ h :: l) (hp : p ∈ h :: l) :
    ∃ us, Path next (us ++ [p]) ∧ (us ++ [p]).head? = some x ∧ p ∉ us ∧ us.length ≤ l.length ∧
      ∀ y ∈ us, y ∈ h :: l := by
  obtain ⟨l', hc', hperm⟩ := hc.from hx
  have hlen : l'.length = l.length := by simpa using hperm.length_eq
  rcases mem_cons.mp (hperm.mem_iff.mpr hp) with rfl | hp'
  · exact ⟨[], path_singleton next p, rfl, nofun, Nat.zero_le _, nofun⟩
  · obtain ⟨us, vs, rfl⟩ := append_of_mem hp'
    have hlinks := hc'.links
    have hwhole : x :: (us ++ p :: vs) ++ [x] = x :: us ++ p :: (vs ++ [x]) := by simp
    rw [hwhole, path_split] at hlinks
    refine ⟨x :: us, hlinks.1, rfl, ?_, ?_, ?_⟩
    · have hnodup : ((x :: us) ++ p :: vs).Nodup := by simpa using hc'.nodup
      intro hmem
      exact (nodup_append.mp hnodup).2.2 p hmem p mem_cons_self rfl
    · simp at hlen
      simp
      omega
    · intro y hy
      refine hperm.mem_iff.mp ?_
      rcases mem_cons.mp hy with rfl | hy
      · exact mem_cons_self
      · simp [hy]

/-- The node before another one, which is not the head. -/
theorem IsCycle.split (hc : IsCycle next h l) (hp : p ∈ h :: l) (hx : next p = x) (hne : x ≠ h) :
    ∃ us xs ys, l = xs ++ x :: ys ∧ h :: xs = us ++ [p] := by
  obtain ⟨us, vs, huv⟩ := append_of_mem hp
  have hlinks := hc.links
  rw [huv] at hlinks
  have hwhole : us ++ p :: vs ++ [h] = us ++ p :: (vs ++ [h]) := by simp
  rw [hwhole, path_split] at hlinks
  cases vs with
  | nil =>
    have hph : next p = h := (path_cons_cons.mp hlinks.2).1
    exact absurd (hx.symm.trans hph) hne
  | cons y ys =>
    have hpy : next p = y := (path_cons_cons.mp hlinks.2).1
    obtain rfl : y = x := hpy.symm.trans hx
    cases us with
    | nil =>
      obtain ⟨rfl, rfl⟩ := List.cons.inj huv
      exact ⟨[], [], ys, rfl, rfl⟩
    | cons u us =>
      obtain ⟨rfl, rfl⟩ := List.cons.inj huv
      exact ⟨h :: us, us ++ [p], ys, by simp, rfl⟩

/-- A cycle is a path up to a node and a path from there back to the head. -/
theorem isCycle_iff (hp : h :: xs = us ++ [p]) : IsCycle next h (xs ++ ys) ↔
    Path next (us ++ [p]) ∧ Path next (p :: (ys ++ [h])) ∧ (h :: (xs ++ ys)).Nodup := by
  have hwhole : h :: (xs ++ ys) ++ [h] = us ++ p :: (ys ++ [h]) := by
    calc h :: (xs ++ ys) ++ [h] = (h :: xs) ++ (ys ++ [h]) := by simp
      _ = us ++ p :: (ys ++ [h]) := by rw [hp]; simp
  constructor
  · intro hc
    have hlinks := hc.links
    rw [hwhole, path_split] at hlinks
    exact ⟨hlinks.1, hlinks.2, hc.nodup⟩
  · rintro ⟨hfront, hback, hnodup⟩
    refine ⟨?_, hnodup⟩
    rw [hwhole, path_split]
    exact ⟨hfront, hback⟩

end CircularList
