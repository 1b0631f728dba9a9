import Mathlib

/-! # Doubly linked lists

    Two partial functions `next` and `prev` on nodes link a sequence of nodes
    into a null-terminated doubly linked list. `Seg next prev p l q` says that
    the nodes `l` are linked in this order, that the node before the first is
    `p` and the node behind the last is `q`. `IsList` is the whole list with its
    head pointer.

    The operations are stated for any `next'` and `prev'` that differ from the
    old links where the operation writes, so that the order of the writes does
    not matter.
-/

namespace DList

open List

variable {α : Type} {next prev next' prev' : α → Option α}
  {p q : Option α} {l : List α}

/-! ## Segments -/

/-- The nodes `l` are linked in order, between `p` and `q`. -/
def Seg (next prev : α → Option α) : Option α → List α → Option α → Prop
  | _, [], _ => True
  | p, a :: l, q => prev a = p ∧ next a = l.head?.or q ∧ Seg next prev (some a) l q

theorem seg_append {xs ys : List α} :
    Seg next prev p (xs ++ ys) q ↔
      Seg next prev p xs (ys.head?.or q) ∧ Seg next prev (xs.getLast?.or p) ys q := by
  induction xs generalizing p with
  | nil => simp [Seg]
  | cons x xs ih =>
    have hhead : (xs ++ ys).head?.or q = xs.head?.or (ys.head?.or q) := by
      cases xs <;> simp
    have hlast : (x :: xs).getLast?.or p = xs.getLast?.or (some x) := by
      cases h : xs.getLast? <;> simp [getLast?_cons, h]
    simp only [cons_append, Seg, ih, hhead, hlast, and_assoc]

/-- A segment only depends on the links of its own nodes. -/
theorem Seg.congr (h : Seg next prev p l q) (hn : ∀ a ∈ l, next' a = next a)
    (hp : ∀ a ∈ l, prev' a = prev a) :
    Seg next' prev' p l q := by
  induction l generalizing p with
  | nil => trivial
  | cons a l ih =>
    obtain ⟨h1, h2, h3⟩ := h
    refine ⟨?_, ?_, ih h3 ?_ ?_⟩
    · rw [hp a (by simp), h1]
    · rw [hn a (by simp), h2]
    · intro b hb; exact hn b (by simp [hb])
    · intro b hb; exact hp b (by simp [hb])

/-- Let the last node point to another successor. -/
theorem Seg.retarget (h : Seg next prev p l q) (hl : l.Nodup) (hlast : ∀ a, l.getLast? = some a → next' a = q')
    (hn : ∀ a ∈ l, l.getLast? ≠ some a → next' a = next a) (hp : ∀ a ∈ l, prev' a = prev a) :
    Seg next' prev' p l q' := by
  induction l generalizing p with
  | nil => trivial
  | cons a l ih =>
    obtain ⟨h1, h2, h3⟩ := h
    obtain ⟨hal, hl⟩ := nodup_cons.mp hl
    cases l with
    | nil =>
      refine ⟨?_, ?_, trivial⟩
      · rw [hp a (by simp), h1]
      · simpa using hlast a (by simp)
    | cons b l =>
      have hne : (a :: b :: l).getLast? ≠ some a := by
        rw [getLast?_cons_cons]
        intro hlt
        exact hal (mem_of_getLast? hlt)
      refine ⟨?_, ?_, ih h3 hl ?_ ?_ ?_⟩
      · rw [hp a (by simp), h1]
      · rw [hn a (by simp) hne, h2]; simp
      · intro x hx; exact hlast x (by simpa using hx)
      · intro x hx hxl; exact hn x (by simp [hx]) (by simpa using hxl)
      · intro x hx; exact hp x (by simp [hx])

/-- Let the first node point back to another predecessor. -/
theorem Seg.rebase (h : Seg next prev p l q) (hl : l.Nodup) (hhead : ∀ a, l.head? = some a → prev' a = p')
    (hp : ∀ a ∈ l, l.head? ≠ some a → prev' a = prev a) (hn : ∀ a ∈ l, next' a = next a) :
    Seg next' prev' p' l q := by
  cases l with
  | nil => trivial
  | cons a l =>
    obtain ⟨_, h2, h3⟩ := h
    obtain ⟨hal, _⟩ := nodup_cons.mp hl
    refine ⟨hhead a (by simp), ?_, h3.congr ?_ ?_⟩
    · rw [hn a (by simp), h2]
    · intro b hb; exact hn b (by simp [hb])
    · intro b hb
      refine hp b (by simp [hb]) ?_
      rintro hab
      cases hab
      exact hal hb

/-! ## Lists -/

/-- Following `next` from `head` visits the nodes `l` and ends. -/
def Walk (next : α → Option α) : Option α → List α → Prop
  | head, [] => head = none
  | head, a :: l => head = some a ∧ Walk next (next a) l

/-- `head` is the head pointer of the linked list of the nodes `l`. -/
structure IsList (next prev : α → Option α) (head : Option α) (l : List α) : Prop where
  head_eq : head = l.head?
  nodup : l.Nodup
  seg : Seg next prev none l none

namespace IsList

variable {head : Option α} {xs ys : List α} {i j : α}

theorem prev_eq (h : IsList next prev head (xs ++ i :: ys)) : prev i = xs.getLast? := by
  have hs := (seg_append.mp h.seg).2
  simpa using hs.1

theorem next_eq (h : IsList next prev head (xs ++ i :: ys)) : next i = ys.head? := by
  have hs := (seg_append.mp h.seg).2
  simpa using hs.2.1

theorem walk (h : IsList next prev head l) : Walk next head l := by
  have hseg : ∀ {l : List α} {p : Option α}, Seg next prev p l none → Walk next l.head? l := by
    intro l
    induction l with
    | nil => exact fun _ => rfl
    | cons a l ih =>
      intro p hs
      refine ⟨rfl, ?_⟩
      rw [hs.2.1, Option.or_none]
      exact ih hs.2.2
  rw [h.head_eq]
  exact hseg h.seg

/-- Following `next` from a node of the list stays in the list. -/
theorem next_mem (h : IsList next prev head l) (hi : i ∈ l) (hj : next i = some j) : j ∈ l := by
  obtain ⟨xs, ys, rfl⟩ := append_of_mem hi
  rw [h.next_eq] at hj
  simp [mem_of_head? hj]

/-- Put the nodes `ns` in the place of the nodes `ms`: besides their own links, those of the two
    neighbours change. -/
theorem splice [DecidableEq α] {ms ns : List α} (h : IsList next prev head (xs ++ (ms ++ ys)))
    (hnd : (xs ++ (ns ++ ys)).Nodup) (hns : Seg next' prev' xs.getLast? ns ys.head?)
    (hn : ∀ a ∈ xs ++ ys, next' a = if xs.getLast? = some a then (ns ++ ys).head? else next a)
    (hp : ∀ a ∈ xs ++ ys, prev' a = if ys.head? = some a then (xs ++ ns).getLast? else prev a) :
    IsList next' prev' (xs ++ (ns ++ ys)).head? (xs ++ (ns ++ ys)) := by
  obtain ⟨hx, hy⟩ := seg_append.mp h.seg
  obtain ⟨-, hy⟩ := seg_append.mp hy
  obtain ⟨hndx, hndy, hdis⟩ := nodup_append.mp hnd
  have hxy : ∀ a ∈ xs, a ∉ ys := fun a ha hay => hdis a ha a (by simp [hay]) rfl
  refine ⟨rfl, hnd, seg_append.mpr ⟨hx.retarget hndx ?_ ?_ ?_, seg_append.mpr ⟨by simpa using hns,
    hy.rebase (nodup_append.mp hndy).2.1 ?_ ?_ ?_⟩⟩⟩
  · intro a ha
    rw [hn a (by simp [mem_of_getLast? ha]), if_pos ha, Option.or_none]
  · intro a ha hlast
    rw [hn a (by simp [ha]), if_neg hlast]
  · intro a ha
    rw [hp a (by simp [ha]), if_neg fun hh => hxy a ha (mem_of_head? hh)]
  · intro a ha
    rw [hp a (by simp [mem_of_head? ha]), if_pos ha, getLast?_append, Option.or_none]
  · intro a ha hhead
    rw [hp a (by simp [ha]), if_neg hhead]
  · intro a ha
    rw [hn a (by simp [ha]), if_neg fun hh => hxy a (mem_of_getLast? hh) ha]

end IsList

end DList
