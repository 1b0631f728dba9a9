import Mathlib

/-! # Circular doubly linked lists

    Two functions `next` and `prev` on nodes link a sequence of nodes and a head into a
    ring. The ring with head `h` and nodes `l` is the list `h, l, h` in which neighbours
    point to each other. Read backwards, it is a ring with the two functions exchanged.

    The operations are the pointer writes by which a node is taken out and is put behind
    the head.
-/

namespace Ring

open List Function

variable {α : Type} {next prev next' prev' : α → α} {h b : α} {l xs ys : List α}

/-- `y` comes after `x`. -/
def Linked (next prev : α → α) (x y : α) : Prop := next x = y ∧ prev y = x

/-- The nodes `l` in a ring with head `h`. -/
structure IsRing (next prev : α → α) (h : α) (l : List α) : Prop where
  links : (h :: l ++ [h]).IsChain (Linked next prev)
  nodup : (h :: l).Nodup

/-- Links between neighbours only depend on `next` of all nodes but the last, and on `prev` of all
    nodes but the first. -/
theorem links_congr (hl : l.IsChain (Linked next prev)) (hn : ∀ x ∈ l.dropLast, next' x = next x)
    (hp : ∀ y ∈ l.tail, prev' y = prev y) : l.IsChain (Linked next' prev') := by
  induction l with
  | nil => exact .nil
  | cons x l ih =>
    cases l with
    | nil => exact .singleton x
    | cons y l =>
      obtain ⟨hxy, hrest⟩ := isChain_cons_cons.mp hl
      refine isChain_cons_cons.mpr ⟨⟨?_, ?_⟩, ih hrest (fun z hz => ?_) fun z hz => ?_⟩
      · rw [hn x (by simp), hxy.1]
      · rw [hp y (by simp), hxy.2]
      · exact hn z (by rw [dropLast_cons_cons]; exact mem_cons_of_mem x hz)
      · exact hp z (mem_cons_of_mem y hz)

theorem IsRing.reverse (hr : IsRing next prev h l) : IsRing prev next h l.reverse := by
  constructor
  · have hback : (h :: l.reverse ++ [h]) = (h :: l ++ [h]).reverse := by simp
    rw [hback, isChain_reverse]
    exact hr.links.imp fun x y hxy => ⟨hxy.2, hxy.1⟩
  · have hnodup := hr.nodup
    rw [nodup_cons] at hnodup ⊢
    exact ⟨by simpa using hnodup.1, nodup_reverse.mpr hnodup.2⟩

/-- A head that points to itself. -/
theorem isRing_nil (hn : next h = h) (hp : prev h = h) : IsRing next prev h [] :=
  ⟨isChain_cons_cons.mpr ⟨⟨hn, hp⟩, .singleton h⟩, nodup_singleton h⟩

variable [DecidableEq α]

/-! ## Scans -/

/-- `for(x = ...; x != h; x = step x)`, up to the first node with property `p`. With `fuel` for fewer
    nodes than there are, the outer `none` is returned. -/
def scan (step : α → α) (h : α) (p : α → Bool) : Nat → α → Option (Option α)
  | 0, x => if x = h then some none else none
  | fuel + 1, x =>
    if x = h then
      some none
    else if p x = true then
      some (some x)
    else
      scan step h p fuel (step x)

theorem scan_links {fuel : Nat} (hl : (x :: l ++ [h]).IsChain (Linked next prev))
    (hh : h ∉ l) (hf : l.length ≤ fuel) : scan next h p fuel (next x) = some (l.find? p) := by
  induction l generalizing fuel x with
  | nil =>
    rw [(isChain_cons_cons.mp hl).1.1]
    cases fuel <;> simp [scan]
  | cons y l ih =>
    obtain ⟨hxy, hrest⟩ := isChain_cons_cons.mp hl
    have hne : y ≠ h := fun he => hh (he ▸ mem_cons_self)
    cases fuel with
    | zero => exact absurd hf (by simp)
    | succ fuel =>
      rw [hxy.1, scan, if_neg hne, find?_cons]
      cases hp : p y with
      | true => rfl
      | false => exact ih hrest (fun hmem => hh (mem_cons_of_mem y hmem)) (by simpa using hf)

/-- A scan with enough fuel finds the first node in the order of the ring. -/
theorem IsRing.scan_eq {fuel : Nat} (hr : IsRing next prev h l) (hf : l.length ≤ fuel) :
    scan next h p fuel (next h) = some (l.find? p) :=
  scan_links hr.links (nodup_cons.mp hr.nodup).1 hf

/-! ## Edits -/

/-- `b->next->prev = b->prev; b->prev->next = b->next`. -/
def unlink (next prev : α → α) (b : α) : (α → α) × (α → α) :=
  (update next (prev b) (next b), update prev (next b) (prev b))

/-- `b->next = h->next; b->prev = h; h->next->prev = b; h->next = b`. -/
def pushFront (next prev : α → α) (h b : α) : (α → α) × (α → α) :=
  (update (update next b (next h)) h b,
    update (update prev b h) (next h) b)

/-- Take node `b` out: its neighbours are linked to each other. -/
theorem IsRing.unlink (hr : IsRing next prev h (xs ++ b :: ys)) :
    IsRing (Ring.unlink next prev b).1 (Ring.unlink next prev b).2 h (xs ++ ys) := by
  -- The list around `b` is `us, p, b, q, vs`.
  obtain ⟨us, p, hup⟩ : ∃ us p, h :: xs = us ++ [p] :=
    ⟨(h :: xs).dropLast, (h :: xs).getLast (by simp), (dropLast_append_getLast (by simp)).symm⟩
  obtain ⟨q, vs, hqv⟩ : ∃ q vs, ys ++ [h] = q :: vs := by
    cases ys with
    | nil => exact ⟨h, [], rfl⟩
    | cons y ys => exact ⟨y, ys ++ [h], rfl⟩
  have hnodup := hr.nodup
  have hwhole : h :: (xs ++ b :: ys) ++ [h] = us ++ p :: b :: q :: vs := by
    calc h :: (xs ++ b :: ys) ++ [h] = (h :: xs) ++ b :: (ys ++ [h]) := by simp
      _ = us ++ p :: b :: q :: vs := by rw [hup, hqv]; simp
  have hlinks := hr.links
  rw [hwhole] at hlinks
  obtain ⟨hfirst, hrest⟩ := isChain_split.mp hlinks
  obtain ⟨hpb, hrest⟩ := isChain_cons_cons.mp hrest
  obtain ⟨hbq, hlast⟩ := isChain_cons_cons.mp hrest
  have hdis : (h :: xs).Disjoint ys ∧ (h :: xs).Nodup ∧ ys.Nodup ∧ h ∉ ys := by
    have hflat : ((h :: xs) ++ b :: ys).Nodup := by simpa using hnodup
    obtain ⟨hx, hy, hxy⟩ := nodup_append.mp hflat
    refine ⟨fun a ha hay => hxy a ha a (mem_cons_of_mem b hay) rfl, hx, (nodup_cons.mp hy).2,
      fun hh => hxy h mem_cons_self h (mem_cons_of_mem b hh) rfl⟩
  have hunlink : Ring.unlink next prev b = (update next p q, update prev q p) := by
    rw [Ring.unlink, hpb.2, hbq.1]
  rw [hunlink]
  have hpmem : p ∈ h :: xs := by rw [hup]; simp
  have hus : ∀ x ∈ us, x ≠ p := by
    intro x hx
    have hn := hdis.2.1
    rw [hup] at hn
    exact (nodup_append.mp hn).2.2 x hx p (by simp)
  have hvs : ∀ y ∈ vs, y ≠ q := by
    have hn : (ys ++ [h]).Nodup := by
      rw [nodup_append]
      refine ⟨hdis.2.2.1, by simp, fun a ha c hc => ?_⟩
      rw [mem_singleton.mp hc]
      rintro rfl
      exact hdis.2.2.2 ha
    rw [hqv] at hn
    intro y hy
    rintro rfl
    exact (nodup_cons.mp hn).1 hy
  -- No node before `b` comes after it, except that the head closes the ring.
  have hxq : ∀ y ∈ xs, y ≠ q := by
    intro y hy
    rintro rfl
    have hmem : y ∈ ys ++ [h] := by rw [hqv]; simp
    rcases mem_append.mp hmem with hys | hh
    · exact hdis.1 (mem_cons_of_mem h hy) hys
    · rw [mem_singleton.mp hh] at hy
      exact (nodup_cons.mp hdis.2.1).1 hy
  refine ⟨?_, ?_⟩
  · have hnew : h :: (xs ++ ys) ++ [h] = us ++ p :: q :: vs := by
      calc h :: (xs ++ ys) ++ [h] = (h :: xs) ++ (ys ++ [h]) := by simp
        _ = us ++ p :: q :: vs := by rw [hup, hqv]; simp
    rw [hnew, isChain_split, isChain_cons_cons]
    refine ⟨links_congr hfirst (fun x hx => ?_) fun y hy => ?_, ⟨?_, ?_⟩,
      links_congr hlast (fun x hx => ?_) fun y hy => ?_⟩
    · rw [dropLast_concat] at hx
      exact update_of_ne (hus x hx) ..
    · rw [← hup] at hy
      exact update_of_ne (hxq y hy) ..
    · exact update_self ..
    · exact update_self ..
    · rw [← hqv, dropLast_concat] at hx
      refine update_of_ne ?_ ..
      rintro rfl
      exact hdis.1 hpmem hx
    · exact update_of_ne (hvs y hy) ..
  · have hsub : (h :: (xs ++ ys)).Sublist (h :: (xs ++ b :: ys)) := by
      refine List.Sublist.cons_cons h (List.Sublist.append_left ?_ xs)
      exact sublist_cons_self b ys
    exact hnodup.sublist hsub

theorem IsRing.pushFront (hr : IsRing next prev h l) (hb : b ∉ h :: l) :
    IsRing (Ring.pushFront next prev h b).1 (Ring.pushFront next prev h b).2 h (b :: l) := by
  obtain ⟨q, vs, hqv⟩ : ∃ q vs, l ++ [h] = q :: vs := by
    cases l with
    | nil => exact ⟨h, [], rfl⟩
    | cons y ys => exact ⟨y, ys ++ [h], rfl⟩
  have hlinks := hr.links
  rw [cons_append, hqv] at hlinks
  obtain ⟨hhq, hrest⟩ := isChain_cons_cons.mp hlinks
  have hbh : b ≠ h := fun he => hb (he ▸ mem_cons_self)
  have hmem : ∀ y ∈ q :: vs, y ∈ h :: l := by
    intro y hy
    rw [← hqv] at hy
    simpa [or_comm] using hy
  have hne : ∀ y ∈ q :: vs, y ≠ b := fun y hy he => hb (he ▸ hmem y hy)
  have hvs : ∀ y ∈ vs, y ≠ q := by
    have hn := (perm_append_singleton h l).symm.nodup_iff.mp hr.nodup
    rw [hqv] at hn
    intro y hy
    rintro rfl
    exact (nodup_cons.mp hn).1 hy
  have hpush : Ring.pushFront next prev h b = (update (update next b q) h b,
      update (update prev b h) q b) := by
    rw [Ring.pushFront, hhq.1]
  rw [hpush]
  dsimp only
  refine ⟨?_, nodup_cons.mpr ⟨?_, nodup_cons.mpr ⟨?_, (nodup_cons.mp hr.nodup).2⟩⟩⟩
  · have hnew : h :: (b :: l) ++ [h] = h :: b :: q :: vs := by
      rw [cons_append, cons_append, hqv]
    rw [hnew, isChain_cons_cons, isChain_cons_cons]
    refine ⟨⟨update_self .., ?_⟩, ⟨?_, update_self ..⟩,
      links_congr hrest (fun x hx => ?_) fun y hy => ?_⟩
    · rw [update_of_ne (hne q mem_cons_self).symm, update_self]
    · rw [update_of_ne hbh, update_self]
    · have hx' := hx
      rw [← hqv, dropLast_concat] at hx'
      have hxh : x ≠ h := by
        rintro rfl
        exact (nodup_cons.mp hr.nodup).1 hx'
      rw [update_of_ne hxh, update_of_ne (hne x (dropLast_subset _ hx))]
    · rw [update_of_ne (hvs y hy), update_of_ne (hne y (mem_of_mem_tail hy))]
  · intro hmem'
    rcases mem_cons.mp hmem' with he | hl
    · exact hbh he.symm
    · exact (nodup_cons.mp hr.nodup).1 hl
  · exact fun hl => hb (mem_cons_of_mem h hl)

end Ring
