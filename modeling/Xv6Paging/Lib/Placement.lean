import Mathlib

/-! # Placement of keys in a fast and a slow store

    A table of `N` entries records where the keys of a two-level store are: an
    entry is free, or it holds a key that is in the fast store, or a key that
    is in a slot of the slow store. The slow store has `S` slots.

    A table is well formed when no key has two entries and no slot has two
    keys. Moving a key between the stores, adding and dropping one are single
    updates of the table; the lemmas say when they keep it well formed and what
    they do to the number of keys in the slow store.
-/

namespace Placement

open Function

variable {K : Type}
  {E : Type} {N i : Nat} {test : E → Bool}

/-- Where the key of one entry is. -/
inductive Entry (K : Type) where
  | free
  | fast (k : K)
  | slow (k : K) (s : Nat)

def Entry.key : Entry K → Option K
  | .free => none
  | .fast k => some k
  | .slow k _ => some k

def Entry.slot : Entry K → Option Nat
  | .slow _ s => some s
  | _ => none

/-- Is the key in the fast store? -/
def Entry.isFast : Entry K → Bool
  | .fast _ => true
  | _ => false

/-- Is the key in the slow store? -/
def Entry.isSlow (e : Entry K) : Bool := e.slot.isSome

@[simp] theorem Entry.key_free : (Entry.free : Entry K).key = none := rfl
@[simp] theorem Entry.key_fast (k : K) : (Entry.fast k).key = some k := rfl
@[simp] theorem Entry.key_slow (k : K) (s : Nat) : (Entry.slow k s).key = some k := rfl
@[simp] theorem Entry.slot_free : (Entry.free : Entry K).slot = none := rfl
@[simp] theorem Entry.slot_fast (k : K) : (Entry.fast k).slot = none := rfl
@[simp] theorem Entry.slot_slow (k : K) (s : Nat) : (Entry.slow k s).slot = some s := rfl
@[simp] theorem Entry.isFast_free : (Entry.free : Entry K).isFast = false := rfl
@[simp] theorem Entry.isFast_fast (k : K) : (Entry.fast k).isFast = true := rfl
@[simp] theorem Entry.isFast_slow (k : K) (s : Nat) : (Entry.slow k s).isFast = false := rfl
@[simp] theorem Entry.isSlow_free : (Entry.free : Entry K).isSlow = false := rfl
@[simp] theorem Entry.isSlow_fast (k : K) : (Entry.fast k).isSlow = false := rfl
@[simp] theorem Entry.isSlow_slow (k : K) (s : Nat) : (Entry.slow k s).isSlow = true := rfl

/-! ## Counting entries -/

/-- Number of the first `N` entries that satisfy a test. -/
def count {E : Type} (test : E → Bool) (N : Nat) (T : Nat → E) : Nat :=
  ((Finset.range N).filter fun i => test (T i) = true).card

/-- Replacing one entry changes the count by what the entry counted before and
    counts now. -/
theorem count_update (test : E → Bool) (T : Nat → E) (e : E) (hi : i < N) :
    count test N (update T i e) + (test (T i)).toNat =
      count test N T + (test e).toNat := by
  have hsplit : ∀ U : Nat → E, count test N U =
      (((Finset.range N).erase i).filter fun j => test (U j) = true).card + (test (U i)).toNat := by
    intro U
    unfold count
    rw [← Finset.insert_erase (Finset.mem_range.mpr hi), Finset.filter_insert]
    cases h : test (U i) with
    | true => simp
    | false => simp
  have hrest : (((Finset.range N).erase i).filter fun j => test (update T i e j) = true) =
      (((Finset.range N).erase i).filter fun j => test (T j) = true) := by
    apply Finset.filter_congr
    intro j hj
    rw [update_of_ne (Finset.ne_of_mem_erase hj)]
  rw [hsplit (update T i e), hsplit T, hrest, update_self]
  omega

theorem count_pos (hi : i < N) (h : test (T i) = true) : 0 < count test N T :=
  Finset.card_pos.mpr ⟨i, by simp [hi, h]⟩

theorem exists_of_count_pos (h : 0 < count test N T) : ∃ i < N, test (T i) = true := by
  obtain ⟨i, hi⟩ := Finset.card_pos.mp h
  simp only [Finset.mem_filter, Finset.mem_range] at hi
  exact ⟨i, hi⟩

/-! ## Well-formed tables -/

/-- No key has two entries, no slot has two keys. -/
structure Ok (N S : Nat) (T : Nat → Entry K) : Prop where
  key_inj : ∀ {i j : Nat} {k : K}, i < N → j < N →
    (T i).key = some k → (T j).key = some k → i = j
  slot_inj : ∀ {i j s : Nat}, i < N → j < N →
    (T i).slot = some s → (T j).slot = some s → i = j
  slot_lt : ∀ {i s : Nat}, i < N → (T i).slot = some s → s < S

variable {S s : Nat} {T : Nat → Entry K} {k : K}

/-- One entry may change when its new key and its new slot are not in use
    elsewhere. -/
theorem Ok.set (h : Ok N S T) (e : Entry K)
    (hkey : ∀ k, e.key = some k → ∀ j < N, j ≠ i → (T j).key ≠ some k)
    (hslot : ∀ s, e.slot = some s → s < S ∧ ∀ j < N, j ≠ i → (T j).slot ≠ some s) :
    Ok N S (update T i e) := by
  refine ⟨?_, ?_, ?_⟩
  · intro a b k ha hb hka hkb
    by_cases hai : a = i
    · by_cases hbi : b = i
      · rw [hai, hbi]
      · subst hai
        rw [update_self] at hka
        rw [update_of_ne hbi] at hkb
        exact absurd hkb (hkey k hka b hb hbi)
    · rw [update_of_ne hai] at hka
      by_cases hbi : b = i
      · subst hbi
        rw [update_self] at hkb
        exact absurd hka (hkey k hkb a ha hai)
      · rw [update_of_ne hbi] at hkb
        exact h.key_inj ha hb hka hkb
  · intro a b s ha hb hsa hsb
    by_cases hai : a = i
    · by_cases hbi : b = i
      · rw [hai, hbi]
      · subst hai
        rw [update_self] at hsa
        rw [update_of_ne hbi] at hsb
        exact absurd hsb ((hslot s hsa).2 b hb hbi)
    · rw [update_of_ne hai] at hsa
      by_cases hbi : b = i
      · subst hbi
        rw [update_self] at hsb
        exact absurd hsa ((hslot s hsb).2 a ha hai)
      · rw [update_of_ne hbi] at hsb
        exact h.slot_inj ha hb hsa hsb
  · intro a s ha hs
    by_cases hai : a = i
    · subst hai
      rw [update_self] at hs
      exact (hslot s hs).1
    · rw [update_of_ne hai] at hs
      exact h.slot_lt ha hs

/-- Move a key to a free slot of the slow store. -/
theorem Ok.evict (h : Ok N S T) (hiN : i < N) (hi : T i = .fast k) (hs : s < S)
    (hfree : ∀ j < N, (T j).slot ≠ some s) : Ok N S (update T i (.slow k s)) := by
  refine h.set _ ?_ ?_
  · intro k' hk' j hj hji hkj
    cases hk'
    exact hji (h.key_inj hj hiN hkj (by simp [hi]))
  · intro s' hs'
    cases hs'
    exact ⟨hs, fun j hj _ => hfree j hj⟩

theorem Ok.load (h : Ok N S T) (hiN : i < N) (hi : T i = .slow k s) :
    Ok N S (update T i (.fast k)) := by
  refine h.set _ ?_ (by simp)
  intro k' hk' j hj hji hkj
  cases hk'
  exact hji (h.key_inj hj hiN hkj (by simp [hi]))

/-- Record a key that has no entry yet. -/
theorem Ok.add (h : Ok N S T) (hnew : ∀ j < N, (T j).key ≠ some k) :
    Ok N S (update T i (.fast k)) := by
  refine h.set _ ?_ (by simp)
  intro k' hk' j hj _
  cases hk'
  exact hnew j hj

theorem Ok.drop (h : Ok N S T) : Ok N S (update T i .free) :=
  h.set _ (by simp) (by simp)

/-! ## Looking for an entry after an update -/

variable {P : Entry K → Prop} {e : Entry K}

theorem exists_update (P : Entry K → Prop) (e : Entry K) (hi : i < N) :
    (∃ j < N, P (update T i e j)) ↔ P e ∨ ∃ j < N, j ≠ i ∧ P (T j) := by
  rw [Function.exists_update_iff T fun j y => j < N ∧ P y]
  simp only [hi, true_and, and_left_comm]

theorem exists_ne_iff (hold : ¬ P (T i)) : (∃ j < N, j ≠ i ∧ P (T j)) ↔ ∃ j < N, P (T j) := by
  have hne : ∀ j, P (T j) → j ≠ i := fun j hj hji => hold (hji ▸ hj)
  exact exists_congr fun j => and_congr_right fun _ => and_iff_right_of_imp (hne j)

/-- Where neither the old nor the new entry qualifies, the update changes nothing. -/
theorem exists_update_of_not (hi : i < N) (hold : ¬ P (T i)) (hnew : ¬ P e) :
    (∃ j < N, P (update T i e j)) ↔ ∃ j < N, P (T j) := by
  rw [exists_update P e hi, or_iff_right hnew, exists_ne_iff hold]

/-- Where no other entry qualifies, the new entry decides. -/
theorem exists_update_iff (hi : i < N) (hother : ∀ j < N, j ≠ i → ¬ P (T j)) :
    (∃ j < N, P (update T i e j)) ↔ P e := by
  rw [exists_update P e hi, or_iff_left]
  rintro ⟨j, hj, hji, hP⟩
  exact hother j hj hji hP

/-! ## The two stores -/

/-- Keys in the fast store. -/
def fastCount (N : Nat) (T : Nat → Entry K) : Nat := count Entry.isFast N T

/-- Keys in the slow store. -/
def slowCount (N : Nat) (T : Nat → Entry K) : Nat := count Entry.isSlow N T

theorem fastCount_update (e : Entry K) (hi : i < N) :
    fastCount N (update T i e) + (T i).isFast.toNat = fastCount N T + e.isFast.toNat :=
  count_update Entry.isFast T e hi

theorem slowCount_update (e : Entry K) (hi : i < N) :
    slowCount N (update T i e) + (T i).isSlow.toNat = slowCount N T + e.isSlow.toNat :=
  count_update Entry.isSlow T e hi

/-- A duplicate-free list of the fast entries counts them. -/
theorem length_eq_fastCount {l : List Nat} (hl : l.Nodup)
    (hmem : ∀ i, i ∈ l ↔ i < N ∧ (T i).isFast = true) : l.length = fastCount N T := by
  have hset : l.toFinset = (Finset.range N).filter fun i => (T i).isFast = true := by
    ext i
    simp [hmem]
  rw [← List.toFinset_card_of_nodup hl, hset]
  rfl

/-- The entries in use, of both kinds. -/
theorem fastCount_add_slowCount (N : Nat) (T : Nat → Entry K) : fastCount N T + slowCount N T =
    ((Finset.range N).filter fun i => (T i).key.isSome = true).card := by
  unfold fastCount slowCount count
  rw [← Finset.card_union_of_disjoint]
  · congr 1
    ext i
    cases hT : T i with
    | free => simp [hT]
    | fast k => simp [hT]
    | slow k s => simp [hT]
  · rw [Finset.disjoint_filter]
    intro i _ hfast
    cases hT : T i with
    | free => simp
    | fast k => simp
    | slow k s => simp [hT] at hfast

theorem total_le (N : Nat) (T : Nat → Entry K) : fastCount N T + slowCount N T ≤ N := by
  rw [fastCount_add_slowCount]
  exact (Finset.card_filter_le _ _).trans (Finset.card_range N).le

theorem total_lt_of_free (hi : i < N) (hT : T i = .free) : fastCount N T + slowCount N T < N := by
  rw [fastCount_add_slowCount]
  have hlt := Finset.card_lt_card (s := (Finset.range N).filter fun i => (T i).key.isSome = true)
    (t := Finset.range N) (Finset.filter_ssubset.mpr ⟨i, Finset.mem_range.mpr hi, by simp [hT]⟩)
  rwa [Finset.card_range] at hlt

/-- A well-formed table has as many entries in use as it has keys. -/
theorem Ok.card_keys (h : Ok N S T) {ks : Finset K}
    (hks : ∀ k, k ∈ ks ↔ ∃ i < N, (T i).key = some k) :
    fastCount N T + slowCount N T = ks.card := by
  rw [fastCount_add_slowCount]
  refine Finset.card_bij (fun i hi => (T i).key.get (Finset.mem_filter.mp hi).2) ?_ ?_ ?_
  · intro i hi
    obtain ⟨hiN, hsome⟩ := Finset.mem_filter.mp hi
    exact (hks _).mpr ⟨i, Finset.mem_range.mp hiN, (Option.some_get hsome).symm⟩
  · intro i hi j hj heq
    obtain ⟨hiN, hsi⟩ := Finset.mem_filter.mp hi
    obtain ⟨hjN, hsj⟩ := Finset.mem_filter.mp hj
    refine h.key_inj (Finset.mem_range.mp hiN) (Finset.mem_range.mp hjN)
      (Option.some_get hsi).symm ?_
    rw [heq]
    exact (Option.some_get hsj).symm
  · intro k hk
    obtain ⟨i, hi, hkey⟩ := (hks k).mp hk
    exact ⟨i, by simp [hi, hkey], by simp [hkey]⟩

/-- While not all entries are in use, one is free. -/
theorem exists_free_entry (h : fastCount N T + slowCount N T < N) : ∃ i < N, T i = .free := by
  by_contra hno
  push Not at hno
  have hfast : fastCount N T = ((Finset.range N).filter fun i => ¬ (T i).isSlow = true).card := by
    unfold fastCount count
    congr 1
    apply Finset.filter_congr
    intro i hi
    have hi' := hno i (Finset.mem_range.mp hi)
    cases hT : T i with
    | free => exact absurd hT hi'
    | fast k => simp
    | slow k s => simp
  have hsum := Finset.card_filter_add_card_filter_not (s := Finset.range N)
    (fun i => (T i).isSlow = true)
  rw [Finset.card_range] at hsum
  unfold slowCount count at h
  omega

/-- While fewer keys than slots are in the slow store, a slot is free. -/
theorem exists_free_slot (h : slowCount N T < S) : ∃ s < S, ∀ i < N, (T i).slot ≠ some s := by
  by_contra hno
  push Not at hno
  -- Choose the entry of each slot: an injection of the slots into the slow entries.
  choose! f hfN hf using hno
  have hcard : (Finset.range S).card ≤
      ((Finset.range N).filter fun i => (T i).isSlow = true).card := by
    refine Finset.card_le_card_of_injOn f ?_ ?_
    · intro s hs
      have hs' : s < S := by simpa using hs
      have hslow : (T (f s)).isSlow = true := by simp [Entry.isSlow, hf s hs']
      exact Finset.mem_filter.mpr ⟨Finset.mem_range.mpr (hfN s hs'), hslow⟩
    · intro s hs t ht hst
      have hs' : s < S := by simpa using hs
      have ht' : t < S := by simpa using ht
      have h1 := hf s hs'
      rw [hst, hf t ht'] at h1
      exact (Option.some.inj h1).symm
  rw [Finset.card_range] at hcard
  unfold slowCount count at h
  omega

end Placement
