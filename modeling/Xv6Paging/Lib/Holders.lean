import Mathlib

/-! # Counting the holders of a resource

    A finite set of places, each of which holds at most one resource. The number
    of places that hold a resource is what a reference counter should say.
    `Balanced` is the invariant of a counting allocator: counters count places
    and the references in flight, and the free list has what nobody refers to.
    The operations of such an allocator keep it: taking a free resource, putting
    one that is in flight into a place, lifting one out of a place, sharing one,
    and dropping a reference.
-/

namespace Holders

open List Function

variable {U F : Type} [DecidableEq F]
  {S : Finset U} {target target' : U → Option F} {u : U} {f : F}

/-- Places of `S` that hold `f`. -/
def holders (S : Finset U) (target : U → Option F) (f : F) : Nat :=
  (S.filter fun u => target u = some f).card

/-- When one place changes, the count changes by what that place holds. -/
theorem holders_change [DecidableEq U] (hu : u ∈ S) (hother : ∀ w ∈ S, w ≠ u → target' w = target w)
    (f : F) :
    holders S target' f + (if target u = some f then 1 else 0) =
      holders S target f + (if target' u = some f then 1 else 0) := by
  have hsplit : ∀ t : U → Option F, holders S t f =
      ((S.erase u).filter fun w => t w = some f).card + (if t u = some f then 1 else 0) := by
    intro t
    unfold holders
    rw [← Finset.insert_erase hu, Finset.filter_insert, Finset.erase_insert (by simp)]
    split
    · rw [Finset.card_insert_of_notMem (by simp)]
    · simp
  have hrest : ((S.erase u).filter fun w => target' w = some f) =
      ((S.erase u).filter fun w => target w = some f) := by
    apply Finset.filter_congr
    intro w hw
    rw [Finset.mem_erase] at hw
    rw [hother w hw.2 hw.1]
  rw [hsplit target, hsplit target', hrest]
  omega

theorem holders_congr (h : ∀ w ∈ S, target' w = target w) (f : F) :
    holders S target' f = holders S target f := by
  unfold holders
  congr 1
  apply Finset.filter_congr
  intro w hw
  rw [h w hw]

theorem holders_eq_zero (h : ∀ u ∈ S, target u = none) (f : F) :
    holders S target f = 0 := by
  unfold holders
  rw [Finset.card_eq_zero, Finset.filter_eq_empty_iff]
  intro u hu ht
  rw [h u hu] at ht
  cases ht

theorem holders_single [DecidableEq U] (hu : u ∈ S) (hself : target u = some f)
    (hother : ∀ w ∈ S, w ≠ u → target w = none) (g : F) :
    holders S target g = if g = f then 1 else 0 := by
  have hch := holders_change hu
    (show ∀ w ∈ S, w ≠ u → target w = (fun _ : U => (none : Option F)) w from hother) g
  rw [holders_eq_zero (fun _ _ => rfl), hself] at hch
  simpa [eq_comm] using hch

theorem holders_pos (hu : u ∈ S) (h : target u = some f) : 0 < holders S target f :=
  Finset.card_pos.mpr ⟨u, by simp [hu, h]⟩

theorem two_le_holders [DecidableEq U] (hu : u ∈ S) (hw : w ∈ S) (hne : u ≠ w)
    (hfu : target u = some f) (hfw : target w = some f) : 2 ≤ holders S target f := by
  have hsub : ({u, w} : Finset U) ⊆ S.filter fun x => target x = some f := by
    intro x hx
    rcases Finset.mem_insert.mp hx with rfl | hx
    · simp [hu, hfu]
    · rw [Finset.mem_singleton] at hx
      subst hx
      simp [hw, hfw]
  have := Finset.card_le_card hsub
  rwa [Finset.card_pair hne] at this

/-- The counters `refs` count the places and the references in flight, exclusive
    places are the only holders of what they hold, and `free` has what nobody
    holds. -/
structure Balanced (ok : F → Prop) (S : Finset U) (only : U → Prop) (target : U → Option F)
    (refs : F → Nat) (free flight : List F) : Prop where
  count : ∀ {f}, ok f → refs f = holders S target f + flight.count f
  target_ok : ∀ {u f}, u ∈ S → target u = some f → ok f
  flight_ok : ∀ {f}, f ∈ flight → ok f
  exclusive : ∀ {u f}, u ∈ S → only u → target u = some f → refs f = 1
  nodup : free.Nodup
  free_iff : ∀ {f}, f ∈ free ↔ ok f ∧ refs f = 0

variable {ok : F → Prop} {only : U → Prop} {refs refs' : F → Nat} {free free' flight flight' : List F}

section Operations

variable (h : Balanced ok S only target refs free flight)

include h

/-- What is held is not free. -/
theorem Balanced.refs_pos (hu : u ∈ S) (hf : target u = some f) : 0 < refs f := by
  rw [h.count (h.target_ok hu hf)]
  have := holders_pos hu hf
  omega

theorem Balanced.refs_pos_of_flight (hf : f ∈ flight) : 0 < refs f := by
  rw [h.count (h.flight_ok hf)]
  have := count_pos_iff.mpr hf
  omega

theorem Balanced.not_held (hu : u ∈ S) (hf : f ∈ free) : target u ≠ some f := by
  intro ht
  have := h.refs_pos hu ht
  have := (h.free_iff.mp hf).2
  omega

/-- Only what the places hold matters. -/
theorem Balanced.congr
    (ht : ∀ u ∈ S, target' u = target u) : Balanced ok S only target' refs free flight :=
  { h with
    count := fun hf => by rw [h.count hf, holders_congr ht]
    target_ok := fun hu hf => h.target_ok hu (by rwa [← ht _ hu])
    exclusive := fun hu ho hf => h.exclusive hu ho (by rwa [← ht _ hu]) }

theorem Balanced.perm (hp : free.Perm free') : Balanced ok S only target refs free' flight :=
  { h with
    nodup := hp.nodup_iff.mp h.nodup
    free_iff := hp.mem_iff.symm.trans h.free_iff }

/-- The order of the references in flight does not matter. -/
theorem Balanced.perm_flight
    (hp : flight.Perm flight') : Balanced ok S only target refs free flight' :=
  { h with
    count := fun hf => by rw [h.count hf, hp.count_eq]
    flight_ok := fun hf => h.flight_ok (hp.mem_iff.mpr hf) }

/-- The counter of `f` and the references in flight to it change together. -/
theorem Balanced.recount (hok : ok f)
    (hother : ∀ g, g ≠ f → flight'.count g = flight.count g ∧ (g ∈ free' ↔ g ∈ free))
    (hcount : n = holders S target f + flight'.count f) (hshared : ∀ w ∈ S, only w → target w ≠ some f)
    (hnd : free'.Nodup) (hfree : f ∈ free' ↔ n = 0) :
    Balanced ok S only target (update refs f n) free' flight' := by
  refine ⟨?_, h.target_ok, ?_, ?_, hnd, ?_⟩
  · intro g hg
    by_cases hgf : g = f
    · rw [hgf, update_self, hcount]
    · rw [update_of_ne hgf, (hother g hgf).1, h.count hg]
  · intro g hg
    by_cases hgf : g = f
    · exact hgf ▸ hok
    · rw [← count_pos_iff, (hother g hgf).1, count_pos_iff] at hg
      exact h.flight_ok hg
  · intro u g hu ho hg
    have hgf : g ≠ f := fun heq => hshared u hu ho (heq ▸ hg)
    rw [update_of_ne hgf, h.exclusive hu ho hg]
  · intro g
    by_cases hgf : g = f
    · rw [hgf, update_self, hfree]
      exact (and_iff_right hok).symm
    · rw [update_of_ne hgf, (hother g hgf).2, h.free_iff]

/-- What one place holds and the references in flight change together. -/
theorem Balanced.replace [DecidableEq U] (hu : u ∈ S)
    (hother : ∀ w ∈ S, w ≠ u → target' w = target w)
    (hcount : ∀ g, (if target' u = some g then 1 else 0) + flight'.count g =
      (if target u = some g then 1 else 0) + flight.count g)
    (hnew : ∀ g, target' u = some g → ok g ∧ (only u → refs g = 1)) (hok : ∀ g ∈ flight', ok g) :
    Balanced ok S only target' refs free flight' := by
  refine ⟨fun {g} hg => ?_, fun {w g} hw hg => ?_, hok _, fun {w g} hw ho hg => ?_, h.nodup, h.free_iff⟩
  · have := holders_change hu hother g
    have := hcount g
    rw [h.count hg]
    omega
  · by_cases hwu : w = u
    · exact (hnew g (hwu ▸ hg)).1
    · exact h.target_ok hw (by rwa [← hother w hw hwu])
  · by_cases hwu : w = u
    · exact (hnew g (hwu ▸ hg)).2 (hwu ▸ ho)
    · exact h.exclusive hw ho (by rwa [← hother w hw hwu])

/-- Lift what a place holds. -/
theorem Balanced.lift [DecidableEq U] (hu : u ∈ S)
    (hold : target u = some f) (hnew : target' u = none)
    (hother : ∀ w ∈ S, w ≠ u → target' w = target w) :
    Balanced ok S only target' refs free (f :: flight) := by
  refine h.replace hu hother (fun g => ?_) (by simp [hnew]) ?_
  · simp [hold, hnew, count_cons, Nat.add_comm]
  · rintro g hg
    rcases mem_cons.mp hg with rfl | hg
    · exact h.target_ok hu hold
    · exact h.flight_ok hg

/-- Raise the count of something in use that no exclusive place holds; the new reference is in
    flight. -/
theorem Balanced.more (hok : ok f)
    (hpos : 0 < refs f) (hshared : ∀ w ∈ S, only w → target w ≠ some f) :
    Balanced ok S only target (update refs f (refs f + 1)) free (f :: flight) := by
  refine h.recount hok (fun g hgf => ⟨count_cons_of_ne hgf.symm, Iff.rfl⟩) ?_ hshared h.nodup ?_
  · rw [count_cons_self, h.count hok, Nat.add_assoc]
  · rw [h.free_iff]
    omega

/-- A second reference to what a shared place holds. -/
theorem Balanced.share [DecidableEq U] (hu : u ∈ S)
    (hold : target u = some f) (hshared : ¬ only u) :
    Balanced ok S only target (update refs f (refs f + 1)) free (f :: flight) := by
  refine h.more (h.target_ok hu hold) (h.refs_pos hu hold) fun w hw ho hg => ?_
  have hne : u ≠ w := fun heq => hshared (heq ▸ ho)
  have h1 := h.exclusive hw ho hg
  have h2 := two_le_holders hu hw hne hold hg
  have h3 := h.count (h.target_ok hu hold)
  omega

theorem Balanced.double (hf : f ∈ flight) :
    Balanced ok S only target (update refs f (refs f + 1)) free (f :: flight) := by
  refine h.more (h.flight_ok hf) (h.refs_pos_of_flight hf) fun w hw ho hg => ?_
  have h1 := h.exclusive hw ho hg
  have h2 := holders_pos hw hg
  have h3 := h.count (h.flight_ok hf)
  have h4 := count_pos_iff.mpr hf
  omega

end Operations

/-- Take the head of the free list. -/
theorem Balanced.take {rest : List F} (h : Balanced ok S only target refs (f :: rest) flight) :
    Balanced ok S only target (update refs f 1) rest (f :: flight) := by
  obtain ⟨hok, hzero⟩ := h.free_iff.mp (mem_cons_self (a := f) (l := rest))
  obtain ⟨hnot, hnd⟩ := nodup_cons.mp h.nodup
  have hcount := h.count hok
  refine h.recount hok (fun g hgf => ⟨count_cons_of_ne hgf.symm, by simp [hgf]⟩) ?_
    (fun w hw _ => h.not_held hw mem_cons_self) hnd (by simp [hnot])
  rw [count_cons_self]
  omega

/-- Give up a reference in flight; with the last one the resource is free. -/
theorem Balanced.drop (h : Balanced ok S only target refs free (f :: flight)) :
    Balanced ok S only target (update refs f (refs f - 1))
      (if refs f - 1 = 0 then f :: free else free) flight := by
  have hok : ok f := h.flight_ok (by simp)
  have hcount := h.count hok
  rw [count_cons_self] at hcount
  have hnot : f ∉ free := by
    intro hin
    have := (h.free_iff.mp hin).2
    omega
  refine h.recount hok (fun g hgf => ⟨(count_cons_of_ne hgf.symm).symm, ?_⟩) (by omega) ?_ ?_ ?_
  · split <;> simp [hgf]
  · -- An exclusive place and the flight would be two references to one resource.
    intro w hw ho hg
    have h1 := h.exclusive hw ho hg
    have h2 := holders_pos hw hg
    omega
  · split
    · exact nodup_cons.mpr ⟨hnot, h.nodup⟩
    · exact h.nodup
  · by_cases hz : refs f - 1 = 0
    · simp [hz]
    · simp [hz, hnot]

/-- Put what is in flight into an empty place. -/
theorem Balanced.put [DecidableEq U] (h : Balanced ok S only target refs free (f :: flight))
    (hu : u ∈ S) (hold : target u = none) (hnew : target' u = some f)
    (hother : ∀ w ∈ S, w ≠ u → target' w = target w) (honly : only u → refs f = 1) :
    Balanced ok S only target' refs free flight := by
  refine h.replace hu hother (fun g => ?_) ?_ fun g hg => h.flight_ok (mem_cons_of_mem f hg)
  · simp [hold, hnew, count_cons, Nat.add_comm]
  · rw [hnew]
    rintro _ ⟨⟩
    exact ⟨h.flight_ok mem_cons_self, honly⟩

end Holders
