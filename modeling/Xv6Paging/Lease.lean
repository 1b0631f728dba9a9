import Xv6Paging.FrameDirs

/-! # What a directory has borrowed

    A new directory takes frames for itself and its page tables from the free list, and shares
    the frames of the directory it is copied from. `Lent` compares the machine with the state
    `m0` before the directory was made: every counter is the old one plus the places of the
    directory that hold the frame. When the directory has no places left, the counters and the
    free frames are those of `m0`.
-/

namespace Xv6Paging

open List Wp Holders Function

variable {c : Config} {d D : Nat} {m0 m m' : Machine} {fl rest : List Nat} {f k v : Nat} {x : Pte}
  {u : Use} {dir y : PageDir}

/-! ## The places of a directory -/

/-- The directory itself, its page tables and its user pages. -/
def placesOf (d : Nat) : Finset Use :=
  insert (.dir d) ((Finset.range nuserPages).image (.pte d) ∪ (Finset.range npdentries).image (.table d))

theorem dir_mem_placesOf : Use.dir d ∈ placesOf d := by simp [placesOf]

theorem pte_mem_placesOf : Use.pte d v ∈ placesOf d ↔ v < nuserPages := by simp [placesOf]

theorem table_mem_placesOf : Use.table d k ∈ placesOf d ↔ k < npdentries := by simp [placesOf]

theorem inDir_of_mem (h : u ∈ placesOf d) : u.inDir d := by
  simp only [placesOf, Finset.mem_insert, Finset.mem_union, Finset.mem_image] at h
  rcases h with rfl | ⟨v, -, rfl⟩ | ⟨k, -, rfl⟩ <;> rfl

attribute [irreducible] placesOf

/-! ## The counters before -/

/-- The free list holds exactly the frames that nobody refers to, once each. -/
structure Consistent (c : Config) (m : Machine) : Prop where
  nodup : m.freelist.Nodup
  free_iff : ∀ {f}, f ∈ m.freelist ↔ managed c f ∧ m.referenceCounters f = 0

/-- The references that the counters of `m` count, one by one. -/
def counted (c : Config) (m : Machine) : List Nat :=
  (List.range nframes).flatMap fun f =>
    if managed c f then List.replicate (m.referenceCounters f) f else []

theorem mem_counted : f ∈ counted c m ↔ managed c f ∧ m.referenceCounters f ≠ 0 := by
  simp only [counted, mem_flatMap, mem_range]
  constructor
  · rintro ⟨g, -, hg⟩
    split at hg
    · obtain ⟨hne, rfl⟩ := mem_replicate.mp hg
      exact ⟨by assumption, hne⟩
    · simp at hg
  · rintro ⟨hman, hne⟩
    exact ⟨f, hman.2, by rw [if_pos hman]; exact mem_replicate.mpr ⟨hne, rfl⟩⟩

theorem count_counted (hf : managed c f) : (counted c m).count f = m.referenceCounters f := by
  have hsum : ∀ n, f < n → ((List.range n).flatMap fun g =>
      if managed c g then List.replicate (m.referenceCounters g) g else []).count f =
      m.referenceCounters f := by
    intro n hn
    induction n with
    | zero => omega
    | succ n ih =>
      rw [range_succ, flatMap_append, count_append, flatMap_singleton]
      by_cases hfn : f = n
      · subst hfn
        have hzero : ((List.range f).flatMap fun g =>
            if managed c g then List.replicate (m.referenceCounters g) g else []).count f = 0 := by
          rw [count_eq_zero, mem_flatMap]
          rintro ⟨g, hg, hmem⟩
          split at hmem
          · have := (mem_replicate.mp hmem).2
            have := mem_range.mp hg
            omega
          · simp at hmem
        rw [hzero, if_pos hf, count_replicate_self, Nat.zero_add]
      · have hzero : (if managed c n then List.replicate (m.referenceCounters n) n else []).count f =
            0 := by
          rw [count_eq_zero]
          intro hmem
          split at hmem
          · exact hfn (mem_replicate.mp hmem).2
          · simp at hmem
        rw [hzero, ih (by omega), Nat.add_zero]
  exact hsum nframes hf.2

attribute [irreducible] counted

/-! ## Changes beside the directory -/

/-- Nothing but memory management has changed. -/
def MemOnly (m m' : Machine) : Prop :=
  m' = { m with
    freelist := m'.freelist, referenceCounters := m'.referenceCounters
    systemFreePages := m'.systemFreePages, mem := m'.mem, dirs := m'.dirs
    globalPgdir := m'.globalPgdir }

theorem MemOnly.trans {m'' : Machine} (h : MemOnly m m') (h' : MemOnly m' m'') : MemOnly m m'' := by
  unfold MemOnly at *
  rw [h', h]

/-- The directory differs from `x` at most in `PTE_W` that has become `PTE_COW` on present
    pages. -/
structure PageDir.Shared (x y : PageDir) : Prop where
  live : y.live = x.live
  table : y.table = x.table
  pte : ∀ v, y.pte v = x.pte v ∨ ((x.pte v).p = true ∧ y.pte v = (x.pte v).share)

theorem PageDir.Shared.refl (x : PageDir) : x.Shared x := ⟨rfl, rfl, fun _ => .inl rfl⟩

theorem Pte.share_share (x : Pte) : x.share.share = x.share := by
  unfold Pte.share
  split
  · simp
  · rfl

@[simp] theorem Pte.share_p (x : Pte) : x.share.p = x.p := by
  unfold Pte.share
  split <;> rfl

@[simp] theorem Pte.share_pg (x : Pte) : x.share.pg = x.pg := by
  unfold Pte.share
  split <;> rfl

@[simp] theorem Pte.share_frame (x : Pte) : x.share.frame = x.frame := by
  unfold Pte.share
  split <;> rfl

theorem PageDir.Shared.p {x : PageDir} (h : x.Shared y) (v : Nat) : (y.pte v).p = (x.pte v).p := by
  rcases h.pte v with heq | ⟨-, heq⟩ <;> simp [heq]

theorem PageDir.Shared.pg {x : PageDir} (h : x.Shared y) (v : Nat) :
    (y.pte v).pg = (x.pte v).pg := by
  rcases h.pte v with heq | ⟨-, heq⟩ <;> simp [heq]

theorem PageDir.Shared.frame {x : PageDir} (h : x.Shared y) (v : Nat) :
    (y.pte v).frame = (x.pte v).frame := by
  rcases h.pte v with heq | ⟨-, heq⟩ <;> simp [heq]

/-- One more page is shared. -/
theorem PageDir.Shared.step {x : PageDir} (h : x.Shared y) (hp : (y.pte v).p = true) :
    x.Shared { y with pte := update y.pte v (y.pte v).share } := by
  refine ⟨h.live, h.table, fun w => ?_⟩
  by_cases hw : w = v
  · subst hw
    refine .inr ⟨by rwa [h.p] at hp, ?_⟩
    simp only [update_self]
    rcases h.pte w with heq | ⟨-, heq⟩
    · rw [heq]
    · rw [heq, Pte.share_share]
  · simpa [update_of_ne hw] using h.pte w

/-! ## The ledger -/

/-- Directory `d` has been made since `m0`, as a copy of directory `D`; the frames `fl` are in
    flight. -/
structure Lent (c : Config) (d D : Nat) (m0 m : Machine) (fl : List Nat) : Prop where
  balanced : Balanced (managed c) (placesOf d) Use.kernel m.target m.referenceCounters m.freelist
    (fl ++ counted c m0)
  outside : ∀ f, ¬ managed c f → m.referenceCounters f = m0.referenceCounters f
  rest : MemOnly m0 m
  mem : ∀ f, managed c f → m0.referenceCounters f ≠ 0 → m.mem f = m0.mem f
  parent : (m0.dirs D).Shared (m.dirs D)
  dirs : ∀ e, e ≠ d → e ≠ D → m.dirs e = m0.dirs e
  ne : D ≠ d

/-- What a directory has borrowed is back. -/
structure Returned (c : Config) (d D : Nat) (m0 m : Machine) : Prop where
  refs : m.referenceCounters = m0.referenceCounters
  free : m.freelist.Perm m0.freelist
  rest : MemOnly m0 m
  mem : ∀ f, managed c f → m0.referenceCounters f ≠ 0 → m.mem f = m0.mem f
  parent : (m0.dirs D).Shared (m.dirs D)
  dirs : ∀ e, e ≠ d → e ≠ D → m.dirs e = m0.dirs e

/-- `setupkvm` makes a directory of a free frame. -/
theorem Lent.start (h : Consistent c m0) (hf : m0.freelist = d :: rest) (hD : D ≠ d) :
    Lent c d D m0 ((m0.takeFrame d rest).setDir d (PageDir.fresh c)) [] := by
  obtain ⟨hman, hzero⟩ := h.free_iff.mp (show d ∈ m0.freelist by simp [hf])
  have hnd := h.nodup
  rw [hf, nodup_cons] at hnd
  -- The new directory holds its own frame only.
  have hself : ((m0.takeFrame d rest).setDir d (PageDir.fresh c)).target (.dir d) = some d := by
    simp [Machine.target, PageDir.fresh]
  have hother : ∀ u ∈ placesOf d, u ≠ .dir d →
      ((m0.takeFrame d rest).setDir d (PageDir.fresh c)).target u = none := by
    intro u hu hne
    have hin := inDir_of_mem hu
    cases u with
    | pte e v =>
      obtain rfl : e = d := hin
      simp [Machine.target, PageDir.maps, PageDir.fresh]
    | dir e => exact absurd (congrArg Use.dir hin) hne
    | table e k =>
      obtain rfl : e = d := hin
      simp [Machine.target, PageDir.fresh]
    | held g => exact absurd hin id
  have hholds : ∀ u ∈ placesOf d, ∀ g,
      ((m0.takeFrame d rest).setDir d (PageDir.fresh c)).target u = some g → g = d := by
    intro u hu g hg
    by_cases hne : u = .dir d
    · rw [hne, hself] at hg
      exact (Option.some.inj hg).symm
    · rw [hother u hu hne] at hg
      cases hg
  refine ⟨⟨?_, ?_, ?_, ?_, hnd.2, ?_⟩, ?_, rfl, fun _ _ _ => rfl, ?_, ?_, hD⟩
  · intro g hg
    rw [holders_single dir_mem_placesOf hself hother, nil_append, count_counted hg]
    by_cases hgd : g = d
    · subst hgd
      simp [hzero]
    · simp [hgd]
  · intro u g hu hg
    rw [hholds u hu g hg]
    exact hman
  · intro g hg
    rw [nil_append, mem_counted] at hg
    exact hg.1
  · intro u g hu _ hg
    rw [hholds u hu g hg]
    simp
  · intro g
    by_cases hgd : g = d
    · subst hgd
      simp [hnd.1]
    · have hiff := h.free_iff (f := g)
      rw [hf] at hiff
      simpa [hgd] using hiff
  · intro g hg
    have hgd : g ≠ d := fun hgd => hg (hgd ▸ hman)
    simp [hgd]
  · simpa [update_of_ne hD] using PageDir.Shared.refl (m0.dirs D)
  · intro e hed _
    simp [hed]

theorem Lent.take (h : Lent c d D m0 m fl) (hf : m.freelist = f :: rest) :
    Lent c d D m0 (m.takeFrame f rest) (f :: fl) := by
  have hb := h.balanced
  rw [hf] at hb
  have hman := (hb.free_iff.mp (mem_cons_self (a := f) (l := rest))).1
  refine ⟨hb.take, fun g hg => ?_, h.rest.trans rfl, h.mem, h.parent, h.dirs, h.ne⟩
  have hgf : g ≠ f := fun hgf => hg (hgf ▸ hman)
  simpa [hgf] using h.outside g hg

theorem Lent.drop (h : Lent c d D m0 m (f :: fl)) : Lent c d D m0 (m.dropRef f) fl := by
  have hman : managed c f := h.balanced.flight_ok (by simp)
  have hcount := h.balanced.count hman
  rw [cons_append, count_cons_self, count_append, count_counted hman] at hcount
  refine ⟨h.balanced.drop, fun g hg => ?_, h.rest.trans rfl, fun g hg hg0 => ?_, h.parent, h.dirs, h.ne⟩
  · have hgf : g ≠ f := fun hgf => hg (hgf ▸ hman)
    simpa [hgf] using h.outside g hg
  · -- A frame that was in use before keeps a reference.
    rw [← h.mem g hg hg0, Machine.dropRef_mem]
    split
    · have hgf : g ≠ f := by
        rintro rfl
        omega
      rw [update_of_ne hgf]
    · rfl

theorem Lent.pos_of_flight (h : Lent c d D m0 m (f :: fl)) :
    managed c f ∧ 0 < m.referenceCounters f :=
  ⟨h.balanced.flight_ok (by simp), h.balanced.refs_pos_of_flight (by simp)⟩

/-- A frame of the parent gets one reference more. -/
theorem Lent.double (h : Lent c d D m0 m fl) (hman : managed c f) (hf : m0.referenceCounters f ≠ 0) :
    Lent c d D m0 (m.moreRef f) (f :: fl) := by
  refine ⟨h.balanced.double ?_, fun g hg => ?_, h.rest.trans rfl, h.mem, h.parent, h.dirs, h.ne⟩
  · exact mem_append_right _ (mem_counted.mpr ⟨hman, hf⟩)
  · have hgf : g ≠ f := fun hgf => hg (hgf ▸ hman)
    simpa [hgf] using h.outside g hg

/-- Directory `d` is changed. -/
theorem Lent.setDir {fl' : List Nat} (h : Lent c d D m0 m fl) (hb : Balanced (managed c) (placesOf d)
    Use.kernel (m.setDir d dir).target m.referenceCounters m.freelist (fl' ++ counted c m0)) :
    Lent c d D m0 (m.setDir d dir) fl' := by
  refine ⟨hb, h.outside, h.rest.trans rfl, h.mem, ?_, ?_, h.ne⟩
  · simpa [update_of_ne h.ne] using h.parent
  · intro e hed heD
    simpa [hed] using h.dirs e hed heD

/-- A change of directory `d` by which one place gets the frame in flight. -/
theorem Lent.put (h : Lent c d D m0 m (f :: fl)) (hu : u ∈ placesOf d) (hold : m.target u = none)
    (hnew : (m.setDir d dir).target u = some f)
    (hother : ∀ w ∈ placesOf d, w ≠ u → (m.setDir d dir).target w = m.target w)
    (honly : u.kernel → m.referenceCounters f = 1) : Lent c d D m0 (m.setDir d dir) fl :=
  h.setDir (h.balanced.put hu hold hnew hother honly)

/-- A change of directory `d` by which one place loses its frame. -/
theorem Lent.lift (h : Lent c d D m0 m fl) (hu : u ∈ placesOf d) (hold : m.target u = some f)
    (hnew : (m.setDir d dir).target u = none)
    (hother : ∀ w ∈ placesOf d, w ≠ u → (m.setDir d dir).target w = m.target w) :
    Lent c d D m0 (m.setDir d dir) (f :: fl) :=
  h.setDir (h.balanced.lift hu hold hnew hother)

theorem Lent.table (h : Lent c d D m0 m fl) (hf : m.freelist = f :: rest)
    (hl : (m.dirs d).live = true) (hnone : (m.dirs d).table k = none)
    (hk : k * nptentries < nuserPages) :
    Lent c d D m0 ((m.takeFrame f rest).addTable d k f) fl := by
  have hk' : k < npdentries := by simp only [nptentries, nuserPages, npdentries] at *; omega
  refine (h.take hf).put (u := .table d k) (table_mem_placesOf.mpr hk') ?_ ?_ ?_ ?_
  · simp [Machine.target, hl, hnone]
  · simp [Machine.target, hl]
  · exact fun w _ hne => target_addTable_ne hnone hne
  · simp

theorem Lent.kernelTable (h : Lent c d D m0 m fl) (hf : m.freelist = f :: rest)
    (hl : (m.dirs d).live = true) (hnone : (m.dirs d).table k = none)
    (hlow : nuserPages ≤ k * nptentries) (hk : k < npdentries) :
    Lent c d D m0 ((m.takeFrame f rest).addKernelTable d k f) fl := by
  refine (h.take hf).put (u := .table d k) (table_mem_placesOf.mpr hk) ?_ ?_ ?_ ?_
  · simp [Machine.target, hl, hnone]
  · simp [Machine.target, hl]
  · intro w hw hne
    exact target_addKernelTable_ne hlow (fun v hv => pte_mem_placesOf.mp (hv ▸ hw)) hne
  · simp

theorem Lent.map (h : Lent c d D m0 m (x.frame :: fl)) (hv : v < nuserPages)
    (hl : (m.dirs d).live = true) (ht : (m.dirs d).table (v / nptentries) ≠ none)
    (hnp : ((m.dirs d).pte v).p = false) (hx : x.p = true) : Lent c d D m0 (m.setPte d v x) fl := by
  refine h.put (u := .pte d v) (pte_mem_placesOf.mpr hv) ?_ ?_ ?_ False.elim
  · exact target_pte_of_not_maps (by simp [PageDir.maps, hnp])
  · rw [← setPte_eq_setDir, target_setPte_self hl ht, if_pos hx]
  · exact fun w _ hw => target_setPte_ne hw

section Steps

variable (h : Lent c d D m0 m fl)

include h

theorem Lent.unmap (hv : v < nuserPages) (hmaps : (m.dirs d).maps v = true) :
    Lent c d D m0 (m.setPte d v Pte.zero) (((m.dirs d).pte v).frame :: fl) := by
  obtain ⟨hl, ht, -⟩ := PageDir.maps_iff.mp hmaps
  refine h.lift (u := .pte d v) (pte_mem_placesOf.mpr hv) (target_pte_of_maps hmaps) ?_ ?_
  · rw [← setPte_eq_setDir, target_setPte_self hl ht, if_neg (by simp [Pte.zero])]
  · exact fun w _ hw => target_setPte_ne hw

/-- An entry that is not present may change to another one that is not. -/
theorem Lent.setAbsent (hold : ((m.dirs d).pte v).p = false)
    (hnew : x.p = false) : Lent c d D m0 (m.setPte d v x) fl := by
  refine h.setDir (h.balanced.congr fun u _ => ?_)
  by_cases hu : u = .pte d v
  · subst hu
    simp [Machine.target, PageDir.maps, hold, hnew]
  · exact target_setPte_ne hu

theorem Lent.sharePte (hp : ((m.dirs D).pte v).p = true) :
    Lent c d D m0 (m.setPte D v ((m.dirs D).pte v).share) fl := by
  refine ⟨h.balanced.congr fun u hu => ?_, h.outside, h.rest.trans rfl, h.mem, ?_, ?_, h.ne⟩
  · refine target_setPte_ne ?_
    rintro rfl
    exact h.ne (inDir_of_mem hu)
  · simpa using h.parent.step hp
  · intro e hed heD
    simpa [heD] using h.dirs e hed heD

theorem Lent.delTable (hl : (m.dirs d).live = true) (hk : (m.dirs d).table k = some f) (hlt : k < npdentries)
    (hclear : ∀ v < nuserPages, v / nptentries = k → ((m.dirs d).pte v).p = false) :
    Lent c d D m0 (m.delTable d k) (f :: fl) := by
  refine h.lift (u := .table d k) (table_mem_placesOf.mpr hlt) ?_ ?_ ?_
  · simp [Machine.target, hl, hk]
  · simp [Machine.target]
  · intro w hw hne
    exact target_delTable_ne (fun v hv => hclear v (pte_mem_placesOf.mp (hv ▸ hw))) hne

theorem Lent.killDir (hl : (m.dirs d).live = true)
    (hnone : ∀ k < npdentries, (m.dirs d).table k = none) : Lent c d D m0 (m.killDir d) (d :: fl) := by
  refine h.lift (u := .dir d) dir_mem_placesOf ?_ ?_ ?_
  · simp [Machine.target, hl]
  · simp [Machine.target]
  · intro w hw hne
    exact target_killDir_ne hnone (fun v hv => pte_mem_placesOf.mp (hv ▸ hw))
      (fun k hk => table_mem_placesOf.mp (hk ▸ hw)) hne

theorem Lent.global (g : Option Nat) : Lent c d D m0 { m with globalPgdir := g } fl :=
  ⟨h.balanced.congr fun u _ => by cases u <;> rfl, h.outside, h.rest.trans rfl, h.mem, h.parent,
    h.dirs, h.ne⟩

end Steps

/-- A directory that is gone owes nothing. -/
theorem Lent.returned (h : Lent c d D m0 m []) (h0 : Consistent c m0)
    (hdead : (m.dirs d).live = false) : Returned c d D m0 m := by
  have hnone : ∀ u ∈ placesOf d, m.target u = none := by
    intro u hu
    have hin := inDir_of_mem hu
    cases u with
    | pte e v =>
      obtain rfl : e = d := hin
      simp [Machine.target, PageDir.maps, hdead]
    | dir e =>
      obtain rfl : e = d := hin
      simp [Machine.target, hdead]
    | table e k =>
      obtain rfl : e = d := hin
      simp [Machine.target, hdead]
    | held g => exact absurd hin id
  have hrefs : ∀ g, m.referenceCounters g = m0.referenceCounters g := by
    intro g
    by_cases hg : managed c g
    · rw [h.balanced.count hg, holders_eq_zero hnone, Nat.zero_add, nil_append,
        count_counted hg]
    · exact h.outside g hg
  refine ⟨funext hrefs, ?_, h.rest, h.mem, h.parent, h.dirs⟩
  rw [perm_ext_iff_of_nodup h.balanced.nodup h0.nodup]
  intro g
  rw [h.balanced.free_iff, h0.free_iff, hrefs]

end Xv6Paging
