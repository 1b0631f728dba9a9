import Xv6Paging.Grow

/-! # Shrinking a paged process

    `deallocuvm` releases the pages between the new and the old size. For pages
    that are in the swap file it clears the entry, the slot and the PTE, and the
    invariant stays. (For pages in RAM it calls `deletePage`, which leaves the
    entry in the RAM list.)
-/

namespace Xv6Paging

open Wp Placement Function

variable {c : Config} {p : Nat} {s s' : Space} {n b : Nat}

/-! ## Dropping one page -/

section Drop

/-- Page `v` has been unmapped; `pr` is what the metadata have become. -/
def Machine.drop (m : Machine) (p v : Nat) (pr : Proc) : Machine :=
  (m.setPte (m.proc p).pgdir v Pte.zero).setProc p pr

variable {m : Machine} {T : PageMap} {l : List Nat} {i v t : Nat} {pr : Proc}

theorem drop_pte (hpr : SameSpace (m.proc p) pr) (w : Nat) :
    (m.drop p v pr).pte p w = if w = v then Pte.zero else m.pte p w :=
  pte_change (m.drop p v pr) (by simpa [Machine.drop] using hpr.pgdir)
    (by simp [Machine.drop]) w

theorem Placed.drop (h : Placed c p m T) (hi : i < maxTotalPages) (hT : T i = .slow v t)
    (hpr : SameSpace (m.proc p) pr) (hrec : pr.Recorded (update T i .free)) :
    Placed c p (m.drop p v pr) (update T i .free) := by
  obtain ⟨hv, hold, hother⟩ := h.only_key hi (v := v) (by simp [hT])
  refine h.change (x := Pte.zero) hi hv hold hother (by simp) rfl (by simp [Pte.zero]) ?_ ?_ ?_
    (by simp [Pte.zero]) (fun w hw _ hpw => (h.frame hw hpw).2) h.free_nodup (fun f hf => h.free hf)
    le_rfl (by simp) h.global h.unlocked h.outside
  · simpa [Machine.drop] using hrec
  · simpa [Machine.drop] using hpr
  · simp [Machine.drop]

theorem Paged.drop (h : Paged c p m T l) (hi : i < maxTotalPages) (hT : T i = .slow v t)
    (hpr : SameSpace (m.proc p) pr) (hrec : pr.Records (update T i .free) l) :
    Paged c p (m.drop p v pr) (update T i .free) l :=
  (h.toPlaced.drop hi hT hpr hrec.toRecorded).paged (by simpa [Machine.drop] using hrec)

theorem tracked_drop {pr : Proc} (h : pr.Recorded T) (hi : i < maxTotalPages)
    (hkey : (T i).key = some v) : Tracked (update T i .free) w ↔ Tracked T w ∧ w ≠ v := by
  constructor
  · rintro ⟨j, hj, hk⟩
    have hji : j ≠ i := by rintro rfl; simp at hk
    rw [update_of_ne hji] at hk
    refine ⟨⟨j, hj, hk⟩, ?_⟩
    rintro rfl
    exact hji (h.ok.key_inj hj hi hk hkey)
  · rintro ⟨⟨j, hj, hk⟩, hwv⟩
    have hji : j ≠ i := by
      rintro rfl
      rw [hkey, Option.some.injEq] at hk
      exact hwv hk.symm
    exact ⟨j, hj, by rwa [update_of_ne hji]⟩

theorem Steady.drop (hs : Steady c p ⟨m, T, l⟩) (hi : i < maxTotalPages) (hT : T i = .slow v t)
    (hpr : SameSpace (m.proc p) pr) (hrec : pr.Records (update T i .free) l) :
    Steady c p ⟨m.drop p v pr, update T i .free, l⟩ := by
  have e1 := fastCount_update (T := T) .free hi
  have e2 := slowCount_update (T := T) .free hi
  simp only [hT, Entry.isFast_free, Entry.isFast_slow, Entry.isSlow_free, Entry.isSlow_slow,
    Bool.toNat_true, Bool.toNat_false] at e1 e2
  have hq := hs.quota
  refine ⟨hs.paged.drop hi hT hpr hrec, ?_, ?_, ⟨?_, ?_, ?_⟩, ?_, ?_⟩
  · intro w y hw hy huw huy
    have hkey : (T i).key = some v := by simp [hT]
    obtain ⟨hw', hwv⟩ := (tracked_drop hs.paged.recorded hi hkey).mp hw
    obtain ⟨hy', hyv⟩ := (tracked_drop hs.paged.recorded hi hkey).mp hy
    simp only [drop_pte hpr, if_neg hwv, if_neg hyv] at huw huy
    exact hs.guarded w y hw' hy' huw huy
  · intro w hw
    simp only [drop_pte hpr]
    split
    · simp [Pte.zero]
    · exact hs.writable w hw
  · have := hq.ram_le
    simp only at this ⊢
    omega
  · have := hq.disk_le
    simp only at this ⊢
    omega
  · intro hpos
    have := hq.full
    simp only at this hpos ⊢
    have := this (by omega)
    omega
  · have hsame := congrArg Proc.swapFile hpr
    simpa [Machine.drop, hsame] using hs.file
  · have hsame := congrArg Proc.killed hpr
    simpa [Machine.drop, hsame] using hs.alive

theorem Space.Private.drop (hs : Space.Private p ⟨m, T, l⟩) (hpr : SameSpace (m.proc p) pr) : Space.Private p ⟨m.drop p v pr, T', l'⟩ := by
  intro w hw hp
  simp only [drop_pte hpr] at hp ⊢
  split at hp
  · simp [Pte.zero] at hp
  · rename_i hwv
    rw [if_neg hwv]
    exact hs w hw hp

theorem drop_kept (hpr : SameSpace (m.proc p) pr) : Kept p m (m.drop p v pr) :=
  ⟨by simp [Machine.drop]; rw [hpr], by simp [Machine.drop]; rw [hpr],
    by simp [Machine.drop]; rw [hpr], by simp [Machine.drop]; rw [hpr],
    by simp [Machine.drop]; rw [hpr], fun q hq => by simp [Machine.drop, hq], fun _ _ => rfl,
    fun d hd => by simp [Machine.drop, hd], by simp [Machine.drop], rfl⟩

/-- `deallocuvm` on a page in the swap file. -/
theorem deallocPaged_drop {found : Bool} (hs : Steady c p ⟨m, T, l⟩) (hi : i < maxTotalPages)
    (hT : T i = .slow v t) :
    wp (deallocPaged p (m.proc p).pgdir (pgsize * v) v found) (fun r m' => r = true ∧ ∃ pr,
      SameSpace (m.proc p) pr ∧ m' = m.drop p v pr ∧
      Steady c p ⟨m', update T i .free, l⟩) noStop m := by
  simp only [deallocPaged, wp_bind, wp_getProc, pteAddr_mul,
    hs.paged.recorded.findPage_eq hi (by simp [hT] : (T i).key = some v), wp_onProc]
  refine wp_mono (dropDiskPage_spec hs.paged.recorded hi hT) ?_ (fun _ _ hf => hf)
  rintro _ pr ⟨hpr, hrecd, -, hlist⟩
  have hil : i ∉ l := by
    intro hil
    have := ((hs.paged.records.mem_iff i).mp hil).2
    simp [hT] at this
  have hrec : pr.Records (update T i .free) l := by
    refine ⟨hrecd, hlist l hs.paged.listed, hs.paged.records.mem_update hi fun j => ?_⟩
    by_cases hji : j = i
    · subst hji; simp [hil]
    · simp [hji]
  rw [wp_setPte, wp_pure]
  exact ⟨rfl, pr, hpr, rfl, hs.drop hi hT hpr hrec⟩

end Drop

/-! ## The loop -/

/-- Releasing the pages from page `v` up to page `n`, all in the swap file. -/
theorem deallocLoop_drop {oldsz fuel v : Nat} {found : Bool} (hs : Steady c p s)
    (hsel : c.selection ≠ .NONE) (hn : n ≤ maxTotalPages)
    (hsz : ∀ w, pgsize * w < oldsz ↔ w < n) (hfuel : n ≤ v + fuel)
    (hout : ∀ w, v ≤ w → w < n → ∃ i < maxTotalPages, ∃ t, s.map i = .slow w t) :
    wp (deallocLoop c p (s.machine.proc p).pgdir oldsz fuel (pgsize * v) found) (fun _ m' =>
      ∃ s' : Space, s'.machine = m' ∧ Steady c p s' ∧ Kept p s.machine m' ∧
        (s.Private p → s'.Private p) ∧ ∀ w, Tracked s'.map w ↔ Tracked s.map w ∧ ¬ (v ≤ w ∧ w < n)) noStop s.machine := by
  induction fuel generalizing s v found with
  | zero =>
    have hlt : ¬ pgsize * v < oldsz := by rw [hsz]; omega
    simp only [deallocLoop, if_neg hlt, wp_pure]
    exact ⟨s, rfl, hs, .refl p _, id, fun w => ⟨fun h => ⟨h, by omega⟩, And.left⟩⟩
  | succ fuel ih =>
    rw [deallocLoop]
    by_cases hlt : pgsize * v < oldsz
    · have hvn : v < n := (hsz v).mp hlt
      obtain ⟨i, hi, t, hT⟩ := hout v (le_refl v) hvn
      obtain ⟨hp, hpg⟩ := (hs.paged.paged_iff (lt_nuserPages (by omega : v < maxTotalPages))).mpr
        ⟨i, hi, t, hT⟩
      rw [if_pos hlt, wp_bind, wp_walkpgdir_mapped _ hs.paged.live (hs.paged.mapped (by omega))]
      simp only [vpn_mul, wp_bind, wp_getPte_own, wp_getProc, hp, hpg, hsel, ne_eq,
        not_false_eq_true, and_self, if_true, Bool.false_eq_true, if_false]
      refine wp_post (deallocPaged_drop hs hi hT) ?_
      rintro r m1 ⟨rfl, pr, hpr, rfl, hs1⟩
      have hkept : Kept p s.machine (s.machine.drop p v pr) := drop_kept hpr
      have hnext : pgsize * v + pgsize = pgsize * (v + 1) := by rw [Nat.mul_succ]
      have hstep := @ih ⟨s.machine.drop p v pr, update s.map i .free, s.list⟩ (v + 1) true
        hs1 (by omega) ?_
      · rw [hnext, ← hkept.pgdir]
        refine wp_post hstep ?_
        rintro _ m' ⟨s', rfl, hs', hk', hpriv, htr⟩
        refine ⟨s', rfl, hs', hkept.trans hk', fun h => hpriv (h.drop hpr), fun w => ?_⟩
        rw [htr, tracked_drop hs.paged.recorded hi (show (s.map i).key = some v by simp [hT]), and_assoc]
        refine and_congr_right fun _ => ?_
        omega
      · intro w hw hwn
        obtain ⟨j, hj, r, hTj⟩ := hout w (by omega) hwn
        have hji : j ≠ i := by
          rintro rfl
          simp only [hT, Entry.slow.injEq] at hTj
          omega
        exact ⟨j, hj, r, (update_of_ne hji _ _).trans hTj⟩
    · have hnv : n ≤ v := by rw [hsz] at hlt; omega
      rw [if_neg hlt, wp_pure]
      exact ⟨s, rfl, hs, .refl p _, id, fun w => ⟨fun h => ⟨h, by omega⟩, And.left⟩⟩

/-- A shrink to `newsz` releases no page that is in RAM. -/
def releasesNoRam (p newsz : Nat) (m : Machine) : Prop :=
  ∀ v < npages (m.proc p).sz, npages newsz ≤ v → (m.pte p v).p = false

instance (p newsz : Nat) (m : Machine) : Decidable (releasesNoRam p newsz m) :=
  inferInstanceAs (Decidable (∀ v < npages (m.proc p).sz, npages newsz ≤ v → _))

/-- Shrinking a process by pages in the swap file, with one page in RAM. -/
theorem growproc_shrink (hs : Running c p s) (hpages : c.pages p) (hk : k < 0)
    (hv : v < npages (s.machine.proc p).sz) (hpv : (s.machine.pte p v).p = true)
    (hrel : releasesNoRam p (((s.machine.proc p).sz + k) % 2 ^ 32).toNat s.machine) :
    wp (growproc c p k) (fun _ m' => ∃ s' : Space, s'.machine = m' ∧ Running c p s' ∧
      (s.Private p → s'.Private p)) noStop s.machine := by
  obtain ⟨b, hb⟩ := hs.shape
  have hszle := hs.sz_le
  have hle := hb.le
  have hmax := hb.le_max
  simp only [growproc, wp_bind, wp_getProc, if_neg (show ¬ 0 < k by omega), if_pos hk, deallocuvm]
  generalize (((s.machine.proc p).sz + k) % 2 ^ 32).toNat = newsz at hrel ⊢
  by_cases hge : (s.machine.proc p).sz ≤ newsz
  · have hpos := hs.sz_pos
    simp only [if_pos hge, wp_pure, if_neg (Nat.pos_iff_ne_zero.mp hpos), wp_bind, wp_modifyProc]
    rw [setSz_self]
    exact ⟨s, rfl, hs, id⟩
  have hround : pgroundup newsz = pgsize * npages newsz :=
    pgroundup_eq (by simp only [pgsize, maxTotalPages] at *; omega)
  rw [if_neg hge, hround]
  simp only [wp_bind, wp_pure]
  have hout : ∀ w, npages newsz ≤ w → w < npages (s.machine.proc p).sz →
      ∃ i < maxTotalPages, ∃ t, s.map i = .slow w t := by
    intro w hw hwn
    rcases PageMap.cases_key s.map w with ⟨i, hi, hT⟩ | hout | hnone
    · have hp := (hs.paged.present_iff (lt_nuserPages (by omega : w < maxTotalPages))).mpr ⟨i, hi, hT⟩
      simp [hrel w hwn hw] at hp
    · exact hout
    · obtain ⟨i, hi, hkey⟩ := (hb.iff w).mpr (.inl hwn)
      exact absurd hkey (hnone i hi)
  refine wp_post (deallocLoop_drop (n := npages (s.machine.proc p).sz) hs.toSteady hpages.1
    (by omega) ?_ ?_ hout) ?_
  · intro w
    simp only [npages, pgsize]
    omega
  · simp only [npages, pgsize]
    omega
  rintro _ m' ⟨s1, rfl, hs1, hkept, hpriv, htr⟩
  -- The page in RAM is below the new size.
  have hpos : newsz ≠ 0 := by
    rintro rfl
    have := hrel v hv (by simp [npages, pgsize])
    simp [this] at hpv
  have hn := npages_le (Nat.le_of_not_le hge)
  simp only [if_neg hpos, wp_modifyProc, wp_bind, wp_pure]
  refine ⟨⟨s1.machine.setProc p ((s1.machine.proc p).setSz newsz), s1.map, s1.list⟩, rfl,
    ⟨hs1.setSz newsz, ⟨b, ?_⟩, ?_⟩, ?_⟩
  · simp only [Machine.setProc_proc, update_self, Proc.setSz]
    refine ⟨by omega, hmax, fun w => ?_⟩
    rw [htr, hb.iff]
    omega
  · simp only [Machine.setProc_proc, update_self, Proc.setSz]
    omega
  · intro h w hw
    rw [setSz_pte]
    exact hpriv h w hw

end Xv6Paging
