import Xv6Paging.FrameCode

/-! # Directories as sequences of events

    `setupkvm`, `freevm` and `copyuvm` work on a directory that is not the one of
    a process in use. They leave every process as it is, so their events are
    those of nobody.
-/

namespace Xv6Paging

open List Wp Function

variable {m m' m'' : Machine} {a d d' v : Nat} {found : Bool} {ks : List Nat} {x : Pte}

/-- The events of code that changes no process. -/
def nobody : Nat → Prop := fun _ => False

/-- No process in use has the directory `d`. -/
def Unowned (m : Machine) (d : Nat) : Prop :=
  ∀ q, (m.proc q).used = true → (m.proc q).pgdir ≠ d

theorem Unowned.of_eq (h : Unowned m d) (hproc : m'.proc = m.proc) :
    Unowned m' d := by
  unfold Unowned
  rw [hproc]
  exact h

/-- User pages of `d` may have been cleared; nothing else is new but counters. -/
structure Cleared (d : Nat) (m m' : Machine) : Prop where
  proc : m'.proc = m.proc
  global : m'.globalPgdir = m.globalPgdir
  live : ∀ e, (m'.dirs e).live = (m.dirs e).live
  table : ∀ e, (m'.dirs e).table = (m.dirs e).table
  pte : ∀ v, ((m'.dirs d).pte v).p = true → ((m.dirs d).pte v).p = true

theorem Cleared.refl (d : Nat) (m : Machine) : Cleared d m m :=
  ⟨rfl, rfl, fun _ => rfl, fun _ => rfl, fun _ h => h⟩

theorem Cleared.trans (h : Cleared d m m') (h' : Cleared d m' m'') :
    Cleared d m m'' :=
  ⟨h'.proc.trans h.proc, h'.global.trans h.global, fun e => (h'.live e).trans (h.live e),
    fun e => (h'.table e).trans (h.table e), fun v hp => h.pte v (h'.pte v hp)⟩

theorem Cleared.drop (m : Machine) (d v f : Nat) : Cleared d m ((m.dropRef f).setPte d v Pte.zero) := by
  refine ⟨rfl, rfl, fun e => setPte_live e, fun e => setPte_table e, ?_⟩
  intro w hp
  by_cases hw : w = v
  · subst hw
    simp [Pte.zero] at hp
  · simpa [update_of_ne hw] using hp

section Rules

variable {c : Config} {p : Nat} {gone : Nat → Nat → Prop} {Inv : Flight → Prop} {E : Stop → Machine →
  Prop} {fl : List Nat}

/-- The directory is not that of `p`, or it has no user page table at all. -/
def Foreign (m : Machine) (p d : Nat) : Prop :=
  (m.proc p).pgdir ≠ d ∨ ∀ k, k * nptentries < nuserPages → (m.dirs d).table k = none

theorem Foreign.cleared (h : Foreign m p d) (hc : Cleared d m m') : Foreign m' p d := by
  unfold Foreign
  rw [hc.proc, hc.table]
  exact h

theorem deallocPresent_foreign (hC : Closed c nobody gone Inv E) (hall : ∀ d v, gone d v)
    (hpgdir : (m.proc p).pgdir ≠ d) (h : Inv ⟨m, fl⟩) (hv : v < nuserPages)
    (hmaps : (m.dirs d).maps v = true) :
    wp (deallocPresent c p d a v found) (fun _ m' => Inv ⟨m', fl⟩ ∧ Cleared d m m' ∧
      ((m'.dirs d).pte v).p = false) E m := by
  simp only [deallocPresent, wp_bind, wp_getPte, wp_ite, wp_throw]
  refine ⟨fun _ => hC.stop (by decide), fun _ => ?_⟩
  refine wp_post (kfree_then_clear hC h hv hmaps (hall d v)) ?_
  rintro _ m1 ⟨rfl, h1⟩
  rw [wp_setPte, wp_getProc]
  refine ⟨fun hd => absurd hd.2 hpgdir, fun _ => ⟨h1, .drop m d v _, ?_⟩⟩
  simp [Pte.zero]

/-- On a foreign directory `deallocuvm` clears every page. -/
theorem deallocuvm_foreign (hC : Closed c nobody gone Inv E) (hall : ∀ d v, gone d v)
    (hforeign : Foreign m p d) (h : Inv ⟨m, fl⟩) :
    wp (deallocuvm c p d kernbase 0) (fun _ m' => Inv ⟨m', fl⟩ ∧ Cleared d m m' ∧
      ∀ v < nuserPages, (m.dirs d).table (v / nptentries) ≠ none → ((m'.dirs d).pte v).p = false) E m := by
  -- Before the turn at page `v`, the pages below it are clear.
  let I v m' := Inv ⟨m', fl⟩ ∧ Cleared d m m' ∧
    ∀ w < v, (m.dirs d).table (w / nptentries) ≠ none → ((m'.dirs d).pte w).p = false
  have hstep : ∀ {v m1 m2}, I v m1 → Inv ⟨m2, fl⟩ → Cleared d m1 m2 → ((m2.dirs d).pte v).p = false →
      I (v + 1) m2 := by
    rintro v m1 m2 ⟨-, hc1, hclear⟩ h2 hc2 hp2
    refine ⟨h2, hc1.trans hc2, fun w hw ht => ?_⟩
    rcases Nat.lt_succ_iff_lt_or_eq.mp hw with hlt | rfl
    · rw [← Bool.not_eq_true]
      intro hp
      exact absurd (hc2.pte w hp) (by simpa using hclear w hlt ht)
    · exact hp2
  have hpgdir : ∀ {v m1}, v < nuserPages → I v m1 → (m1.dirs d).table (v / nptentries) ≠ none →
      (m1.proc p).pgdir ≠ d := by
    rintro v m1 hv ⟨-, hc1, -⟩ ht
    rw [hc1.table] at ht
    rw [hc1.proc]
    refine hforeign.resolve_right fun hno => ht (hno _ ?_)
    simp only [nptentries, nuserPages] at *
    omega
  refine wp_post (wp_deallocuvm_pages (I := I) le_rfl rfl
    (fun _ => ⟨hC.stop (by decide), hC.stop (by decide)⟩) ?_ ?_ ?_ ?_ ⟨h, .refl d m, ?_⟩) ?_
  · rintro v m1 - hv ⟨h1, hc1, hclear⟩ hnone
    refine ⟨h1, hc1, fun w hw ht => hclear w ?_ ht⟩
    -- The pages up to the next table have no PTE.
    by_contra hlow
    have hsame : w / nptentries = v / nptentries := by
      simp only [nptentries] at *
      omega
    rw [hsame, ← hc1.table] at ht
    exact ht hnone
  · intro v m1 found _ hv hI hl ht hp
    have hmaps : (m1.dirs d).maps v = true := PageDir.maps_iff.mpr ⟨hl, ht, hp⟩
    refine wp_post (deallocPresent_foreign hC hall (hpgdir hv hI ht) hI.1 hv hmaps) ?_
    rintro _ m2 ⟨h2, hc2, hp2⟩
    exact hstep hI h2 hc2 hp2
  · rintro v m1 found - hv hI ht - ⟨-, hd⟩
    exact absurd hd (hpgdir hv hI ht)
  · intro v m1 _ _ hI hp _
    exact hstep hI hI.1 (.refl d m1) hp
  · intro w hw
    simp [npages, pgsize] at hw
  · rintro _ m' ⟨-, w, hw, h', hc, hclear⟩
    refine ⟨h', hc, fun v hv ht => hclear v (lt_of_lt_of_le ?_ hw) ht⟩
    simpa [npages, kernbase, pgsize, nuserPages] using hv

/-! ## The page tables of a directory -/

/-- What an invariant has to allow so that the code that makes and releases directory `d` keeps it;
    the list has the frames in flight. -/
structure DirRules (c : Config) (d : Nat) (J : Machine → List Nat → Prop)
    (E : Stop → Machine → Prop) : Prop where
  kfree : ∀ {m f fl}, J m (f :: fl) →
    wp (kfree c f) (fun _ m' => m' = m.dropRef f ∧ J m' fl) E m
  kernelTable : ∀ {m f fl rest k}, J m fl → m.freelist = f :: rest → (m.dirs d).live = true →
    (m.dirs d).table k = none → nuserPages ≤ k * nptentries → k < npdentries →
    J ((m.takeFrame f rest).addKernelTable d k f) fl
  delTable : ∀ {m f fl k}, J m fl → (m.dirs d).live = true → (m.dirs d).table k = some f →
    k < npdentries → (∀ v < nuserPages, v / nptentries = k → ((m.dirs d).pte v).p = false) →
    J (m.delTable d k) (f :: fl)
  killDir : ∀ {m fl}, J m fl → (m.dirs d).live = true → (∀ k < npdentries, (m.dirs d).table k = none) →
    J (m.killDir d) (d :: fl)
  global : ∀ {m fl} (g : Option Nat), J m fl → J { m with globalPgdir := g } fl

section DirRules

variable {J : Machine → List Nat → Prop}

section Cleared

variable (hJ : DirRules c d J E) (h : J m fl) (hl : (m.dirs d).live = true)
  (hclear : ∀ v < nuserPages, (m.dirs d).table (v / nptentries) ≠ none → ((m.dirs d).pte v).p = false)

include hJ h hl hclear

/-- The page tables in the slots `ks` go. -/
theorem DirRules.freeTables (hks : ∀ k ∈ ks, k < npdentries) :
    wp (freeTables c d ks) (fun _ m' => J m' fl ∧ (m'.dirs d).live = true ∧
      ∀ k, (m'.dirs d).table k = if k ∈ ks then none else (m.dirs d).table k) E m := by
  induction ks generalizing m with
  | nil => exact ⟨h, hl, fun k => by simp⟩
  | cons k ks ih =>
    have hks' : ∀ j ∈ ks, j < npdentries := fun j hj => hks j (mem_cons_of_mem k hj)
    rw [Xv6Paging.freeTables, wp_bind, wp_get]
    cases hk : (m.dirs d).table k with
    | none =>
      refine wp_post (ih h hl hclear hks') ?_
      rintro _ m' ⟨h', hl', htable⟩
      refine ⟨h', hl', fun j => ?_⟩
      rw [htable j]
      by_cases hj : j = k
      · subst hj
        simp [hk]
      · simp [hj]
    | some f =>
      have hdel : ∀ v < nuserPages, v / nptentries = k → ((m.dirs d).pte v).p = false := by
        intro v hv hvk
        apply hclear v hv
        rw [hvk, hk]
        simp
      have h1 := hJ.delTable h hl hk (hks k (by simp)) hdel
      refine (wp_bind _ _ _ _ _).mpr ((wp_modify _ _ _ _).mpr ?_)
      refine (wp_bind _ _ _ _ _).mpr (wp_post (hJ.kfree (m := m.delTable d k) h1) ?_)
      rintro _ m2 ⟨rfl, h2⟩
      have hdir : ((m.delTable d k).dropRef f).dirs d =
          ⟨(m.dirs d).live, update (m.dirs d).table k none, (m.dirs d).pte⟩ := by
        simp [Machine.delTable]
      refine wp_post (ih h2 (by rw [hdir]; exact hl) ?_ hks') ?_
      · intro v hv
        rw [hdir]
        intro ht
        by_cases hvk : v / nptentries = k
        · exact hdel v hv hvk
        · exact hclear v hv (by simpa [update_of_ne hvk] using ht)
      · rintro _ m' ⟨h', hl', htable⟩
        refine ⟨h', hl', fun j => ?_⟩
        rw [htable j, hdir]
        by_cases hj : j = k
        · subst hj
          simp
        · simp [hj]

/-- The end of `freevm`, when no user page is left. -/
theorem DirRules.release (hks : ∀ k, k ∈ ks ↔ k < npdentries) :
    wp (Xv6Paging.freeTables c d ks) (fun _ m' => wp (Xv6Paging.kfree c d)
      (fun _ m'' => J m'' fl ∧ m''.globalPgdir = none ∧ (m''.dirs d).live = false) E (({ m' with globalPgdir := none } : Machine).setDir d { m'.dirs d with live := false })) E m := by
  refine wp_post (hJ.freeTables h hl hclear fun k hk => (hks k).mp hk) ?_
  rintro _ m1 ⟨h1, hl1, htable⟩
  have hnone : ∀ k < npdentries, (m1.dirs d).table k = none := by
    intro k hk
    rw [htable k, if_pos ((hks k).mpr hk)]
  refine wp_post (hJ.kfree (hJ.killDir (hJ.global none h1) hl1 hnone)) ?_
  rintro _ m2 ⟨rfl, h2⟩
  exact ⟨h2, rfl, by simp⟩

end Cleared

/-- Only directory `d` and the allocator have changed. -/
structure InDir (d : Nat) (m m' : Machine) : Prop where
  proc : m'.proc = m.proc
  global : m'.globalPgdir = m.globalPgdir
  dirs : ∀ e, e ≠ d → m'.dirs e = m.dirs e

theorem InDir.trans (h : InDir d m m') (h' : InDir d m' m'') : InDir d m m'' :=
  ⟨h'.proc.trans h.proc, h'.global.trans h.global, fun e he => (h'.dirs e he).trans (h.dirs e he)⟩

/-- Page tables for kernel slots that have none, as long as there are frames. -/
theorem DirRules.mapKernel (hJ : DirRules c d J E) (hnd : ks.Nodup)
    (hks : ∀ k ∈ ks, nuserPages ≤ k * nptentries ∧ k < npdentries ∧ (m.dirs d).table k = none)
    (hl : (m.dirs d).live = true) (h : J m fl) :
    wp (mapKernel d ks) (fun ok m' => J m' fl ∧ InDir d m m' ∧ (m'.dirs d).live = true ∧
      (m'.dirs d).pte = (m.dirs d).pte ∧
      (∀ k, k * nptentries < nuserPages → (m'.dirs d).table k = (m.dirs d).table k) ∧
      ((ok = true ∧ m.freelist.length = ks.length + m'.freelist.length) ∨
        (ok = false ∧ m.freelist.length < ks.length))) E m := by
  have hin0 : InDir d m m := ⟨rfl, rfl, fun _ _ => rfl⟩
  induction ks generalizing m with
  | nil => exact ⟨h, hin0, hl, rfl, fun _ _ => rfl, .inl ⟨rfl, by simp⟩⟩
  | cons k ks ih =>
    obtain ⟨hlow, hlt, hnone⟩ := hks k (by simp)
    obtain ⟨hnotin, hnd'⟩ := nodup_cons.mp hnd
    rw [Xv6Paging.mapKernel, wp_bind, wp_kalloc]
    refine ⟨fun hnil => ⟨h, hin0, hl, rfl, fun _ _ => rfl, .inr ⟨rfl, by simp [hnil]⟩⟩,
      fun f rest hf => ?_⟩
    have h1 := hJ.kernelTable h hf hl hnone hlow hlt
    have hdir : ((m.takeFrame f rest).addKernelTable d k f).dirs d =
        ⟨(m.dirs d).live, update (m.dirs d).table k (some f), (m.dirs d).pte⟩ := by
      simp [Machine.addKernelTable]
    have hin : InDir d m ((m.takeFrame f rest).addKernelTable d k f) :=
      ⟨rfl, rfl, fun e he => by simp [Machine.addKernelTable, update_of_ne he]⟩
    refine (wp_bind _ _ _ _ _).mpr ((wp_modify _ _ _ _).mpr ?_)
    refine wp_post (ih hnd' ?_ (by rw [hdir]; exact hl) h1 ⟨rfl, rfl, fun _ _ => rfl⟩) ?_
    · intro j hj
      obtain ⟨hlow', hlt', hnone'⟩ := hks j (mem_cons_of_mem k hj)
      refine ⟨hlow', hlt', ?_⟩
      rw [hdir]
      have hjk : j ≠ k := fun hjk => hnotin (hjk ▸ hj)
      simpa [update_of_ne hjk] using hnone'
    · rintro ok m' ⟨h', hin', hl', hpte', htable', hres⟩
      refine ⟨h', hin.trans hin', hl', by rw [hpte', hdir], fun j hj => ?_, ?_⟩
      · have hjk : j ≠ k := by rintro rfl; omega
        rw [htable' j hj, hdir]
        simp [update_of_ne hjk]
      · have hlen : ((m.takeFrame f rest).addKernelTable d k f).freelist.length + 1 =
            m.freelist.length := by
          rw [hf]
          rfl
        rw [length_cons]
        rcases hres with ⟨rfl, hlt'⟩ | ⟨rfl, hlt'⟩
        · exact .inl ⟨rfl, by omega⟩
        · exact .inr ⟨rfl, by omega⟩

end DirRules

/-! ## Releasing and creating a directory -/

theorem Closed.global (hC : Closed c nobody gone Inv E) (g : Option Nat) (h : Inv ⟨m, fl⟩) :
    Inv ⟨{ m with globalPgdir := g }, fl⟩ := by
  have hn : Neutral nobody m { m with globalPgdir := g } :=
    ⟨rfl, rfl, rfl, fun _ => rfl, fun _ => rfl, fun _ _ => .refl _, fun _ => rfl, fun _ => rfl,
      fun _ _ => rfl⟩
  exact hC.step (.neutral hn) h

theorem Closed.dirRules (hC : Closed c nobody gone Inv E) (hown : Unowned m d) :
    DirRules c d (fun m' fl => Inv ⟨m', fl⟩ ∧ m'.proc = m.proc) E where
  kfree h := wp_post (kfree_inv hC h.1) fun _ _ h' => ⟨h'.1, h'.2, by rw [h'.1]; exact h.2⟩
  kernelTable h hf hl hnone hlow hk := ⟨hC.step (.kernelTable hf hl hnone hlow hk) h.1, h.2⟩
  delTable h hl hk hlt hclear := ⟨hC.step (.delTable hl hk hlt hclear (hown.of_eq h.2)) h.1, h.2⟩
  killDir h hl hnone := ⟨hC.step (.killDir hl hnone (hown.of_eq h.2)) h.1, h.2⟩
  global g h := ⟨hC.global g h.1, h.2⟩

/-- `freevm` of a directory that no process in use has. -/
theorem freevm_inv (hC : Closed c nobody gone Inv E) (hall : ∀ d v, gone d v)
    (hforeign : Foreign m p d) (hown : Unowned m d) (h : Inv ⟨m, fl⟩) :
    wp (freevm c p d) (fun _ m' => Inv ⟨m', fl⟩ ∧ m'.proc = m.proc ∧ m'.globalPgdir = none) E m := by
  rw [freevm, wp_ite]
  refine ⟨fun _ => hC.stop (by decide), fun _ => ?_⟩
  simp only [wp_bind, wp_modify]
  have hks : ∀ k, k ∈ List.range npdentries ↔ k < npdentries := fun k => mem_range
  generalize List.range npdentries = ks at hks
  generalize hm1 : ({ m with globalPgdir := some d } : Machine) = m1
  have hproc1 : m1.proc = m.proc := by rw [← hm1]
  have hdirs1 : m1.dirs = m.dirs := by rw [← hm1]
  have h1 : Inv ⟨m1, fl⟩ := by rw [← hm1]; exact hC.global (some d) h
  have hforeign1 : Foreign m1 p d := by unfold Foreign; rw [hproc1, hdirs1]; exact hforeign
  by_cases hl : (m1.dirs d).live = true
  · refine wp_post (deallocuvm_foreign hC hall hforeign1 h1) ?_
    rintro _ m2 ⟨h2, hc2, hclear⟩
    refine wp_post ((hC.dirRules hown).release ⟨h2, hc2.proc.trans hproc1⟩ (by rw [hc2.live]; exact hl)
      (fun v hv ht => hclear v hv (by rwa [hc2.table] at ht)) hks) ?_
    exact fun _ _ h3 => wp_post h3 fun _ _ h4 => ⟨h4.1.1, h4.1.2, h4.2.1⟩
  · -- A directory that is gone is a wild pointer.
    rw [deallocuvm, if_neg (by decide), wp_bind]
    show wp (deallocLoop c p d kernbase (kernbase / pgsize + 1) _ _) _ _ _
    rw [deallocLoop, if_pos (by decide), wp_bind, wp_walkpgdir]
    exact ⟨fun hlive => absurd hlive hl, fun _ => hC.stop (by decide)⟩

theorem kmapSlots_nodup : kmapSlots.Nodup := by decide

theorem kmapSlots_range : ∀ k ∈ kmapSlots, nuserPages ≤ k * nptentries ∧ k < npdentries := by decide

/-- `d` is a new directory, without user pages, that belongs to no process. -/
structure NewDir (c : Config) (m m' : Machine) (d : Nat) : Prop where
  live : (m'.dirs d).live = true
  pte : (m'.dirs d).pte = kmapPte c
  table : ∀ k, k * nptentries < nuserPages → (m'.dirs d).table k = none
  unowned : Unowned m' d
  dirs : ∀ e, e ≠ d → m'.dirs e = m.dirs e
  free : d ∈ m.freelist

/-- `setupkvm`. No process in use has a frame of the free list as its directory. -/
theorem setupkvm_inv (hC : Closed c nobody gone Inv E) (hall : ∀ d v, gone d v)
    (hfree : ∀ d ∈ m.freelist, Unowned m d) (h : Inv ⟨m, fl⟩) (hg : m.globalPgdir = none) :
    wp (setupkvm c p) (fun r m' => Inv ⟨m', fl⟩ ∧ m'.proc = m.proc ∧ m'.globalPgdir = none ∧
      ∀ d, r = some d → NewDir c m m' d) E m := by
  rw [setupkvm, wp_bind, wp_kalloc]
  refine ⟨fun _ => ⟨h, rfl, hg, fun d hd => nomatch hd⟩, fun d rest hf => ?_⟩
  have hown : Unowned m d := hfree d (by simp [hf])
  have h1 : Inv ⟨(m.takeFrame d rest).setDir d (PageDir.fresh c), fl⟩ := hC.step (.newDir hf) h
  have hdir : ((m.takeFrame d rest).setDir d (PageDir.fresh c)).dirs d = PageDir.fresh c := by simp
  simp only [wp_bind, wp_modify]
  generalize hm1 : (m.takeFrame d rest).setDir d (PageDir.fresh c) = m1 at h1 hdir
  have hin1 : InDir d m m1 := by
    rw [← hm1]
    exact ⟨rfl, rfl, fun e he => by simp [update_of_ne he]⟩
  have hnd := kmapSlots_nodup
  have hrange := kmapSlots_range
  generalize kmapSlots = ks at hnd hrange
  refine wp_post ((hC.dirRules hown).mapKernel hnd ?_ (by rw [hdir]; rfl) ⟨h1, hin1.proc⟩) ?_
  · intro k hk
    exact ⟨(hrange k hk).1, (hrange k hk).2, by rw [hdir]; rfl⟩
  · rintro ok m2 ⟨⟨h2, -⟩, hin2, hl2, hpte2, htable2, -⟩
    have hin := hin1.trans hin2
    have hnone : ∀ k, k * nptentries < nuserPages → (m2.dirs d).table k = none := by
      intro k hk
      rw [htable2 k hk, hdir]
      rfl
    have hown2 : Unowned m2 d := hown.of_eq hin.proc
    rw [wp_ite]
    refine ⟨fun _ => ⟨h2, hin.proc, hin.global.trans hg, ?_⟩, fun _ => ?_⟩
    · intro e he
      cases he
      exact ⟨hl2, by rw [hpte2, hdir]; rfl, hnone, hown2, hin.dirs, by simp [hf]⟩
    · rw [wp_bind]
      refine wp_post (freevm_inv hC hall (.inr hnone) hown2 h2) ?_
      rintro _ m3 ⟨h3, hproc3, hg3⟩
      exact ⟨h3, hproc3.trans hin.proc, hg3, fun e he => nomatch he⟩

/-! ## Copying -/

theorem Pte.share_same (pte : Pte) : SamePte pte pte.share := by
  unfold Pte.share
  split
  · exact ⟨rfl, fun _ => ⟨rfl, rfl⟩⟩
  · exact .refl pte

/-- The pages of `d` from `v` on have not been copied to `d'` yet. -/
structure Copying (d d' v : Nat) (m : Machine) : Prop where
  ne : d ≠ d'
  empty : ∀ w, v ≤ w → w < nuserPages → ((m.dirs d').pte w).p = false

theorem Copying.widened (h : Copying d d' v m) (hw : Widened m m') :
    Copying d d' v m' := by
  refine ⟨h.ne, fun w hvw hw' => ?_⟩
  rcases hw.fresh d' w with heq | heq
  · rw [heq]
    exact h.empty w hvw hw'
  · rw [heq]
    rfl

theorem Copying.setPte_other (h : Copying d d' v m) : Copying d d' v (m.setPte d w x) := by
  refine ⟨h.ne, fun u hvu hu => ?_⟩
  rw [Machine.setPte_dirs, update_of_ne h.ne.symm]
  exact h.empty u hvu hu

theorem Copying.setPte (h : Copying d d' v m) :
    Copying d d' (v + 1) (m.setPte d' v x) := by
  refine ⟨h.ne, fun w hvw hw => ?_⟩
  have hne : w ≠ v := by omega
  simpa [update_of_ne hne] using h.empty w (by omega) hw

/-- A present page is shared: both PTEs change and the count goes up. -/
theorem sharePage_inv (hC : Closed c nobody gone Inv E) {pte : Pte} (h : Inv ⟨m, fl⟩)
    (hc : Copying d d' v m) (hv : v < nuserPages) (hmaps : (m.dirs d).maps v = true)
    (hpte : (m.dirs d).pte v = pte) {β : Type} {k : K β} {Q : β → Machine → Prop} {y : β}
    (hk : ∀ m', Inv ⟨m', fl⟩ → Copying d d' (v + 1) m' → m'.proc = m.proc →
      m'.globalPgdir = m.globalPgdir → wp k Q E m')
    (hy : ∀ m', Inv ⟨m', fl⟩ → m'.proc = m.proc → m'.globalPgdir = m.globalPgdir → Q y m') :
    wp (do
      setPte d v pte.share
      let ok ← mappages d' (v * pgsize) pte.frame pte.share
      if ok = true then
        incrementRef c pte.frame
        k
      else
        pure y) Q E m := by
  have hn : Neutral nobody m (m.setPte d v pte.share) := .setPte (by rw [hpte]; exact pte.share_same)
  have h1 := hC.step (.neutral hn) h
  have hva : v * pgsize < kernbase := by simp only [pgsize, kernbase, nuserPages] at *; omega
  have hvpn : vpn (v * pgsize) = v := by simp [vpn]
  rw [wp_bind, wp_setPte, wp_bind, mappages, wp_bind]
  refine wp_post (walkpgdir_inv hC h1 hva) ?_
  rintro r m2 ⟨h2, hw, hr⟩
  cases r with
  | none => exact hy m2 h2 hw.proc hw.global
  | some u =>
    obtain ⟨rfl, hl', ht'⟩ := hr u rfl
    have hc2 : Copying d d' v m2 := hc.setPte_other.widened hw
    simp only [hvpn, wp_bind, wp_getPte, wp_ite, wp_throw, wp_setPte, wp_pure, incrementRef, wp_modify]
    refine ⟨fun _ => hC.stop (by decide), fun _ => ⟨fun _ => ⟨fun _ => ?_, fun _ => ?_⟩, fun h => (h trivial).elim⟩⟩
    · -- The source PTE still maps the frame, so its count may go up.
      obtain ⟨hl, ht, hp⟩ := PageDir.maps_iff.mp hmaps
      have hsrc : (m2.dirs d).pte v = pte.share := by
        rw [hw.pte d v (.inl (by rwa [setPte_table]))]
        simp
      have hmaps2 : (m2.dirs d).maps v = true := by
        refine PageDir.maps_iff.mpr ⟨?_, ?_, ?_⟩
        · rw [hw.live, setPte_live]
          exact hl
        · exact hw.table d _ (by rwa [setPte_table])
        · rw [hsrc, pte.share_same.1, ← hpte]
          exact hp
      have hframe : ((m2.dirs d).pte v).frame = pte.frame := by
        rw [hsrc]
        exact (pte.share_same.2 (by rw [← hpte]; exact hp)).1
      have h3 := hC.step (.more hv hmaps2) h2
      rw [hframe] at h3
      have h4 : Inv ⟨(m2.moreRef pte.frame).setPte d' v (pte.share.mapTo pte.frame), fl⟩ :=
        hC.step (.map hv hl' (by rwa [pdx, ← vpn, hvpn] at ht') (hc2.empty v le_rfl hv) rfl) h3
      have hc4 : Copying d d' (v + 1) (m2.setPte d' v (pte.share.mapTo pte.frame)) := hc2.setPte
      exact hk _ h4 ⟨hc4.ne, hc4.empty⟩ hw.proc hw.global
    · exact hC.stop (by decide)

/-- Pages are shared one by one. -/
theorem copyuvmLoop_inv (hC : Closed c nobody gone Inv E) {k : Nat} (hkv : v + k ≤ nuserPages)
    (h : Inv ⟨m, fl⟩) (hc : Copying d d' v m) :
    wp (copyuvmLoop c d d' k v) (fun _ m' => Inv ⟨m', fl⟩ ∧ m'.proc = m.proc ∧
      m'.globalPgdir = m.globalPgdir) E m := by
  induction k generalizing m v with
  | zero => exact ⟨h, rfl, rfl⟩
  | succ k ih =>
    have hv : v < nuserPages := by omega
    have hva : v * pgsize < kernbase := by simp only [pgsize, kernbase, nuserPages] at *; omega
    have hvpn : vpn (v * pgsize) = v := by simp [vpn]
    have hpdx : pdx (v * pgsize) = v / nptentries := by rw [pdx, ← vpn, hvpn]
    -- What remains after page `v`, from any state with the same processes.
    have hrest : ∀ m', Inv ⟨m', fl⟩ → Copying d d' (v + 1) m' → m'.proc = m.proc →
        m'.globalPgdir = m.globalPgdir → wp (copyuvmLoop c d d' k (v + 1)) (fun _ m' =>
          Inv ⟨m', fl⟩ ∧ m'.proc = m.proc ∧ m'.globalPgdir = m.globalPgdir) E m' := by
      intro m' h' hc' hproc hglobal
      refine wp_post (ih (by omega) h' hc') ?_
      rintro _ m'' ⟨h'', hproc'', hglobal''⟩
      exact ⟨h'', hproc''.trans hproc, hglobal''.trans hglobal⟩
    rw [copyuvmLoop, wp_bind, wp_walkpgdir, hvpn, hpdx]
    refine ⟨fun hl => ⟨fun _ => hC.stop (by decide), fun ht => ?_⟩, fun _ => hC.stop (by decide)⟩
    simp only [wp_bind, wp_getPte]
    rw [wp_ite]
    refine ⟨fun hp => ?_, fun hnp => ?_⟩
    · exact sharePage_inv hC h hc hv (PageDir.maps_iff.mpr ⟨hl, ht, hp⟩) rfl hrest
        (fun m' h' hproc hglobal => ⟨h', hproc, hglobal⟩)
    · rw [wp_ite]
      refine ⟨fun _ => ?_, fun _ => hC.stop (by decide)⟩
      rw [wp_bind]
      refine wp_post (walkpgdir_inv hC h hva) ?_
      rintro r m2 ⟨h2, hw, hr⟩
      cases r with
      | none => exact hC.stop (by decide)
      | some u =>
        obtain ⟨hu, -, -⟩ := hr u rfl
        rw [hvpn] at hu
        subst hu
        have hc2 : Copying d d' u m2 := hc.widened hw
        have hempty := hc2.empty u le_rfl hv
        have hn : Neutral nobody m2 (m2.setPte d' u { (m.dirs d).pte u with frame := 0 }) := by
          refine .setPte ⟨?_, fun hp => ?_⟩
          · rw [hempty]
            simpa using hnp
          · rw [hempty] at hp
            exact absurd hp (by decide)
        exact hrest _ (hC.step (.neutral hn) h2) hc2.setPte hw.proc hw.global

/-- `copyuvm`, into a new directory that belongs to no process yet. -/
theorem copyuvm_inv (hC : Closed c nobody gone Inv E) (hall : ∀ d v, gone d v) {sz : Nat}
    (hsz : sz ≤ kernbase) (hfree : ∀ d ∈ m.freelist, Unowned m d) (hused : (m.proc p).used = true)
    (h : Inv ⟨m, fl⟩) (hg : m.globalPgdir = none) :
    wp (copyuvm c p (m.proc p).pgdir sz) (fun _ m' => Inv ⟨m', fl⟩ ∧ m'.proc = m.proc ∧
      m'.globalPgdir = none) E m := by
  rw [copyuvm, wp_bind]
  refine wp_post (setupkvm_inv hC hall hfree h hg) ?_
  rintro r m1 ⟨h1, hproc1, hg1, hnew⟩
  cases r with
  | none => exact ⟨h1, hproc1, hg1⟩
  | some d' =>
    have hn := hnew d' rfl
    have hne : (m.proc p).pgdir ≠ d' := by
      have := hn.unowned p (by rw [hproc1]; exact hused)
      rwa [hproc1] at this
    have hc : Copying (m.proc p).pgdir d' 0 m1 := by
      refine ⟨hne, fun w _ hw => ?_⟩
      rw [hn.pte, kmapPte, if_pos hw]
      rfl
    have hpages : 0 + (sz + (pgsize - 1)) / pgsize ≤ nuserPages := by
      simp only [pgsize, kernbase, nuserPages] at *
      omega
    refine (wp_bind _ _ _ _ _).mpr (wp_post (copyuvmLoop_inv hC hpages h1 hc) ?_)
    rintro ok m2 ⟨h2, hproc2, hg2⟩
    have hproc := hproc2.trans hproc1
    rw [wp_ite]
    refine ⟨fun _ => ⟨h2, hproc, hg2.trans hg1⟩, fun _ => ?_⟩
    rw [wp_bind]
    refine wp_post (freevm_inv hC hall (.inl (by rw [hproc]; exact hne)) (hn.unowned.of_eq hproc2) h2) ?_
    rintro _ m3 ⟨h3, hproc3, hg3⟩
    exact ⟨h3, hproc3.trans hproc, hg3⟩

end Rules

end Xv6Paging
