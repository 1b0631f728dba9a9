import Xv6Paging.Process
import Xv6Paging.Release

/-! # Growing and shrinking as system calls see it

    What `allocuvm` leaves behind when it fails, and what `sbrk` promises: it changes the size by
    exactly the number of bytes asked for, or it fails and changes nothing.

    `allocuvm` undoes its work when memory runs out, but not when the process has
    `MAX_TOTAL_PAGES` pages. `growproc` takes the size `0` for a failure, and computes the new
    size modulo `2^32`.
-/

namespace Xv6Paging

open List Wp Run Placement Function

variable {c : Config} {p : Nat} {s s' : Space} {m m' m'' : Machine} {T T' : PageMap} {n v w : Nat}
  {pr : Proc} {f k newsz oldsz : Nat} {l : List Nat} {found : Bool}

/-! ## Mapped pages and entries in use -/

/-- User page `v` of process `p` has a PTE with `PTE_P` or `PTE_PG`. -/
def Machine.mapped (m : Machine) (p v : Nat) : Prop :=
  (m.dirs (m.proc p).pgdir).table (v / nptentries) ≠ none ∧
    ((m.pte p v).p = true ∨ (m.pte p v).pg = true)

/-- The number of entries in use. -/
def Proc.tracked (pr : Proc) : Nat :=
  ((Finset.range maxTotalPages).filter fun i => (pr.pagesMetaData i).page.state ≠ .notUsed).card

theorem Proc.Recorded.tracked_eq (h : pr.Recorded T) :
    pr.tracked = fastCount maxTotalPages T + slowCount maxTotalPages T := by
  rw [fastCount_add_slowCount, Proc.tracked]
  congr 1
  refine Finset.filter_congr fun i hi => ?_
  rw [ne_eq, (h.entry i (Finset.mem_range.mp hi)).notUsed_iff]
  cases T i with
  | free => simp
  | fast v => simp
  | slow v s => simp

/-- The pages of a process are those with an entry. -/
theorem Placed.mapped_iff (h : Placed c p m T) (hv : v < nuserPages) :
    m.mapped p v ↔ Tracked T v := by
  constructor
  · rintro ⟨-, hpte⟩
    by_contra hnew
    obtain ⟨hp, hpg⟩ := h.unmapped hv hnew
    simp [hp, hpg] at hpte
  · intro ht
    have hlt := h.tracked_lt ht
    refine ⟨?_, ?_⟩
    · have h0 : v / nptentries = 0 := by
        simp only [nptentries, maxTotalPages] at *
        omega
      rw [h0]
      exact h.table
    · obtain ⟨i, hi, hk⟩ := ht
      cases hT : T i with
      | free => simp [hT] at hk
      | fast w =>
        simp only [hT, Entry.key_fast, Option.some.injEq] at hk
        exact .inl ((h.present_iff hv).mpr ⟨i, hi, by rw [hT, hk]⟩)
      | slow w t =>
        simp only [hT, Entry.key_slow, Option.some.injEq] at hk
        exact .inr ((h.paged_iff hv).mpr ⟨i, hi, t, by rw [hT, hk]⟩).2

/-- A process that has the pages below page `n`, and no others. -/
def Pages (T : PageMap) (n : Nat) : Prop := ∀ v, Tracked T v ↔ v < n

theorem Pages.le_max (h : Pages T n) (hrec : pr.Recorded T) : n ≤ maxTotalPages := by
  by_contra hlt
  obtain ⟨i, hi, hk⟩ := (h maxTotalPages).mpr (by omega)
  exact absurd (hrec.page_lt hi hk) (by omega)

theorem Pages.shape (h : Pages T n) (hrec : pr.Recorded T) :
    Shape T n maxTotalPages :=
  ⟨h.le_max hrec, le_refl _, fun v => by rw [h v]; omega⟩

theorem Pages.total (h : Pages T n) (hrec : pr.Recorded T) : pr.tracked = n := by
  have hks : ∀ v, v ∈ Finset.range n ↔ ∃ i < maxTotalPages, (T i).key = some v := by
    intro v
    rw [Finset.mem_range]
    exact (h v).symm
  rw [hrec.tracked_eq, hrec.ok.card_keys hks, Finset.card_range]

/-! ## A growth that fails -/

/-- No user page from `oldsz` up to `newsz` is mapped or has an entry, and as many entries are in
    use as before. -/
structure NoTrace (p oldsz newsz : Nat) (m m' : Machine) : Prop where
  unmapped : ∀ v < nuserPages, pgroundup oldsz ≤ pgsize * v → pgsize * v < newsz → ¬ m'.mapped p v
  unused : ∀ i < maxTotalPages, ((m'.proc p).pagesMetaData i).page.state ≠ .notUsed →
    ¬ (pgroundup oldsz ≤ ((m'.proc p).pagesMetaData i).page.pageId ∧
      ((m'.proc p).pagesMetaData i).page.pageId < newsz)
  count : (m'.proc p).tracked = (m.proc p).tracked

/-- With the same pages as before there is no trace. -/
theorem NoTrace.of_pages (h : Placed c p m T) (h' : Placed c p m' T') (hT : Pages T (npages oldsz))
    (hT' : Pages T' (npages oldsz)) : NoTrace p oldsz newsz m m' := by
  have hmax := hT.le_max h.recorded
  have hround : pgroundup oldsz = pgsize * npages oldsz :=
    pgroundup_eq (by simp only [npages, pgsize, maxTotalPages] at *; omega)
  refine ⟨fun v hv hle _ hmapped => ?_, fun i hi hused hin => ?_, ?_⟩
  · have hlt := (hT' v).mp ((h'.mapped_iff hv).mp hmapped)
    rw [hround] at hle
    simp only [pgsize] at hle
    omega
  · have hent := h'.recorded.entry i hi
    have hfree : T' i ≠ .free := fun hf => hused (hent.notUsed_iff.mpr hf)
    obtain ⟨w, hk⟩ : ∃ w, (T' i).key = some w := by
      cases hTi : T' i with
      | free => exact absurd hTi hfree
      | fast w => exact ⟨w, rfl⟩
      | slow w t => exact ⟨w, rfl⟩
    have hlt := (hT' w).mp ⟨i, hi, hk⟩
    rw [hent.key_iff.mpr hk, hround] at hin
    simp only [pgsize] at hin
    omega
  · rw [hT.total h.recorded, hT'.total h'.recorded]

section Turns

variable (hs : Steady c p s) (hpages : c.pages p) (hfuel : 2 * maxTotalPages ≤ c.fuel)
  (hfirst : s.list = [] → (s.machine.proc p).prev 0 = none) (hkern : newsz < kernbase)
  (hT : Pages s.map v) (hov : npages oldsz ≤ v)
include hs hpages hfuel hfirst hkern hT hov

/-- A turn for which no frame is left gives back the pages that the call has added. -/
theorem allocPage_starved (hv : v < maxTotalPages) (hvn : v ≤ npages newsz)
    (hroom : makeRoom c p s.machine = .ok true m) (hnil : m.freelist = []) :
    wp (allocPage c p (s.machine.proc p).pgdir oldsz newsz (pgsize * v)) (fun r m' =>
      r = false ∧ ∃ T', Placed c p m' T' ∧ Pages T' (npages oldsz)) anyStop s.machine := by
  have htotal := hT.total hs.paged.recorded
  rw [hs.paged.recorded.tracked_eq] at htotal
  obtain ⟨r, m', hroom', rfl, s1, rfl, hr⟩ := wp_noStop_iff.mp
    (makeRoom_moves hs hpages hfuel hfirst (by omega))
  rw [hroom] at hroom'
  cases hroom'
  have h1 : Paged c p s1.machine s1.map s1.list := hr.moves.target hs.paged
  simp only [allocPage, wp_bind]
  rw [wp_of_ok hroom]
  simp only [if_true, wp_bind, wp_kalloc]
  refine ⟨fun _ => ?_, fun f rest hf => by simp [hnil] at hf⟩
  rw [← hr.moves.kept.pgdir]
  refine wp_post (deallocuvm_placed h1.toPlaced hpages.1 hkern.le) ?_
  rintro _ m2 ⟨-, T2, hs2⟩
  refine ⟨rfl, T2, hs2.placed, fun w => ?_⟩
  rw [hs2.tracked, hr.tracked, hT w]
  omega

/-- The turns of `allocuvm` from page `v` on. Where they return `0`, the pages are those below
    `oldsz` again, unless the page limit has been reached after a page was added. -/
theorem allocLoop_noTrace (hvk : v + k = npages newsz)
    (hcond : npages newsz ≤ maxTotalPages ∨ (v = npages oldsz ∧ npages oldsz = maxTotalPages) ∨
      ¬ allocSupplied c p (s.machine.proc p).pgdir oldsz newsz (maxTotalPages - v) (pgsize * v)
        s.machine) :
    wp (allocLoop c p (s.machine.proc p).pgdir oldsz newsz k (pgsize * v)) (fun r m' =>
      r = 0 → ∃ T', Placed c p m' T' ∧ Pages T' (npages oldsz)) anyStop s.machine := by
  induction k generalizing s v with
  | zero =>
    rw [allocLoop, wp_pure]
    intro h0
    have hzero : npages newsz = 0 := by rw [h0]; rfl
    obtain rfl : v = npages oldsz := by omega
    exact ⟨s.map, hs.paged.toPlaced, hT⟩
  | succ k ih =>
    have hmax := hT.le_max hs.paged.recorded
    have htotal := hT.total hs.paged.recorded
    rw [hs.paged.recorded.tracked_eq] at htotal
    simp only [allocLoop, wp_bind]
    by_cases hfull : v = maxTotalPages
    · -- The limit is reached: only in the first turn, before any page was added.
      obtain rfl : v = npages oldsz := by
        rcases hcond with hle | ⟨hv, -⟩ | hno
        · omega
        · exact hv
        · exact absurd (by rw [hfull, Nat.sub_self]; trivial) hno
      simp only [allocPage, wp_bind]
      refine wp_mono (makeRoom_full hs hpages (by omega)) ?_ (fun _ _ hf => hf.elim)
      rintro r m' ⟨rfl, rfl⟩
      simp only [Bool.false_eq_true, if_false, wp_pure]
      exact fun _ => ⟨s.map, hs.paged.toPlaced, hT⟩
    by_cases hsup : ∀ m', makeRoom c p s.machine = .ok true m' → m'.freelist ≠ []
    · have hnew : ¬ Tracked s.map v := by rw [hT v]; omega
      refine wp_mono (wp_run (allocPage_moves hs hpages hfuel hfirst (by omega) (by omega) hnew hsup))
        ?_ (fun _ _ hf => hf.elim)
      rintro r m1 ⟨hrun, rfl, s1, rfl, hm1, hq1, htr, -⟩
      have hs1 := hm1.steady hs hq1
      have hne1 : s1.list ≠ [] := hs1.ram_pos ((htr v).mpr (.inl rfl))
      have hnext : pgsize * v + pgsize = pgsize * (v + 1) := by rw [Nat.mul_succ]
      have hT1 : Pages s1.map (v + 1) := by
        intro w
        rw [htr, hT w]
        omega
      simp only [if_true, hnext]
      rw [← hm1.kept.pgdir]
      refine ih hs1 (fun hnil => absurd hnil hne1) hT1 (by omega) (by omega) ?_
      rcases hcond with hle | ⟨-, hfull'⟩ | hno
      · exact .inl hle
      · omega
      · refine .inr (.inr fun hall => hno ?_)
        have hj : maxTotalPages - v = maxTotalPages - (v + 1) + 1 := by omega
        rw [hm1.kept.pgdir, ← hnext] at hall
        rw [hj]
        exact .cons hsup hrun hall
    · push Not at hsup
      obtain ⟨m1, hroom, hnil⟩ := hsup
      refine wp_post (allocPage_starved hs hpages hfuel hfirst hkern hT hov (by omega) (by omega) hroom hnil) ?_
      rintro _ m' ⟨rfl, hgone⟩
      simp only [Bool.false_eq_true, if_false, wp_pure]
      exact fun _ => hgone

end Turns

/-- `allocuvm` leaves no trace when it fails, exactly if it does not run into the page limit after
    it has added a page: the size asked for is too large altogether or within the limit, the
    process is full to begin with, or there are fewer free frames than the pages up to the limit
    take. -/
theorem allocuvm_noTrace_iff {oldsz newsz : Nat} (hs : Steady c p s) (hpages : c.pages p)
    (hfuel : 2 * maxTotalPages ≤ c.fuel) (hfirst : s.list = [] → (s.machine.proc p).prev 0 = none)
    (hT : Pages s.map (npages oldsz)) (hle : oldsz ≤ newsz) :
    wp (allocuvm c p (s.machine.proc p).pgdir oldsz newsz)
        (fun r m' => r = 0 → NoTrace p oldsz newsz s.machine m') anyStop s.machine ↔
      kernbase ≤ newsz ∨ npages newsz ≤ maxTotalPages ∨ npages oldsz = maxTotalPages ∨
        s.machine.freelist.length < c.demand (maxTotalPages - npages oldsz) (npages oldsz)
          (s.machine.residents p s.list) := by
  have hrec := hs.paged.recorded
  have hmax := hT.le_max hrec
  have hround : pgroundup oldsz = pgsize * npages oldsz :=
    pgroundup_eq (by simp only [npages, pgsize, maxTotalPages] at *; omega)
  have hsum := npages_add hle
  have hsupplied : ¬ allocSupplied c p (s.machine.proc p).pgdir oldsz newsz (maxTotalPages - npages oldsz)
      (pgsize * npages oldsz) s.machine ↔ _ :=
    (allocSupplied_iff hs hpages hfuel hfirst (hT.shape hrec) (Nat.add_sub_cancel' hmax).le).not.trans not_le
  rw [allocuvm, hround, ← hsupplied]
  by_cases hkern : kernbase ≤ newsz
  · simp only [hkern, true_or, iff_true]
    exact fun _ => .of_pages hs.paged.toPlaced hs.paged.toPlaced hT hT
  rw [if_neg hkern, if_neg (by omega)]
  simp only [hkern, false_or]
  constructor
  · -- With the limit in the way, the call returns `0` and page `oldsz` is there.
    intro hwp
    by_contra hno
    push Not at hno
    obtain ⟨hlimit, hnotfull, hsup⟩ := hno
    obtain ⟨r, m', hrun, s1, rfl, hm1, -, hres⟩ := wp_noStop_iff.mp
      (allocLoop_moves hs hpages hfuel hfirst (hT.shape hrec)
        (hsup.mono (Nat.min_le_right ((newsz - pgsize * npages oldsz + (pgsize - 1)) / pgsize) _)))
    rcases hres with ⟨-, hsh⟩ | ⟨rfl, hsh⟩
    · have := hsh.le
      omega
    · have htrace := (wp_of_ok hrun).mp hwp rfl
      have hv : npages oldsz < nuserPages := lt_nuserPages (by omega)
      refine htrace.unmapped (npages oldsz) hv hround.le ?_ ?_
      · rw [npages_lt_iff]
        omega
      · exact ((hm1.target hs.paged).toPlaced.mapped_iff hv).mpr ((hsh.iff _).mpr (.inl (by omega)))
  · intro hcond
    refine wp_post (allocLoop_noTrace hs hpages hfuel hfirst (by omega) hT le_rfl hsum ?_) ?_
    · rcases hcond with h | h | h
      · exact .inl h
      · exact .inr (.inl ⟨rfl, h⟩)
      · exact .inr (.inr h)
    · intro r m' hres h0
      obtain ⟨T', h', hT'⟩ := hres h0
      exact .of_pages hs.paged.toPlaced h' hT hT'

/-- The sample process under SCFIFO. -/
@[irreducible]
def growing : Machine := sample (sampleConfig .SCFIFO) 40

theorem growing_running : Running (sampleConfig .SCFIFO) 3 ⟨growing, sampleMap, [0, 1, 2]⟩ := by
  unfold growing
  exact (sample_fresh .SCFIFO (by decide)).running

/-- The sample process grows by two pages. -/
theorem allocuvm_noTrace_iff_twoPages :
    wp (allocuvm (sampleConfig .SCFIFO) 3 (growing.proc 3).pgdir (3 * pgsize) (5 * pgsize))
      (fun r m' => r = 0 → NoTrace 3 (3 * pgsize) (5 * pgsize) growing m') anyStop growing :=
  (allocuvm_noTrace_iff growing_running.toSteady (by decide) (by decide) (by simp)
    (show Pages sampleMap (npages (3 * pgsize)) from sample_tracked) (by decide)).mpr
    (.inr (.inl (by decide)))

-- Up to the limit it takes 13 frames: with 16 pages in RAM, each page more takes the frame of another.
example : (sampleConfig .SCFIFO).demand 29 3 (growing.residents 3 [0, 1, 2]) = 13 := by
  unfold growing
  decide +kernel

instance (m : Machine) (p v : Nat) : Decidable (m.mapped p v) :=
  inferInstanceAs (Decidable (_ ∧ _))

/-- Asked for 33 pages, `allocuvm` returns `0` with page 3 mapped, and 32 entries in use. -/
theorem allocuvm_leaves_trace :
    yields (allocuvm (sampleConfig .SCFIFO) 3 900 (3 * pgsize) (33 * pgsize)) growing
      (· == 0) = true ∧
    (final (allocuvm (sampleConfig .SCFIFO) 3 900 (3 * pgsize) (33 * pgsize)) growing).mapped 3 3 ∧
    ((final (allocuvm (sampleConfig .SCFIFO) 3 900 (3 * pgsize) (33 * pgsize)) growing).proc
      3).tracked = 32 := by
  unfold growing
  decide +kernel

/-! ## The address space between two calls

    A process whose pages are tracked has its table, page table and frames in agreement; its RAM
    list may hold entries of pages that are gone. A process whose pages are not tracked has
    present pages only.
-/

/-- A tracked process with the pages below page `n`. -/
structure PagedImage (c : Config) (p : Nat) (m : Machine) (n : Nat) : Prop where
  pages : ∃ T, Placed c p m T ∧ Pages T n ∧ Space.Guarded p ⟨m, T, []⟩
  head : (m.proc p).pageListHeadRam ≠ none

/-- A process that is not tracked, with the pages `S`. -/
structure Plain (c : Config) (p : Nat) (m : Machine) (S : Nat → Prop) : Prop where
  live : (m.dirs (m.proc p).pgdir).live = true
  mapped : ∀ v < nuserPages, m.mapped p v ↔ S v
  present : ∀ v < nuserPages, (m.dirs (m.proc p).pgdir).table (v / nptentries) ≠ none →
    (m.pte p v).pg = false
  noEntry : c.selection ≠ .NONE → ∀ v < nuserPages, (m.proc p).findPage (pgsize * v) = none

/-- The pages of process `p` are those below page `n`. -/
def Image (c : Config) (p : Nat) (m : Machine) (n : Nat) : Prop :=
  if c.pages p then PagedImage c p m n else Plain c p m (· < n)

theorem Image.mapped_iff (h : Image c p m n) (hv : v < nuserPages) : m.mapped p v ↔ v < n := by
  unfold Image at h
  split at h
  · obtain ⟨T, hpl, hT, -⟩ := h.pages
    rw [hpl.mapped_iff hv, hT v]
  · exact h.mapped v hv

/-- Size and directory of the process stay. -/
structure SameSize (p : Nat) (m m' : Machine) : Prop where
  sz : (m'.proc p).sz = (m.proc p).sz
  pgdir : (m'.proc p).pgdir = (m.proc p).pgdir

theorem SameSize.refl (p : Nat) (m : Machine) : SameSize p m m := ⟨rfl, rfl⟩

theorem SameSize.trans (h : SameSize p m m') (h' : SameSize p m' m'') : SameSize p m m'' :=
  ⟨h'.sz.trans h.sz, h'.pgdir.trans h.pgdir⟩

theorem Kept.sameSize (h : Kept p m m') : SameSize p m m' := ⟨h.sz, h.pgdir⟩

/-! ### Tracked processes -/

theorem Shrunk.image {gone : Nat → Prop} (h : Shrunk c p gone m T m' T') (hT : Pages T n)
    (hg : Space.Guarded p ⟨m, T, []⟩) (hhead : (m.proc p).pageListHeadRam ≠ none)
    (hk : ∀ w, w < k ↔ w < n ∧ ¬ gone w) : PagedImage c p m' k := by
  refine ⟨⟨T', h.placed, fun w => by rw [h.tracked, hT w, hk w], ?_⟩, h.head hhead⟩
  -- A page that is not for the user now was not before.
  have hback : ∀ w, Tracked T' w → (m'.pte p w).u = false → (m.pte p w).u = false := by
    intro w hw hu
    by_contra hne
    have := h.user w hw (by simpa using hne)
    simp [hu] at this
  intro v w hv hw huv huw
  exact hg v w ((h.tracked v).mp hv).1 ((h.tracked w).mp hw).1 (hback v hv huv) (hback w hw huw)

theorem PagedImage.deallocuvm (h : PagedImage c p m n) (hpages : c.pages p)
    (hold : oldsz ≤ kernbase) :
    wp (deallocuvm c p (m.proc p).pgdir oldsz newsz) (fun r m' =>
      r = (if oldsz ≤ newsz then oldsz else newsz) ∧ SameSize p m m' ∧
      ∀ k, (∀ w, w < k ↔ w < n ∧ ¬ (npages newsz ≤ w ∧ w < npages oldsz)) →
        PagedImage c p m' k) anyStop m := by
  obtain ⟨⟨T, hpl, hT, hg⟩, hhead⟩ := h
  refine wp_post (deallocuvm_placed hpl hpages.1 hold) ?_
  rintro r m' ⟨hr, T', hs⟩
  exact ⟨hr, hs.kept.sameSize, fun k hk => hs.image hT hg hhead hk⟩

/-- A new page of a process whose RAM list is not empty, whatever else is in the list. -/
theorem addPageToRam_recorded (h : pr.Recorded T) (hT : Pages T v) (hhead : pr.pageListHeadRam = some a) :
    wp (addPageToRam c (pgsize * v)) (fun _ pr' => SameSpace pr pr' ∧ v < maxTotalPages ∧
      pr'.pageListHeadRam = some a ∧ ∃ i < maxTotalPages, T i = .free ∧
        pr'.Recorded (update T i (.fast v))) anyStop pr := by
  have hnew : ∀ j < maxTotalPages, (T j).key ≠ some v := by
    intro j hj hk
    have := (hT v).mp ⟨j, hj, hk⟩
    omega
  simp only [addPageToRam, wp_bind, wp_get, hhead, pteAddr_mul, h.findPage_none hnew,
    Option.orElse_none]
  refine wp_mono (keeps_lastLinkFrom (R := Eq) maxTotalPages a pr) ?_ (fun _ _ _ => trivial)
  rintro x _ rfl
  refine wp_writeLink_of fun hx => wp_writeLink_of fun hi => ?_
  cases hfind : pr.findState .notUsed with
  | none => simp [hfind] at hi
  | some i =>
    simp only [hfind, Option.getD_some] at hi ⊢
    obtain ⟨-, hst⟩ := findLink_some hfind
    have hfree : T i = .free := (h.entry i hi).notUsed_iff.mp (by simpa using hst)
    have hv : v < maxTotalPages := by
      have hlt := total_lt_of_free hi hfree
      rwa [← h.tracked_eq, hT.total h] at hlt
    rw [wp_recordPage hi]
    have hsh : Shuffled pr ((pr.setNext x (some i)).setPrev i (some x)) :=
      (Shuffled.setNext pr x (some i)).trans (.setPrev _ i (some x))
    refine ⟨hsh.sameSpace.trans record_sameSpace, hv, ?_, i, hi, hfree,
      (h.shuffled hsh).record i hi hfree hv hnew⟩
    simpa [Proc.record, Proc.setPage, Proc.setNext, Proc.setPrev, Proc.setLink] using hhead

/-- The RAM list holds exactly the pages in RAM. -/
def InSync (p : Nat) (m : Machine) : Prop :=
  ∃ l, (m.proc p).Listed l ∧ ∀ i, i ∈ l ↔
    i < maxTotalPages ∧ ((m.proc p).pagesMetaData i).page.state = .inMemory

theorem InSync.paged (h : InSync p m) (hpl : Placed c p m T) : ∃ l, Paged c p m T l := by
  obtain ⟨l, hl, hmem⟩ := h
  refine ⟨l, hpl, hl, fun i => ?_⟩
  rw [hmem]
  exact and_congr_right fun hi => (hpl.recorded.entry i hi).inMemory_iff

theorem Paged.inSync (h : Paged c p m T l) : InSync p m := by
  refine ⟨l, h.listed, fun i => ?_⟩
  rw [h.records.mem_iff]
  exact and_congr_right fun hi => (h.records.entry i hi).inMemory_iff.symm

theorem Paged.image (h : Paged c p m T l) (hT : Pages T n) (hg : Space.Guarded p ⟨m, T, l⟩)
    (hne : l ≠ []) : PagedImage c p m n := by
  refine ⟨⟨T, h.toPlaced, hT, hg⟩, ?_⟩
  obtain ⟨a, ks, rfl⟩ := exists_cons_of_ne_nil hne
  rw [h.listed.isList.head_eq]
  simp

theorem Proc.Recorded.counts (h : pr.Recorded T) (hT : Pages T n) :
    pr.numPagesRam + pr.numPagesDisk = n := by
  rw [h.ram, h.disk, ← h.tracked_eq, hT.total h]

/-- Where a page goes out the list is in step with what is in RAM. -/
def RoomFor (p k : Nat) (m : Machine) : Prop := k ≤ maxPsycPages ∨ InSync p m

/-- The eviction before a page is added to the pages below page `v`. -/
theorem PagedImage.makeRoom (h : PagedImage c p m v) (hpages : c.pages p)
    (hfuel : 2 * maxTotalPages ≤ c.fuel) (hv : v < k) (hroom : RoomFor p k m) :
    wp (makeRoom c p) (fun r m' => SameSize p m m' ∧ PagedImage c p m' v ∧ RoomFor p k m' ∧
      (r = false → v = maxTotalPages)) anyStop m := by
  obtain ⟨T, hpl, hT, hg⟩ := h.pages
  have hcounts := hpl.recorded.counts hT
  by_cases hram : (m.proc p).numPagesRam = maxPsycPages
  · obtain ⟨l, hpg⟩ := (hroom.resolve_left (by omega)).paged hpl
    by_cases hdisk : (m.proc p).numPagesDisk + maxPsycPages = maxTotalPages
    · simp only [Xv6Paging.makeRoom, if_pos hpages, wp_bind, wp_getProc, if_pos hram, if_pos hdisk, wp_pure]
      exact ⟨.refl p m, h, hroom, fun _ => by omega⟩
    by_cases hfile : (m.proc p).swapFile = none → ∃ fd < nfile, m.ftable fd = 0
    · have hfast := hpl.recorded.ram
      have hslow := hpl.recorded.disk
      have htotal := total_le maxTotalPages T
      refine wp_mono (makeRoom_evicts (s := ⟨m, T, l⟩) hpg hg hpages hfuel hfile (hfast.symm.trans hram)
        (by dsimp only; omega)) ?_ (fun _ _ hf => hf.elim)
      rintro r _ ⟨rfl, s', rfl, hr⟩
      have h' : Paged c p s'.machine s'.map s'.list := hr.moves.target hpg
      refine ⟨hr.moves.kept.sameSize, h'.image (fun w => (hr.tracked w).trans (hT w))
        (hr.moves.invariant Move.guarded hg) (fun hnil => ?_), .inr h'.inSync, fun hr => by simp at hr⟩
      -- All but one of the pages are still in RAM.
      have hlen := h'.records.length_eq
      have hsum : fastCount maxTotalPages s'.map + slowCount maxTotalPages s'.map = _ := hr.total
      have hfull := hr.full
      rw [hnil, h'.records.ram, length_nil] at hlen
      simp only [maxPsycPages] at *
      omega
    · -- No swap file can be created.
      push Not at hfile
      obtain ⟨hnone, hfds⟩ := hfile
      have hfind : ((List.range nfile).find? fun i => m.ftable i == 0) = none := by
        rw [find?_eq_none]
        intro fd hfd
        simpa using hfds fd (mem_range.mp hfd)
      simp only [Xv6Paging.makeRoom, if_pos hpages, wp_bind, wp_getProc, if_pos hram, if_neg hdisk,
        ensureSwapFile, if_pos hnone, createSwapFile, wp_beginOp, filealloc, wp_get]
      simp only [Machine.setDepth, Machine.noteOp, hfind, wp_pure, wp_throw]
      trivial
  · simp only [Xv6Paging.makeRoom, if_pos hpages, wp_bind, wp_getProc, if_neg hram, wp_pure]
    exact ⟨.refl p m, h, hroom, by rintro ⟨⟩⟩

theorem PagedImage.head_mem (h : PagedImage c p m n) (hpg : Paged c p m T l) :
    l ≠ [] := by
  rintro rfl
  exact h.head (by rw [hpg.listed.isList.head_eq]; rfl)

theorem PagedImage.addPage {rest : List Nat} (h : PagedImage c p m v) (hroom : RoomFor p k m)
    (hf : m.freelist = f :: rest) :
    wp (onProc p (addPageToRam c (pgsize * v))) (fun _ m' => SameSize p m m' ∧
      PagedImage c p m' (v + 1) ∧ RoomFor p k m') anyStop
      (((m.takeFrame f rest).setMem f Page.zero).setPte (m.proc p).pgdir v (Pte.wu.mapTo f)) := by
  obtain ⟨T, hpl, hT, hg⟩ := h.pages
  obtain ⟨a, ha⟩ := Option.ne_none_iff_exists'.mp h.head
  have hnew : ¬ Tracked T v := by rw [hT v]; omega
  have himage : wp (onProc p (addPageToRam c (pgsize * v))) (fun _ m' => SameSize p m m' ∧
      PagedImage c p m' (v + 1) ∧ v < maxTotalPages) anyStop
      (((m.takeFrame f rest).setMem f Page.zero).setPte (m.proc p).pgdir v (Pte.wu.mapTo f)) := by
    rw [wp_onProc]
    refine wp_mono (addPageToRam_recorded hpl.recorded hT ha) ?_ (fun _ _ _ => trivial)
    rintro _ pr ⟨hpr', hlt, hhead, i, hi, hfree, hrec⟩
    have hpr : SameSpace (m.proc p) pr := hpr'
    have hpl' : Placed c p (m.bring p v f rest Page.zero pr) (update T i (.fast v)) :=
      hpl.bring hi hlt (by simp [hfree]) (fun j hj _ hk => hnew ⟨j, hj, hk⟩) hf hpr hrec
    refine ⟨⟨by simp; rw [hpr], by simp; rw [hpr]⟩, ⟨⟨_, hpl', fun w => ?_, ?_⟩, ?_⟩, hlt⟩
    · rw [tracked_add hi hfree, hT w]
      omega
    · -- The new page is for the user.
      have hold : ∀ w, Tracked (update T i (.fast v)) w →
          ((m.bring p v f rest Page.zero pr).pte p w).u = false →
          Tracked T w ∧ (m.pte p w).u = false := by
        intro w hw hu
        rw [bring_pte hpr] at hu
        by_cases hwv : w = v
        · simp [hwv, Pte.wu, Pte.mapTo] at hu
        · rw [if_neg hwv] at hu
          exact ⟨((tracked_add hi hfree).mp hw).resolve_left hwv, hu⟩
      intro w x hw hx huw hux
      obtain ⟨hw', huw'⟩ := hold w hw huw
      obtain ⟨hx', hux'⟩ := hold x hx hux
      exact hg w x hw' hx' huw' hux'
    · simp [hhead]
  rcases hroom with hle | hsync
  · refine wp_post himage ?_
    rintro _ m' ⟨hsame, himg, -⟩
    exact ⟨hsame, himg, .inl hle⟩
  · obtain ⟨l, hpg⟩ := hsync.paged hpl
    have hcounts := hpl.recorded.counts hT
    by_cases hlt : v < maxTotalPages
    · have hmove := addPage_move (c := c) hpg (fun hnil => absurd hnil (h.head_mem hpg))
        (by rw [← hpl.recorded.tracked_eq, hT.total hpl.recorded]; exact hlt) hlt hnew hf
      refine wp_post (wp_and himage (wp_mono hmove (fun _ _ h => h) (fun _ _ _ => trivial))) ?_
      rintro _ m' ⟨⟨hsame, himg, -⟩, i, hi, hfree, hm, -⟩
      exact ⟨hsame, himg, .inr hm.target.inSync⟩
    · refine wp_post himage ?_
      rintro _ m' ⟨-, -, hlt'⟩
      exact absurd hlt' hlt

/-- One turn of `allocuvm` at page `v`: the page is there, or the pages are those below `oldsz`
    again. -/
theorem PagedImage.allocPage (h : PagedImage c p m v) (hpages : c.pages p)
    (hfuel : 2 * maxTotalPages ≤ c.fuel) (hkern : newsz < kernbase) (hov : npages oldsz ≤ v)
    (hv : v < npages newsz) (hroom : RoomFor p (npages newsz) m)
    (hlimit : npages newsz ≤ maxTotalPages ∨ v = npages oldsz) :
    wp (allocPage c p (m.proc p).pgdir oldsz newsz (pgsize * v)) (fun r m' => SameSize p m m' ∧
      (r = true → PagedImage c p m' (v + 1) ∧ RoomFor p (npages newsz) m') ∧
      (r = false → PagedImage c p m' (npages oldsz))) anyStop m := by
  simp only [Xv6Paging.allocPage, wp_bind]
  refine wp_post (h.makeRoom hpages hfuel hv hroom) ?_
  rintro r m1 ⟨hsame, h1, hroom1, hfull⟩
  cases r with
  | false =>
    simp only [Bool.false_eq_true, if_false, wp_pure, false_implies, true_and]
    have := hfull rfl
    obtain rfl : v = npages oldsz := by omega
    exact ⟨hsame, fun _ => h1⟩
  | true =>
    obtain ⟨T, hpl, hT, -⟩ := h1.pages
    have hmax := hT.le_max hpl.recorded
    have hvu : v < nuserPages := by simp only [maxTotalPages, nuserPages] at *; omega
    have hnew : ¬ Tracked T v := by rw [hT v]; omega
    simp only [if_true, wp_bind, wp_kalloc]
    rw [← hsame.pgdir]
    refine ⟨fun _ => ?_, fun f rest hf => ?_⟩
    · refine wp_post (h1.deallocuvm hpages hkern.le) ?_
      rintro _ m2 ⟨-, hsame2, h2⟩
      simp only [wp_pure, Bool.false_eq_true, false_implies, true_and]
      exact ⟨hsame.trans hsame2, fun _ => h2 _ fun w => by omega⟩
    · have htable : pdx (pgsize * v) = 0 := by
        rw [pdx, pgsize_mul_div]
        simp only [nptentries, maxTotalPages] at *
        omega
      rw [wp_modify, wp_mappages_mapped _ (by simpa using hpl.live)
        (by rw [htable]; simpa using hpl.table)
        (by simpa [Machine.pte] using (hpl.unmapped hvu hnew).1)]
      simp only [if_true, if_pos hpages, wp_bind, vpn_mul, wp_pure]
      refine wp_post (h1.addPage hroom1 hf) ?_
      rintro _ m2 ⟨hsame2, h2, hroom2⟩
      exact ⟨hsame.trans hsame2, fun _ => ⟨h2, hroom2⟩, fun hr => by simp at hr⟩

/-! ### Other processes -/

section Plain

variable {S : Nat → Prop}

section Plain

variable (h : Plain c p m S)

include h

/-- The pages of a process that is not tracked are in its directory. -/
theorem Plain.congr (hproc : m'.proc p = m.proc p)
    (hdir : m'.dirs (m.proc p).pgdir = m.dirs (m.proc p).pgdir) : Plain c p m' S := by
  have hpte : ∀ v, m'.pte p v = m.pte p v := fun v => by simp only [Machine.pte, hproc, hdir]
  refine ⟨?_, fun v hv => ?_, fun v hv => ?_, ?_⟩
  · rw [hproc, hdir]
    exact h.live
  · rw [← h.mapped v hv]
    simp only [Machine.mapped, hpte, hproc, hdir]
  · rw [hproc, hdir, hpte]
    exact h.present v hv
  · rw [hproc]
    exact h.noEntry

theorem Plain.weaken (hS : ∀ v < nuserPages, S' v ↔ S v) : Plain c p m S' :=
  ⟨h.live, fun v hv => by rw [hS v hv]; exact h.mapped v hv, h.present, h.noEntry⟩

theorem Plain.unmapped (hv : v < nuserPages)
    (ht : (m.dirs (m.proc p).pgdir).table (v / nptentries) = none) : ¬ S v := by
  rw [← h.mapped v hv]
  exact fun hm => hm.1 ht

theorem Plain.unmap (v : Nat) : Plain c p (m.setPte (m.proc p).pgdir v Pte.zero) (fun w => S w ∧ w ≠ v) := by
  refine ⟨by simpa using h.live, fun w hw => ?_, fun w hw ht => ?_, h.noEntry⟩
  · rw [← h.mapped w hw]
    simp only [Machine.mapped, setPte_pte, Machine.setPte_proc, Machine.setPte_dirs,
      update_self]
    by_cases hwv : w = v
    · simp [hwv, Pte.zero]
    · simp [hwv]
  · rw [setPte_pte]
    split
    · rfl
    · exact h.present w hw (by simpa using ht)

/-- Page `v` is mapped to a frame. -/
theorem Plain.map (ht : (m.dirs (m.proc p).pgdir).table (v / nptentries) ≠ none) :
    Plain c p (m.setPte (m.proc p).pgdir v (Pte.wu.mapTo f)) (fun w => w = v ∨ S w) := by
  refine ⟨by simpa using h.live, fun w hw => ?_, fun w hw ht' => ?_, h.noEntry⟩
  · rw [← h.mapped w hw]
    simp only [Machine.mapped, setPte_pte, Machine.setPte_proc, Machine.setPte_dirs,
      update_self]
    by_cases hwv : w = v
    · subst hwv
      simp [ht, Pte.mapTo]
    · simp [hwv]
  · rw [setPte_pte]
    split
    · rfl
    · exact h.present w hw (by simpa using ht')

theorem Plain.addTable (ht : (m.dirs (m.proc p).pgdir).table k = none) :
    Plain c p (m.addTable (m.proc p).pgdir k f) S := by
  have hpte : ∀ w, (m.addTable (m.proc p).pgdir k f).pte p w =
      if w / nptentries = k then Pte.zero else m.pte p w := by
    intro w
    simp [Machine.addTable, Machine.pte]
  refine ⟨by simpa [Machine.addTable] using h.live, fun w hw => ?_, fun w hw ht' => ?_, h.noEntry⟩
  · rw [← h.mapped w hw]
    simp only [Machine.mapped, hpte]
    by_cases hwk : w / nptentries = k
    · simp [hwk, ht, Pte.zero]
    · simp [Machine.addTable, hwk]
  · rw [hpte]
    split
    · rfl
    · rename_i hwk
      exact h.present w hw (by simpa [Machine.addTable, hwk] using ht')

theorem Plain.deallocPresent (hv : v < nuserPages) :
    wp (deallocPresent c p (m.proc p).pgdir (pgsize * v) v found) (fun _ m' => SameSize p m m' ∧
      Plain c p m' (fun w => S w ∧ w ≠ v)) anyStop m := by
  have h1 : Plain c p ((m.dropRef (m.pte p v).frame).setPte (m.proc p).pgdir v Pte.zero)
      (fun w => S w ∧ w ≠ v) := (h.unmap v).congr rfl (by simp)
  simp only [Xv6Paging.deallocPresent, wp_bind, wp_getPte_own, wp_ite, wp_throw]
  refine ⟨fun _ => trivial, fun _ => (wp_kfree _ _).mpr ⟨fun _ => ⟨fun _ => trivial, fun _ => ?_⟩,
    fun _ => trivial⟩⟩
  simp only [wp_setPte, wp_getProc, Machine.setPte_proc, Machine.dropRef_proc, wp_pure]
  refine ⟨fun hsel => ?_, fun _ => ⟨⟨rfl, rfl⟩, h1⟩⟩
  simp only [h.noEntry hsel.1 v hv, wp_ite, wp_pure, wp_bind]
  refine ⟨fun _ => ?_, fun _ => ⟨⟨rfl, rfl⟩, h1⟩⟩
  -- The entry behind the last one.
  simp only [deletePage, wp_bind, wp_onProc, wp_modify, setPage, writeLink, lt_irrefl, if_false]
  trivial

/-- `deallocuvm` clears the entries between the sizes. -/
theorem Plain.deallocuvm (hold : oldsz ≤ kernbase) : wp (deallocuvm c p (m.proc p).pgdir oldsz newsz) (fun r m' =>
      r = (if oldsz ≤ newsz then oldsz else newsz) ∧ SameSize p m m' ∧
      Plain c p m' (fun w => S w ∧ ¬ (npages newsz ≤ w ∧ w < npages oldsz))) anyStop m := by
  generalize hn : npages oldsz = n
  let I v m' := npages newsz ≤ v ∧ SameSize p m m' ∧
    Plain c p m' (fun w => S w ∧ ¬ (npages newsz ≤ w ∧ w < v ∧ w < n))
  have hstep : ∀ {v m1 m2}, v < n → npages newsz ≤ v → SameSize p m m1 → SameSize p m1 m2 →
      Plain c p m2 (fun w => (S w ∧ ¬ (npages newsz ≤ w ∧ w < v ∧ w < n)) ∧ w ≠ v) → I (v + 1) m2 := by
    intro v m1 m2 hvn hv hs1 hs2 h2
    refine ⟨by omega, hs1.trans hs2, h2.weaken fun w _ => ?_⟩
    rw [and_assoc]
    exact and_congr_right fun _ => by omega
  refine wp_post (wp_deallocuvm_pages (I := I) hold hn (fun _ => ⟨trivial, trivial⟩) ?_ ?_ ?_ ?_ ?_) ?_
  · rintro v m1 hvn - ⟨hv, hs1, h1⟩ ht
    refine ⟨by simp only [nptentries]; omega, hs1, h1.weaken fun w hw => and_congr_right fun hS => ?_⟩
    -- No page of this table is mapped.
    by_cases hvw : v ≤ w
    · have hne : w / nptentries ≠ v / nptentries := fun heq =>
        h1.unmapped hw (by rwa [hs1.pgdir, heq]) ⟨hS, by omega⟩
      simp only [nptentries] at *
      omega
    · simp only [nptentries] at *
      omega
  · rintro v m1 found hvn hmax ⟨hv, hs1, h1⟩ _ _ _
    rw [← hs1.pgdir]
    exact wp_post (h1.deallocPresent hmax) fun _ _ h2 => hstep hvn hv hs1 h2.1 h2.2
  · rintro v m1 found hvn hmax ⟨hv, hs1, h1⟩ ht _ ⟨hpg, -⟩
    rw [← hs1.pgdir] at ht hpg
    exact absurd hpg (by simpa [Machine.pte] using h1.present v hmax ht)
  · rintro v m1 hvn - ⟨hv, hs1, h1⟩ hp _
    rw [← hs1.pgdir] at hp
    refine hstep hvn hv hs1 (.refl p m1) (h1.weaken fun w hw => and_iff_left_of_imp ?_)
    rintro hS rfl
    obtain ⟨ht, hmap⟩ := (h1.mapped w hw).mpr hS
    have hpg := h1.present w hw ht
    simp [Machine.pte, hp] at hmap hpg
    simp [hmap] at hpg
  · refine ⟨le_rfl, .refl p m, h.weaken fun w _ => and_iff_left_of_imp fun _ => by omega⟩
  · rintro _ m' ⟨hr, w, hw, -, hs, h'⟩
    exact ⟨hr, hs, h'.weaken fun u _ => and_congr_right fun _ => by omega⟩

/-- `mappages` maps the page, or there is no memory for a page table. -/
theorem Plain.mappages : wp (mappages (m.proc p).pgdir (pgsize * v) f Pte.wu) (fun r m' => SameSize p m m' ∧
      Plain c p m' (fun w => (r = true ∧ w = v) ∨ S w)) anyStop m := by
  -- The entry is written, once there is a page table.
  have hwrite : ∀ {m1 : Machine}, SameSize p m m1 → Plain c p m1 S →
      (m1.dirs (m1.proc p).pgdir).table (v / nptentries) ≠ none →
      wp (do
        let pte ← getPte (m.proc p).pgdir v
        if pte.p = true then throw (.panic "remap") else
          setPte (m.proc p).pgdir v (Pte.wu.mapTo f)
          pure true) (fun r m' => SameSize p m m' ∧
      Plain c p m' (fun w => (r = true ∧ w = v) ∨ S w)) anyStop m1 := by
    intro m1 hsame h1 ht
    rw [← hsame.pgdir]
    simp only [wp_bind, wp_getPte, wp_ite, wp_throw, wp_setPte, wp_pure]
    exact ⟨fun _ => trivial, fun _ => ⟨⟨hsame.sz, hsame.pgdir⟩, (h1.map ht).weaken (by simp)⟩⟩
  simp only [Xv6Paging.mappages, walkpgdir, wp_bind, wp_get, h.live, if_true]
  rw [pdx, pgsize_mul_div]
  cases ht : (m.dirs (m.proc p).pgdir).table (v / nptentries) with
  | some t =>
    simp only [wp_pure, vpn_mul]
    exact hwrite (.refl p m) h (by simp [ht])
  | none =>
    simp only [wp_bind, wp_kalloc]
    refine ⟨fun _ => ?_, fun g rest hg => ?_⟩
    · simp only [wp_pure]
      exact ⟨.refl p m, h.weaken (by simp)⟩
    · simp only [wp_bind, wp_modify, wp_pure, vpn_mul]
      refine hwrite ⟨rfl, rfl⟩ ?_ (by simp [Machine.addTable])
      exact Plain.addTable (m := m.takeFrame g rest) (h.congr rfl rfl) ht

end Plain

/-- One turn of `allocuvm` at page `v`: the page is there, or the pages are those below `oldsz`
    again. -/
theorem Plain.allocPage (h : Plain c p m (· < v)) (hpages : ¬ c.pages p) (hkern : newsz < kernbase)
    (hov : npages oldsz ≤ v) (hv : v < npages newsz) :
    wp (allocPage c p (m.proc p).pgdir oldsz newsz (pgsize * v)) (fun r m' => SameSize p m m' ∧
      (r = true → Plain c p m' (· < v + 1)) ∧ (r = false → Plain c p m' (· < npages oldsz)))
      anyStop m := by
  -- Undoing what this call has added.
  have hundo : ∀ {m1 : Machine}, SameSize p m m1 → Plain c p m1 (· < v) →
      wp (Xv6Paging.deallocuvm c p (m.proc p).pgdir newsz oldsz) (fun _ m' => SameSize p m m' ∧
        Plain c p m' (· < npages oldsz)) anyStop m1 := by
    intro m1 hsame h1
    rw [← hsame.pgdir]
    refine wp_post (h1.deallocuvm hkern.le) ?_
    rintro _ m2 ⟨-, hsame2, h2⟩
    exact ⟨hsame.trans hsame2, h2.weaken fun w _ => by omega⟩
  simp only [Xv6Paging.allocPage, makeRoom, if_neg hpages, wp_bind, wp_pure, if_true, wp_kalloc]
  refine ⟨fun _ => ?_, fun f rest hf => ?_⟩
  · refine wp_post (hundo (.refl p m) h) ?_
    rintro _ m2 ⟨hsame2, h2⟩
    exact ⟨hsame2, fun hr => by simp at hr, fun _ => h2⟩
  · rw [wp_modify]
    refine wp_post (Plain.mappages (m := (m.takeFrame f rest).setMem f Page.zero)
      (h.congr rfl rfl)) ?_
    rintro r m1 ⟨hsame1, h1⟩
    have hsame : SameSize p m m1 := ⟨hsame1.sz, hsame1.pgdir⟩
    cases r with
    | true =>
      simp only [if_true, wp_pure]
      exact ⟨hsame, fun _ => h1.weaken fun w _ => by simp; omega, fun hr => by simp at hr⟩
    | false =>
      simp only [Bool.false_eq_true, if_false, wp_bind]
      refine wp_post (hundo hsame (h1.weaken (by simp))) ?_
      rintro _ m2 ⟨hsame2, h2⟩
      refine (wp_kfree _ _).mpr ⟨fun _ => ⟨fun _ => trivial, fun _ => ?_⟩, fun _ => trivial⟩
      rw [wp_pure]
      exact ⟨⟨hsame2.sz, hsame2.pgdir⟩, fun hr => by simp at hr, fun _ => h2.congr rfl rfl⟩

end Plain

/-! ## Both kinds of processes -/

theorem Image.tracked (h : Image c p m n) (hpages : c.pages p) : PagedImage c p m n := by
  rwa [Image, if_pos hpages] at h

theorem Image.plain (h : Image c p m n) (hpages : ¬ c.pages p) : Plain c p m (· < n) := by
  rwa [Image, if_neg hpages] at h

theorem PagedImage.image (h : PagedImage c p m n) (hpages : c.pages p) : Image c p m n := by
  rwa [Image, if_pos hpages]

theorem Plain.image (h : Plain c p m (· < n)) (hpages : ¬ c.pages p) : Image c p m n := by
  rwa [Image, if_neg hpages]

theorem Image.le_max (h : Image c p m n) (hpages : c.pages p) : n ≤ maxTotalPages := by
  obtain ⟨T, hpl, hT, -⟩ := (h.tracked hpages).pages
  exact hT.le_max hpl.recorded

/-- `deallocuvm` to a smaller size, or from a larger one. -/
theorem Image.deallocuvm (h : Image c p m n) (hold : oldsz ≤ kernbase) (hlt : newsz < oldsz)
    (hn : npages newsz ≤ n) (hn' : n ≤ npages oldsz) :
    wp (deallocuvm c p (m.proc p).pgdir oldsz newsz) (fun r m' => r = newsz ∧ SameSize p m m' ∧
      Image c p m' (npages newsz)) anyStop m := by
  by_cases hpages : c.pages p
  · refine wp_post ((h.tracked hpages).deallocuvm hpages hold) ?_
    rintro r m' ⟨hr, hsame, h'⟩
    rw [if_neg (by omega)] at hr
    exact ⟨hr, hsame, (h' _ fun w => by omega).image hpages⟩
  · refine wp_post ((h.plain hpages).deallocuvm hold) ?_
    rintro r m' ⟨hr, hsame, h'⟩
    rw [if_neg (by omega)] at hr
    exact ⟨hr, hsame, (h'.weaken fun w _ => by omega).image hpages⟩

section Turns

variable (hfuel : 2 * maxTotalPages ≤ c.fuel) (hkern : newsz < kernbase)
  (hroom : c.pages p → RoomFor p (npages newsz) m)
  (hlimit : c.pages p → npages newsz ≤ maxTotalPages ∨ npages oldsz = maxTotalPages)

include hfuel hkern hroom hlimit

/-- One turn of `allocuvm`. -/
theorem Image.allocPage (h : Image c p m v) (hov : npages oldsz ≤ v) (hv : v < npages newsz) :
    wp (allocPage c p (m.proc p).pgdir oldsz newsz (pgsize * v)) (fun r m' => SameSize p m m' ∧
      (r = true → Image c p m' (v + 1) ∧ (c.pages p → RoomFor p (npages newsz) m')) ∧
      (r = false → Image c p m' (npages oldsz))) anyStop m := by
  by_cases hpages : c.pages p
  · have hmax := h.le_max hpages
    have hlim : npages newsz ≤ maxTotalPages ∨ v = npages oldsz := by
      have := hlimit hpages
      omega
    refine wp_post ((h.tracked hpages).allocPage hpages hfuel hkern hov hv (hroom hpages) hlim) ?_
    rintro r m' ⟨hsame, htrue, hfalse⟩
    exact ⟨hsame, fun hr => ⟨(htrue hr).1.image hpages, fun _ => (htrue hr).2⟩,
      fun hr => (hfalse hr).image hpages⟩
  · refine wp_post ((h.plain hpages).allocPage hpages hkern hov hv) ?_
    rintro r m' ⟨hsame, htrue, hfalse⟩
    exact ⟨hsame, fun hr => ⟨(htrue hr).image hpages, fun hp => absurd hp hpages⟩,
      fun hr => (hfalse hr).image hpages⟩

theorem Image.allocLoop (h : Image c p m v) (hov : npages oldsz ≤ v) (hvk : v + k = npages newsz) :
    wp (allocLoop c p (m.proc p).pgdir oldsz newsz k (pgsize * v)) (fun r m' => SameSize p m m' ∧
      ((r = newsz ∧ Image c p m' (npages newsz)) ∨ (r = 0 ∧ Image c p m' (npages oldsz)))) anyStop m := by
  induction k generalizing m v with
  | zero =>
    obtain rfl : v = npages newsz := hvk
    rw [Xv6Paging.allocLoop, wp_pure]
    exact ⟨.refl p m, .inl ⟨rfl, h⟩⟩
  | succ k ih =>
    simp only [Xv6Paging.allocLoop, wp_bind]
    refine wp_post (h.allocPage hfuel hkern hroom hlimit hov (by omega)) ?_
    rintro r m1 ⟨hsame, htrue, hfalse⟩
    cases r with
    | false =>
      simp only [Bool.false_eq_true, if_false, wp_pure]
      exact ⟨hsame, .inr ⟨trivial, hfalse rfl⟩⟩
    | true =>
      obtain ⟨h1, hroom1⟩ := htrue rfl
      have hnext : pgsize * v + pgsize = pgsize * (v + 1) := by rw [Nat.mul_succ]
      simp only [if_true, hnext]
      rw [← hsame.pgdir]
      refine wp_post (ih hroom1 h1 (by omega) (by omega)) ?_
      rintro r m2 ⟨hsame2, hres⟩
      exact ⟨hsame.trans hsame2, hres⟩

/-- `allocuvm` adds all the pages asked for, or none. -/
theorem Image.allocuvm (h : Image c p m (npages oldsz)) (hle : oldsz ≤ newsz) :
    wp (allocuvm c p (m.proc p).pgdir oldsz newsz) (fun r m' => SameSize p m m' ∧
      ((r = newsz ∧ Image c p m' (npages newsz)) ∨ (r = 0 ∧ Image c p m' (npages oldsz)))) anyStop m := by
  have hround : pgroundup oldsz = pgsize * npages oldsz :=
    pgroundup_eq (by simp only [kernbase, pgsize] at *; omega)
  rw [Xv6Paging.allocuvm, if_neg (by omega), if_neg (by omega), hround]
  exact h.allocLoop hfuel hkern hroom hlimit le_rfl (npages_add hle)

end Turns

theorem Image.setSz (h : Image c p m n) (sz : Nat) :
    Image c p (m.setProc p ((m.proc p).setSz sz)) n := by
  have hproc : (m.setProc p ((m.proc p).setSz sz)).proc p = (m.proc p).setSz sz := by simp
  by_cases hpages : c.pages p
  · obtain ⟨⟨T, hpl, hT, hg⟩, hhead⟩ := h.tracked hpages
    refine PagedImage.image ⟨⟨T, ?_, hT, ?_⟩, by rw [hproc]; exact hhead⟩ hpages
    · have hr := hpl.recorded
      have hrec : ((m.proc p).setSz sz).Recorded T :=
        ⟨hr.entry, hr.ram, hr.disk, hr.offsets, hr.ok, hr.page_lt⟩
      exact hpl.setProc hrec rfl rfl hpl.opened
    · intro w x hw hx
      simp only [setSz_pte]
      exact hg w x hw hx
  · have hpl := h.plain hpages
    refine Plain.image ⟨?_, fun w hw => ?_, fun w hw => ?_, ?_⟩ hpages
    · rw [hproc]
      exact hpl.live
    · rw [← hpl.mapped w hw, Machine.mapped, hproc, setSz_pte]
      rfl
    · rw [hproc, setSz_pte]
      exact hpl.present w hw
    · rw [hproc]
      exact hpl.noEntry

/-! ## `sbrk` -/

/-- `sbrk(n)`: the old size, or `-1`. -/
def sysSbrk (c : Config) (p : Nat) (n : Int) : K Int := do
  let pr ← getProc p
  let ok ← growproc c p n
  if ok = true then
    pure pr.sz
  else
    pure (-1)

/-- What a call of `sbrk(n)` that returns `r` promises about the state `m` before and the state
    `m'` after it. -/
structure Exact (p : Nat) (n : Int) (m : Machine) (r : Int) (m' : Machine) : Prop where
  size : r = (m.proc p).sz → ((m'.proc p).sz : Int) = (m.proc p).sz + n
  failed : r = -1 → (m'.proc p).sz = (m.proc p).sz ∧
    ∀ v < nuserPages, m'.mapped p v ↔ m.mapped p v

/-- Every page below the size is mapped. -/
def Covered (p : Nat) (m : Machine) : Prop := ∀ v, pgsize * v < (m.proc p).sz → m.mapped p v

/-- A call of `sbrk(n)` that the code treats as it should: a process shrinks to a size above `0`;
    a tracked process that grows does not run into the page limit half way, and pages go out only
    while the list holds what is in RAM. -/
def Fits (c : Config) (p : Nat) (n : Int) (m : Machine) : Prop :=
  (n < 0 → 0 < (m.proc p).sz + n) ∧
  (0 < n → c.pages p → (m.proc p).sz + n < kernbase →
    RoomFor p (npages ((m.proc p).sz + n).toNat) m ∧
    (npages ((m.proc p).sz + n).toNat ≤ maxTotalPages ∨ npages (m.proc p).sz = maxTotalPages))

/-- A process between two system calls. -/
structure Sized (c : Config) (p : Nat) (m : Machine) : Prop where
  image : Image c p m (npages (m.proc p).sz)
  pos : 0 < (m.proc p).sz
  lt : (m.proc p).sz < kernbase

theorem Sized.covered (h : Sized c p m) : Covered p m := by
  intro v hv
  have hlt := h.lt
  refine (h.image.mapped_iff ?_).mpr ((npages_lt_iff _ _).mp hv)
  simp only [kernbase, nuserPages, pgsize] at *
  omega

/-- The size is set to that of the image. -/
theorem Sized.resize {sz : Nat} (h' : Image c p m' (npages sz)) (hpos : 0 < sz)
    (hlt : sz < kernbase) {n : Int} (hsz : (sz : Int) = (m.proc p).sz + n) :
    Exact p n m (m.proc p).sz (m'.setProc p ((m'.proc p).setSz sz)) ∧
      Sized c p (m'.setProc p ((m'.proc p).setSz sz)) := by
  refine ⟨⟨fun _ => ?_, fun hr => by omega⟩, ⟨?_, ?_, ?_⟩⟩
  · simpa [Proc.setSz] using hsz
  · simpa [Proc.setSz] using h'.setSz sz
  · simpa [Proc.setSz] using hpos
  · simpa [Proc.setSz] using hlt

/-- A call that fails. -/
theorem Sized.failed (h : Sized c p m) (hsame : SameSize p m m')
    (h' : Image c p m' (npages (m.proc p).sz)) (n : Int) : Exact p n m (-1) m' ∧ Sized c p m' := by
  refine ⟨⟨fun hr => by omega, fun _ => ⟨hsame.sz, fun v hv => ?_⟩⟩, ⟨?_, ?_, ?_⟩⟩
  · rw [h'.mapped_iff hv, h.image.mapped_iff hv]
  · rwa [hsame.sz]
  · rw [hsame.sz]
    exact h.pos
  · rw [hsame.sz]
    exact h.lt

theorem sysSbrk_exact {n : Int} (h : Sized c p m) (hfuel : 2 * maxTotalPages ≤ c.fuel)
    (hn : n < 2 ^ 31) (hfits : Fits c p n m) :
    wp (sysSbrk c p n) (fun r m' => Exact p n m r m' ∧ Sized c p m') anyStop m := by
  have hlt := h.lt
  have hkern : kernbase = 2 ^ 31 := rfl
  rcases lt_trichotomy n 0 with hneg | rfl | hpos
  · -- The new size is a size.
    have hpos := hfits.1 hneg
    obtain ⟨sz, hsz⟩ : ∃ sz : Nat, ((m.proc p).sz + n : Int) = sz := ⟨_, (Int.toNat_of_nonneg (by omega)).symm⟩
    have hnew : (((m.proc p).sz + n : Int) % 2 ^ 32).toNat = sz := by omega
    simp only [sysSbrk, growproc, wp_bind, wp_getProc, hnew, if_neg (show ¬ 0 < n by omega), if_pos hneg]
    refine wp_post (h.image.deallocuvm (by omega) (show sz < (m.proc p).sz by omega)
      (npages_le (by omega)) (le_refl _)) ?_
    rintro r m' ⟨rfl, hsame, h'⟩
    simp only [if_neg (show ¬ r = 0 by omega), wp_bind, wp_modifyProc, wp_pure, if_true]
    exact Sized.resize h' (by omega) (by omega) hsz.symm
  · simp only [sysSbrk, growproc, wp_bind, wp_getProc, lt_irrefl, if_false, wp_pure, if_true]
    exact ⟨⟨fun _ => by simp, fun hr => by omega⟩, h⟩
  · obtain ⟨sz, hsz⟩ : ∃ sz : Nat, ((m.proc p).sz + n : Int) = sz := ⟨_, (Int.toNat_of_nonneg (by omega)).symm⟩
    have hnew : (((m.proc p).sz + n : Int) % 2 ^ 32).toNat = sz := by omega
    simp only [sysSbrk, growproc, wp_bind, wp_getProc, hnew, if_pos hpos]
    by_cases hbig : kernbase ≤ sz
    · simp only [Xv6Paging.allocuvm, if_pos hbig, wp_pure, if_true, Bool.false_eq_true, if_false]
      exact h.failed (.refl p m) h.image n
    · have hgrow := hfits.2 hpos
      rw [hsz, Int.toNat_natCast] at hgrow
      refine wp_post (h.image.allocuvm hfuel (by omega) (fun hp => (hgrow hp (by omega)).1)
        (fun hp => (hgrow hp (by omega)).2) (by omega)) ?_
      rintro r m' ⟨hsame, ⟨rfl, h'⟩ | ⟨rfl, h'⟩⟩
      · simp only [if_neg (show ¬ r = 0 by omega), wp_bind, wp_modifyProc, wp_pure, if_true]
        exact Sized.resize h' (by omega) (by omega) hsz.symm
      · simp only [if_true, wp_pure, Bool.false_eq_true, if_false]
        exact h.failed hsame h' n

/-- In a sequence of `sbrk` calls each of which fits, every call is exact and atomic, and every
    page below the size is mapped in every state reached. -/
theorem sbrk_exact {ns : List (BitVec 32)} (h : Sized c p m) (hfuel : 2 * maxTotalPages ≤ c.fuel)
    (hfits : Along (fun n : BitVec 32 => sysSbrk c p n.toInt) (fun n => Fits c p n.toInt) ns m) :
    Along (fun n : BitVec 32 => sysSbrk c p n.toInt) (fun n m => Covered p m ∧
      wp (sysSbrk c p n.toInt) (fun r m' => Exact p n.toInt m r m' ∧ Covered p m') anyStop m) ns m := by
  have hstep : ∀ (n : BitVec 32) (m : Machine), Sized c p m → Fits c p n.toInt m →
      wp (sysSbrk c p n.toInt) (fun r m' => Exact p n.toInt m r m' ∧ Sized c p m') anyStop m :=
    fun n m hm hn => sysSbrk_exact hm hfuel (by have := BitVec.toInt_lt (x := n); omega) hn
  refine Along.of_invariant (fun n m (hm : Sized c p m) hn => ?_) (fun n m hm hn => ?_) h hfits
  · exact wp_post (hstep n m hm hn) fun _ _ hres => hres.2
  · exact ⟨hm.covered, wp_post (hstep n m hm hn) fun _ _ hres => ⟨hres.1, hres.2.covered⟩⟩

theorem growing_sz : (growing.proc 3).sz = 3 * pgsize := by
  unfold growing
  rfl

theorem growing_sized : Sized (sampleConfig .SCFIFO) 3 growing := by
  have hs := growing_running
  refine ⟨?_, by rw [growing_sz]; decide, by rw [growing_sz]; decide⟩
  rw [growing_sz]
  exact PagedImage.image (hs.paged.image sample_tracked hs.guarded (by simp)) (by decide)

/-- The sample process grows by one page and gives it back. -/
theorem sbrk_exact_page :
    Along (fun n : BitVec 32 => sysSbrk (sampleConfig .SCFIFO) 3 n.toInt) (fun n m => Covered 3 m ∧
      wp (sysSbrk (sampleConfig .SCFIFO) 3 n.toInt) (fun r m' => Exact 3 n.toInt m r m' ∧
        Covered 3 m') anyStop m) [4096, -4096] growing := by
  refine sbrk_exact growing_sized (by decide) (.of_final ?_ (.of_final ?_ trivial))
  · refine ⟨fun hneg => absurd hneg (by decide), fun _ _ _ => ?_⟩
    rw [growing_sz]
    exact ⟨.inl (by decide), .inl (by decide)⟩
  · refine ⟨fun _ => ?_, fun hpos => absurd hpos (by decide)⟩
    unfold growing
    decide +kernel

/-- Shrinking to size `0` fails with the pages gone, and shrinking by more than the size succeeds
    and leaves the size. -/
theorem sbrk_shrinks_too_far :
    Sized (sampleConfig .SCFIFO) 3 growing ∧ growing.mapped 3 0 ∧
    yields (sysSbrk (sampleConfig .SCFIFO) 3 (-12288)) growing (· == -1) = true ∧
    ¬ (final (sysSbrk (sampleConfig .SCFIFO) 3 (-12288)) growing).mapped 3 0 ∧
    yields (sysSbrk (sampleConfig .SCFIFO) 3 (-12289)) growing (· == 12288) = true ∧
    ((final (sysSbrk (sampleConfig .SCFIFO) 3 (-12289)) growing).proc 3).sz = 12288 := by
  refine ⟨growing_sized, ?_⟩
  unfold growing
  decide +kernel

end Xv6Paging
