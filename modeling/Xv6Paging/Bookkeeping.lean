import Xv6Paging.Process

/-! # The bookkeeping of a process over whole runs

    Two properties of the paging data of `struct proc`, stated on its own fields:
    `RamListOk`, that the RAM list holds exactly the pages that are in RAM and
    agrees with the page table, and `Accounted`, that counters, limits and
    slots of the swap file are right. Both follow from the invariant `Running`,
    which every operation keeps that releases no page that is in RAM.
-/

namespace Xv6Paging

open Wp Run DList Placement

variable {c : Config} {p : Nat} {s : Space}
  {ops : List Op} {m : Machine} {T : PageMap} {l : List Nat} {i t : Nat} {pr : Proc}

/-! ## Runs keep the invariant -/

/-- Every state that a run of allowed operations reaches is that of a running
    process. A run that stops has run out of frames. -/
theorem run_running (hpages : c.pages p) (hfuel : 2 * maxTotalPages ≤ c.fuel) (hs : Running c p s)
    (hops : Along (Op.exec c p) (Op.Allowed c p) ops s.machine) :
    wp (run (Op.exec c p) ops) (fun _ m' => ∃ s' : Space, s'.machine = m' ∧ Running c p s')
      (fun e _ => e = outOfMemory ∨ e = .killed) s.machine := by
  refine wp_invariant ?_ ⟨s, rfl, hs⟩ hops
  rintro op _ ⟨s1, rfl, h1⟩ hok
  refine wp_mono (Op.exec_step h1 hpages hfuel hok) ?_ (fun _ _ he => he.1)
  rintro _ m' ⟨s', rfl, hst⟩
  exact ⟨s', rfl, hst.running⟩

/-- Without sharing a run does not stop. -/
theorem run_running_private (hpages : c.pages p) (hfuel : 2 * maxTotalPages ≤ c.fuel)
    (hs : Running c p s) (hpriv : s.Private p)
    (hops : Along (Op.exec c p) (Op.Allowed c p) ops s.machine) :
    wp (run (Op.exec c p) ops) (fun _ m' => ∃ s' : Space, s'.machine = m' ∧ Running c p s' ∧
      s'.Private p) noStop s.machine := by
  refine wp_invariant ?_ ⟨s, rfl, hs, hpriv⟩ hops
  rintro op _ ⟨s1, rfl, h1, hp1⟩ hok
  refine wp_mono (Op.exec_step h1 hpages hfuel hok) ?_ (fun _ _ he => he.2 hp1)
  rintro _ m' ⟨s', rfl, hst⟩
  exact ⟨s', rfl, hst.running, hst.keepsPrivate hp1⟩

/-! ## The RAM list -/

/-- State and page of entry `i`. -/
def Proc.state (pr : Proc) (i : Nat) : PageState := (pr.pagesMetaData i).page.state

def Proc.pageId (pr : Proc) (i : Nat) : Nat := (pr.pagesMetaData i).page.pageId

/-- The list from `page_list_head_ram` is doubly linked and without cycles, it
    visits each `IN_MEMORY` entry once and no other, and has `num_pages_ram`
    nodes. An entry in use is `IN_MEMORY` iff its page is present, and `IN_DISK` iff
    its page is marked as paged out and not present. -/
structure RamListOk (p : Nat) (m : Machine) : Prop where
  listed : ∃ l, IsList (m.proc p).next (m.proc p).prev (m.proc p).pageListHeadRam l ∧
    (∀ i, i ∈ l ↔ i < maxTotalPages ∧ (m.proc p).state i = .inMemory) ∧
    l.length = (m.proc p).numPagesRam
  inMemory_iff : ∀ i < maxTotalPages, (m.proc p).state i ≠ .notUsed →
    ((m.proc p).state i = .inMemory ↔ (m.pte p (vpn ((m.proc p).pageId i))).p = true)
  inDisk_iff : ∀ i < maxTotalPages, (m.proc p).state i ≠ .notUsed →
    ((m.proc p).state i = .inDisk ↔ (m.pte p (vpn ((m.proc p).pageId i))).pg = true ∧
      (m.pte p (vpn ((m.proc p).pageId i))).p = false)

/-- The page of an entry in use is where the entry says. -/
theorem Paged.pte_of_used (h : Paged c p m T l) (hi : i < maxTotalPages)
    (hused : (m.proc p).state i ≠ .notUsed) :
    ((m.proc p).state i = .inMemory ∧ (m.pte p (vpn ((m.proc p).pageId i))).p = true) ∨
    ((m.proc p).state i = .inDisk ∧ (m.pte p (vpn ((m.proc p).pageId i))).p = false ∧
      (m.pte p (vpn ((m.proc p).pageId i))).pg = true) := by
  have hent := h.records.entry i hi
  cases hT : T i with
  | free => rw [hT] at hent; exact absurd hent.1 hused
  | fast v =>
    rw [hT] at hent
    have hv : v < nuserPages := lt_nuserPages (h.records.page_lt hi (by simp [hT]))
    have hid : (m.proc p).pageId i = pgsize * v := hent.2
    rw [hid, vpn_mul]
    exact .inl ⟨hent.1, (h.present_iff hv).mpr ⟨i, hi, hT⟩⟩
  | slow v t =>
    rw [hT] at hent
    have hv : v < nuserPages := lt_nuserPages (h.records.page_lt hi (by simp [hT]))
    have hid : (m.proc p).pageId i = pgsize * v := hent.2.1
    rw [hid, vpn_mul]
    exact .inr ⟨hent.1, (h.paged_iff hv).mpr ⟨i, hi, t, hT⟩⟩

theorem Paged.ramListOk (h : Paged c p m T l) :
    RamListOk p m := by
  refine ⟨⟨l, h.listed.isList, ?_, h.records.length_eq⟩, ?_, ?_⟩
  · intro i
    rw [h.records.mem_iff]
    refine and_congr_right fun hi => ?_
    exact (h.records.entry i hi).inMemory_iff.symm
  · intro i hi hused
    rcases h.pte_of_used hi hused with ⟨hst, hp⟩ | ⟨hst, hp, hpg⟩
    · simp [hst, hp]
    · simp [hst, hp]
  · intro i hi hused
    rcases h.pte_of_used hi hused with ⟨hst, hp⟩ | ⟨hst, hp, hpg⟩
    · simp [hst, hp]
    · simp [hst, hp, hpg]

/-- Growths, faults, and shrinks that release no page in RAM keep the RAM list. -/
theorem ramList_ok_of_run {ops : List Op} (hpages : c.pages p) (hfuel : 2 * maxTotalPages ≤ c.fuel)
    (hs : Running c p s) (hops : Along (Op.exec c p) (Op.Allowed c p) ops s.machine) :
    (∀ outs m', run (Op.exec c p) ops s.machine = .ok outs m' → RamListOk p m') ∧
      ∀ e m', run (Op.exec c p) ops s.machine = .error e m' → e = outOfMemory ∨ e = .killed := by
  refine wp_iff.mp (wp_post (run_running hpages hfuel hs hops) ?_)
  rintro _ m' ⟨s', rfl, h⟩
  exact h.paged.ramListOk

/-- A process grows to 17 pages, reads the page that has gone out, in exchange for
    the last one, and shrinks by that. -/
def sampleShrink : List Op := [.grow (14 * 4096), .load (15 * 4096), .grow (-4096)]

theorem sampleShrink_allowed : Along (Op.exec (sampleConfig .LIFO) 3)
    (Op.Allowed (sampleConfig .LIFO) 3) sampleShrink (sample (sampleConfig .LIFO) 20) := by
  decide +kernel

theorem ramList_ok_of_run_sample : ∃ outs m', run (Op.exec (sampleConfig .LIFO) 3) sampleShrink
    (sample (sampleConfig .LIFO) 20) = .ok outs m' ∧ RamListOk 3 m' := by
  obtain ⟨outs, hrun⟩ := exists_of_returns (x := run (Op.exec (sampleConfig .LIFO) 3) sampleShrink)
    (s := sample (sampleConfig .LIFO) 20) (by decide +kernel)
  refine ⟨outs, _, hrun, ?_⟩
  exact (ramList_ok_of_run (s := sampleSpace (sampleConfig .LIFO) 20) (by decide) (by decide)
    (sample_fresh .LIFO (by decide)).running sampleShrink_allowed).1 outs _ hrun

/-- Growing by a page and shrinking by the same page, which is in RAM. -/
def growAndShrink : List Op := [.grow 4096, .grow (-4096)]

/-- What `growAndShrink` leaves: entry 3 is linked behind entry 2 and not in use. -/
theorem growAndShrink_links (m : Machine)
    (hm : m = final (run (Op.exec (sampleConfig .LIFO) 3) growAndShrink)
      (sample (sampleConfig .LIFO) 20)) :
    (m.proc 3).pageListHeadRam = some 0 ∧ (m.proc 3).next 0 = some 1 ∧
      (m.proc 3).next 1 = some 2 ∧ (m.proc 3).next 2 = some 3 ∧
      (m.proc 3).state 3 = .notUsed := by
  subst hm
  decide +kernel

/-- A shrink that releases a page in RAM leaves its entry in the RAM list. -/
theorem ramList_broken_by_shrink :
    Running (sampleConfig .LIFO) 3 (sampleSpace (sampleConfig .LIFO) 20) ∧
    ∃ outs m', run (Op.exec (sampleConfig .LIFO) 3) growAndShrink (sample (sampleConfig .LIFO) 20) =
      .ok outs m' ∧ ¬ RamListOk 3 m' := by
  refine ⟨(sample_fresh .LIFO (by decide)).running, ?_⟩
  obtain ⟨outs, hrun⟩ := exists_of_returns (x := run (Op.exec (sampleConfig .LIFO) 3) growAndShrink)
    (s := sample (sampleConfig .LIFO) 20) (by decide +kernel)
  refine ⟨outs, _, hrun, ?_⟩
  rintro ⟨⟨l, hl, hmem, -⟩, -, -⟩
  obtain ⟨hhead, h0, h1, h2, h3⟩ := growAndShrink_links _ rfl
  have hin0 : 0 ∈ l := List.mem_of_head? (hl.head_eq.symm.trans hhead)
  have hin3 : 3 ∈ l := hl.next_mem (hl.next_mem (hl.next_mem hin0 h0) h1) h2
  have := ((hmem 3).mp hin3).2
  rw [h3] at this
  cases this

/-! ## Counters, limits and slots -/

/-- Number of entries in a state. -/
def Proc.countState (pr : Proc) (st : PageState) : Nat :=
  ((Finset.range maxTotalPages).filter fun i => pr.state i = st).card

def Proc.offset (pr : Proc) (i : Nat) : Nat := (pr.pagesMetaData i).page.offsetInFile

/-- The counters count, the limits are kept, no page has two entries, a slot is
    marked iff exactly one page is in it, and the next page to go out finds a slot
    at which `writei` accepts it. -/
structure Accounted (p : Nat) (m : Machine) : Prop where
  ram : (m.proc p).numPagesRam = (m.proc p).countState .inMemory
  disk : (m.proc p).numPagesDisk = (m.proc p).countState .inDisk
  ram_le : (m.proc p).numPagesRam ≤ maxPsycPages
  total_le : (m.proc p).numPagesRam + (m.proc p).numPagesDisk ≤ maxTotalPages
  pageId_inj : ∀ i < maxTotalPages, ∀ j < maxTotalPages, (m.proc p).state i ≠ .notUsed →
    (m.proc p).state j ≠ .notUsed → (m.proc p).pageId i = (m.proc p).pageId j → i = j
  offsets : ∀ t < swapSlots, (m.proc p).availableOffsets t = true ↔
    ∃! i, i < maxTotalPages ∧ (m.proc p).state i = .inDisk ∧ (m.proc p).offset i = t * pgsize
  accepted : ∃ t, (m.proc p).nextAvOffset = some t ∧
    ∀ pg : Page, ((m.swap p).writei pg.byte (pgsize * t) pgsize).isSome = true

section Accounted

theorem Proc.Records.countState_inMemory (h : pr.Records T l) :
    pr.numPagesRam = pr.countState .inMemory := by
  rw [h.ram, fastCount, count, Proc.countState]
  congr 1
  refine Finset.filter_congr fun i hi => ?_
  exact (h.entry i (Finset.mem_range.mp hi)).inMemory_iff.symm

theorem Proc.Records.countState_inDisk (h : pr.Records T l) :
    pr.numPagesDisk = pr.countState .inDisk := by
  rw [h.disk, slowCount, count, Proc.countState]
  congr 1
  refine Finset.filter_congr fun i hi => ?_
  exact (h.entry i (Finset.mem_range.mp hi)).inDisk_iff.symm

/-- An entry in use has the key that its page id says. -/
theorem Proc.Records.key_of_used (h : pr.Records T l) (hi : i < maxTotalPages)
    (hused : pr.state i ≠ .notUsed) : ∃ v, (T i).key = some v ∧ pr.pageId i = pgsize * v := by
  have hent := h.entry i hi
  cases hT : T i with
  | free => rw [hT] at hent; exact absurd hent.1 hused
  | fast v => rw [hT] at hent; exact ⟨v, rfl, hent.2⟩
  | slow v t => rw [hT] at hent; exact ⟨v, rfl, hent.2.1⟩

/-- A page is in slot `t` iff the table says so. -/
theorem Proc.Records.slot_iff (h : pr.Records T l) (hi : i < maxTotalPages) :
    (pr.state i = .inDisk ∧ pr.offset i = t * pgsize) ↔ (T i).slot = some t := by
  have hent := h.entry i hi
  cases hT : T i with
  | free =>
    rw [hT] at hent
    have hst : pr.state i = .notUsed := hent.1
    simp [hst]
  | fast v =>
    rw [hT] at hent
    have hst : pr.state i = .inMemory := hent.1
    simp [hst]
  | slow v r =>
    rw [hT] at hent
    have hst : pr.state i = .inDisk := hent.1
    have hoff : pr.offset i = pgsize * r := hent.2.2
    simp only [hst, hoff, true_and, Entry.slot_slow, Option.some.injEq, Nat.mul_comm t pgsize]
    exact Nat.mul_left_cancel_iff pgsize_pos

theorem Proc.Records.offsets_iff (h : pr.Records T l) (ht : t < swapSlots) :
    pr.availableOffsets t = true ↔
      ∃! i, i < maxTotalPages ∧ pr.state i = .inDisk ∧ pr.offset i = t * pgsize := by
  rw [h.offsets t ht]
  constructor
  · rintro ⟨i, hi, hslot⟩
    refine ⟨i, ⟨hi, (h.slot_iff hi).mpr hslot⟩, ?_⟩
    rintro j ⟨hj, hjs⟩
    exact h.ok.slot_inj hj hi ((h.slot_iff hj).mp hjs) hslot
  · rintro ⟨i, ⟨hi, his⟩, -⟩
    exact ⟨i, hi, (h.slot_iff hi).mp his⟩

/-- There is a slot for the next page, and the file reaches up to it. -/
theorem Paged.accepted (h : Paged c p m T l) (hroom : (m.proc p).numPagesDisk < swapSlots) :
    ∃ t, (m.proc p).nextAvOffset = some t ∧
      ∀ pg : Page, ((m.swap p).writei pg.byte (pgsize * t) pgsize).isSome = true := by
  obtain ⟨t, ht, hnext, -, hlow⟩ := h.recorded.nextAvOffset_eq hroom
  refine ⟨t, hnext, fun pg => ?_⟩
  have hoff : pgsize * t ≤ (m.swap p).size := by
    cases t with
    | zero => simp
    | succ r =>
      have := h.covered (s := r) (by omega) (hlow r (by omega))
      rw [Nat.mul_succ]
      exact this
  have h1 : ¬ ((m.swap p).size < pgsize * t ∨ 2 ^ 32 ≤ pgsize * t + pgsize) := by
    simp only [pgsize, swapSlots] at *
    omega
  have h2 : ¬ maxfile * bsize < pgsize * t + pgsize := by
    simp only [pgsize, swapSlots, maxfile, bsize] at *
    omega
  simp only [Inode.writei, h1, h2, if_false, Option.isSome_some]

theorem Running.accounted (h : Running c p s) : Accounted p s.machine := by
  have hrec := h.paged.records
  have hq := h.quota
  have hram := hq.ram_le
  have hdisk := hq.disk_le
  refine ⟨hrec.countState_inMemory, hrec.countState_inDisk, ?_, ?_, ?_, ?_, ?_⟩
  · rw [hrec.ram]; exact hram
  · rw [hrec.ram, hrec.disk]; omega
  · intro i hi j hj hui huj heq
    obtain ⟨v, hkv, hv⟩ := hrec.key_of_used hi hui
    obtain ⟨w, hkw, hw⟩ := hrec.key_of_used hj huj
    rw [hv, hw, Nat.mul_left_cancel_iff pgsize_pos] at heq
    subst heq
    exact hrec.ok.key_inj hi hj hkv hkw
  · exact fun t ht => hrec.offsets_iff ht
  · refine h.paged.accepted ?_
    rw [hrec.disk]
    simp only [maxPsycPages, maxTotalPages, swapSlots] at *
    omega

/-- From a fresh image on, runs of growths, faults, and shrinks by pages in the
    swap file do not stop, so they never find the swap file full; and the
    accounts are right in every state they reach. -/
theorem accounts_ok_of_run {ops : List Op} (hpages : c.pages p) (hfuel : 2 * maxTotalPages ≤ c.fuel)
    (hfresh : Fresh c p s) (hops : Along (Op.exec c p) (Op.Allowed c p) ops s.machine) :
    ∃ outs m', run (Op.exec c p) ops s.machine = .ok outs m' ∧ Accounted p m' := by
  obtain ⟨outs, m', hrun, s', rfl, h, -⟩ := wp_noStop_iff.mp
    (run_running_private hpages hfuel hfresh.running hfresh.isPrivate hops)
  exact ⟨outs, s'.machine, hrun, h.accounted⟩

/-- Growths up to the page limit and past it, and faults. -/
def sampleGrowths : List Op :=
  [.grow (20 * 4096), .load 0, .grow (20 * 4096), .store (5 * 4096) 1, .setA 0, .load (2 * 4096)]

theorem sampleGrowths_allowed : Along (Op.exec (sampleConfig .AQ) 3)
    (Op.Allowed (sampleConfig .AQ) 3) sampleGrowths (sample (sampleConfig .AQ) 20) := by
  decide +kernel

theorem accounts_ok_of_run_sample : ∃ outs m', run (Op.exec (sampleConfig .AQ) 3) sampleGrowths
    (sample (sampleConfig .AQ) 20) = .ok outs m' ∧ Accounted 3 m' :=
  accounts_ok_of_run (s := sampleSpace (sampleConfig .AQ) 20) (by decide) (by decide)
    (sample_fresh .AQ (by decide)) sampleGrowths_allowed

end Accounted

end Xv6Paging
