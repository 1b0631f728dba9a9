import Xv6Paging.RefCount

/-! # The free-page counter from boot on (`main.c`, `kalloc.c`)

    `main` brings up the frame allocator in two steps: `kinit1` frees the frames below
    4 MB, `kvmalloc` and `startothers` already take frames from them, and `kinit2` frees
    the rest and starts the statistics that `procdump` prints. `kinit2` sets
    `system_free_pages` to `total_system_pages`, the frames of both ranges, and so forgets
    the frames handed out in between: from then on the counter is too high by their
    number.
-/

namespace Xv6Paging

open List Wp Function

variable {f k n r : Nat} {rest : List Nat} {m m' : Machine} {c : Config}

/-! ## Model -/

/-- `P2V`. -/
def p2v (a : Nat) : Nat := a + kernbase

/-- `V2P`. -/
def v2p (a : Nat) : Nat := a - kernbase

/-- End of the memory that `entrypgdir` maps. -/
def fourMB : Nat := 4 * 1024 * 1024

/-- The loop of `freerange`, for the `n` pages from frame `f` on. -/
def freeFrames (c : Config) : Nat → Nat → K Unit
  | 0, _ => pure ()
  | n + 1, f => do
    kfree c f
    freeFrames c n (f + 1)

/-- Hand the whole pages of `[vstart, vend)` to the allocator. -/
def freerange (c : Config) (vstart vend : Nat) : K Unit :=
  freeFrames c ((vend - pgroundup vstart) / pgsize) (v2p (pgroundup vstart) / pgsize)

/-- The pages of a range as `kinit1` and `kinit2` count them, in 32-bit arithmetic. -/
def pagesIn (vstart vend : Nat) : Nat :=
  (pgrounddown vend + 2 ^ 32 - pgroundup vstart) % 2 ^ 32 / pgsize

/-- The machine, and the part of `gloabl_memory_meta_data` that only boot writes. -/
structure Boot where
  machine : Machine
  totalSystemPages : Nat

/-- Run kernel code during boot. -/
def onBoot {α : Type} (x : K α) : EStateM Stop Boot α :=
  onPart Boot.machine (fun b m => { b with machine := m }) x

def kinit1 (c : Config) (vstart vend : Nat) : EStateM Stop Boot Unit := do
  onBoot (modify fun m => { m with useLock := false })
  onBoot (freerange c vstart vend)
  modify fun b => { b with totalSystemPages := pagesIn vstart vend }

def kinit2 (c : Config) (vstart vend : Nat) : EStateM Stop Boot Unit := do
  onBoot (freerange c vstart vend)
  modify fun b => { b with totalSystemPages := (b.totalSystemPages + pagesIn vstart vend) % 2 ^ 32 }
  onBoot (modify fun m => { m with useLock := true })
  modify fun b => { b with machine := { b.machine with systemFreePages := b.totalSystemPages } }

/-- What takes frames between `kinit1` and `kinit2`. -/
inductive EarlyAlloc where
  /-- The kernel page table. -/
  | kvmalloc
  /-- The stack of one more processor, in `startothers`. -/
  | apStack
  deriving DecidableEq, Repr

/-- Without a page table `switchkvm` loads an address that holds none; without a stack the
    other processor never reports, and `startothers` waits for it. -/
def EarlyAlloc.exec (c : Config) : EarlyAlloc → K Unit
  | .kvmalloc => do
    match ← setupkvm c 0 with
    | none => throw .wild
    | some _ => pure ()
  | .apStack => do
    match ← kalloc with
    | none => throw .diverge
    | some f => modify fun m => { m with kheld := update m.kheld f true }

/-- `main` up to `kinit2`, with what happens between the two halves as a parameter. -/
def boot (c : Config) (early : List EarlyAlloc) : EStateM Stop Boot Unit := do
  kinit1 c (p2v (c.kend * pgsize)) (p2v fourMB)
  let _ ← onBoot (Run.run (EarlyAlloc.exec c) early)
  kinit2 c (p2v fourMB) (p2v phystop)

/-- What `main` does between the two halves on a machine with `ncpu` processors. -/
def mainEarly (ncpu : Nat) : List EarlyAlloc :=
  .kvmalloc :: List.replicate (ncpu - 1) .apStack

/-- Frames that an early allocation takes: a directory with its page tables, or a stack. -/
def EarlyAlloc.frames : EarlyAlloc → Nat
  | .kvmalloc => 1 + kmapSlots.length
  | .apStack => 1

def framesTaken (early : List EarlyAlloc) : Nat := (early.map EarlyAlloc.frames).sum

/-- The allocator before `kinit1`: static data is zero. -/
structure PowerOn (b : Boot) : Prop where
  freelist : b.machine.freelist = []
  refs : ∀ f, b.machine.referenceCounters f = 0
  counter : b.machine.systemFreePages = 0

/-! ## Before `kinit2` -/

/-- The allocator while only frames below `hi` have been handed to it. -/
structure Early (c : Config) (hi : Nat) (m : Machine) : Prop where
  lock : m.useLock = false
  nodup : m.freelist.Nodup
  free : ∀ f ∈ m.freelist, c.kend ≤ f ∧ f < hi ∧ m.referenceCounters f = 0
  above : ∀ f, hi ≤ f → m.referenceCounters f = 0
  counter : m.systemFreePages = m.freelist.length

section Early

variable {hi : Nat}

theorem Early.length_le (h : Early c hi m) : m.freelist.length ≤ hi := by
  have hsub : m.freelist.toFinset ⊆ Finset.range hi := by
    intro f hf
    exact Finset.mem_range.mpr (h.free f (mem_toFinset.mp hf)).2.1
  have hcard := Finset.card_le_card hsub
  rwa [toFinset_card_of_nodup h.nodup, Finset.card_range] at hcard

theorem Early.takeFrame (h : Early c hi m) (hhi : hi ≤ nframes) (hl : m.freelist = r :: rest) :
    Early c hi (m.takeFrame r rest) := by
  have hnd : r ∉ rest ∧ rest.Nodup := nodup_cons.mp (hl ▸ h.nodup)
  have hr : c.kend ≤ r ∧ r < hi ∧ m.referenceCounters r = 0 := h.free r (by simp [hl])
  refine ⟨h.lock, hnd.2, ?_, ?_, ?_⟩
  · intro f hf
    have hne : f ≠ r := fun he => hnd.1 (he ▸ hf)
    rw [Machine.takeFrame_referenceCounters, update_of_ne hne]
    exact h.free f (by simp [hl, show f ∈ rest from hf])
  · intro f hf
    have hne : f ≠ r := by omega
    rw [Machine.takeFrame_referenceCounters, update_of_ne hne]
    exact h.above f hf
  · have hlen := h.length_le
    have hc := h.counter
    rw [hl, length_cons] at hlen hc
    have hn : nframes = 57344 := rfl
    rw [Machine.takeFrame_systemFreePages, Machine.takeFrame_freelist]
    omega

theorem Early.dropRef (h : Early c hi m) (hk : c.kend ≤ hi) (hhi : hi < nframes) :
    Early c (hi + 1) (m.dropRef hi) := by
  have hzero : m.referenceCounters hi = 0 := h.above hi le_rfl
  have hnew : hi ∉ m.freelist := fun hf => absurd (h.free hi hf).2.1 (by omega)
  have hrefs : (m.dropRef hi).referenceCounters = m.referenceCounters := by
    rw [Machine.dropRef_referenceCounters, hzero]
    exact update_eq_self_iff.mpr hzero.symm
  have hlist : (m.dropRef hi).freelist = hi :: m.freelist := by
    rw [Machine.dropRef_freelist, hzero]
    rfl
  refine ⟨h.lock, ?_, ?_, ?_, ?_⟩
  · rw [hlist]
    exact nodup_cons.mpr ⟨hnew, h.nodup⟩
  · intro f hf
    rw [hlist] at hf
    rw [hrefs]
    rcases mem_cons.mp hf with rfl | hf
    · exact ⟨hk, by omega, hzero⟩
    · obtain ⟨h1, h2, h3⟩ := h.free f hf
      exact ⟨h1, by omega, h3⟩
  · intro f hf
    rw [hrefs]
    exact h.above f (by omega)
  · have hlen := h.length_le
    have hn : nframes = 57344 := rfl
    rw [hlist, Machine.dropRef_systemFreePages, hzero, if_pos rfl, h.counter, length_cons]
    omega

/-- Page directories and kernel stacks are not the allocator's concern. -/
theorem Early.congr (h : Early c hi m) (hl : m'.freelist = m.freelist)
    (hr : m'.referenceCounters = m.referenceCounters) (hs : m'.systemFreePages = m.systemFreePages)
    (hu : m'.useLock = m.useLock) : Early c hi m' where
  lock := hu ▸ h.lock
  nodup := hl ▸ h.nodup
  free := by
    rw [hl, hr]
    exact h.free
  above := hr ▸ h.above
  counter := by rw [hs, hl, h.counter]

theorem wp_freeFrames_early (h : Early c hi m) (hk : c.kend ≤ hi) (hhi : hi + n ≤ nframes) :
    wp (freeFrames c n hi) (fun _ m' => Early c (hi + n) m' ∧
      m'.freelist.length = m.freelist.length + n) noStop m := by
  induction n generalizing hi m with
  | zero => exact ⟨h, rfl⟩
  | succ n ih =>
    have hunlocked : ¬ (m.useLock = true ∧ m.referenceCounters hi = 0) := by simp [h.lock]
    have hman : managed c hi := ⟨hk, by omega⟩
    unfold freeFrames
    rw [wp_bind, wp_kfree]
    refine ⟨fun _ => ⟨fun hl => absurd hl hunlocked, fun _ => ?_⟩, fun hno => absurd hman hno⟩
    refine wp_post (ih (h.dropRef hk (by omega)) (by omega) (by omega)) ?_
    intro _ m' hm'
    have hlen : (m.dropRef hi).freelist.length = m.freelist.length + 1 := by
      rw [Machine.dropRef_freelist, h.above hi le_rfl]
      rfl
    rw [hlen] at hm'
    rw [show hi + (n + 1) = hi + 1 + n by omega]
    exact ⟨hm'.1, by omega⟩

/-- `mapKernel` takes one frame for each slot, or finds too few. -/
theorem wp_mapKernel_early (ks : List Nat) (h : Early c hi m) (hhi : hi ≤ nframes) :
    wp (mapKernel d ks) (fun ok m' =>
      (ok = true → Early c hi m' ∧ m'.freelist.length + ks.length = m.freelist.length) ∧
      (ok = false → m.freelist.length < ks.length)) noStop m := by
  induction ks generalizing m with
  | nil => exact ⟨fun _ => ⟨h, rfl⟩, fun hf => nomatch hf⟩
  | cons k ks ih =>
    unfold mapKernel
    rw [wp_bind, wp_kalloc]
    constructor
    · intro hnil
      simp [wp_pure, hnil]
    · intro r rest hl
      simp only [wp_bind, wp_modify]
      have hnext : Early c hi ((m.takeFrame r rest).addKernelTable d k r) :=
        (h.takeFrame hhi hl).congr rfl rfl rfl rfl
      have hlen : ((m.takeFrame r rest).addKernelTable d k r).freelist.length + 1 =
          m.freelist.length := by
        rw [hl]
        rfl
      refine wp_post (ih hnext) ?_
      rintro ok m' ⟨hyes, hno⟩
      refine ⟨fun hok => ?_, fun hok => ?_⟩
      · obtain ⟨he, hl'⟩ := hyes hok
        exact ⟨he, by rw [length_cons]; omega⟩
      · have hshort := hno hok
        rw [length_cons]
        omega

/-- An early allocation takes its frames, or there are too few of them. -/
theorem EarlyAlloc.wp_exec (e : EarlyAlloc) (h : Early c hi m) (hhi : hi ≤ nframes) :
    wp (e.exec c) (fun _ m' => Early c hi m' ∧ m'.freelist.length + e.frames = m.freelist.length)
      (fun _ _ => m.freelist.length < e.frames) m := by
  cases e with
  | apStack =>
    simp only [EarlyAlloc.exec, wp_bind]
    rw [wp_kalloc]
    constructor
    · intro hnil
      simp [wp_throw, hnil, EarlyAlloc.frames]
    · intro r rest hl
      rw [wp_modify]
      refine ⟨(h.takeFrame hhi hl).congr rfl rfl rfl rfl, ?_⟩
      rw [hl]
      rfl
  | kvmalloc =>
    simp only [EarlyAlloc.exec, setupkvm, wp_bind]
    rw [wp_kalloc]
    constructor
    · intro hnil
      simp only [wp_pure, wp_throw, hnil, EarlyAlloc.frames, length_nil]
      omega
    · intro d rest hl
      have hnext : Early c hi ((m.takeFrame d rest).setDir d (PageDir.fresh c)) :=
        (h.takeFrame hhi hl).congr rfl rfl rfl rfl
      have hlen : ((m.takeFrame d rest).setDir d (PageDir.fresh c)).freelist.length + 1 =
          m.freelist.length := by
        rw [hl]
        rfl
      have hmap := wp_mapKernel_early (d := d) kmapSlots hnext hhi
      simp only [wp_bind, wp_modify]
      refine wp_mono hmap ?_ fun _ _ hf => hf.elim
      rintro ok m' ⟨hyes, hno⟩
      rw [wp_ite]
      refine ⟨fun hok => ?_, fun hok => ?_⟩
      · obtain ⟨he, hl'⟩ := hyes hok
        exact ⟨he, show _ + (1 + kmapSlots.length) = _ by omega⟩
      · -- The tables are given back, but `kvmalloc` has nothing to switch to.
        have hshort : m.freelist.length < 1 + kmapSlots.length := by
          have := hno (by simpa using hok)
          omega
        rw [wp_bind]
        exact wp_of_forall (fun _ _ => hshort) fun _ _ => hshort

theorem wp_run_early (early : List EarlyAlloc) (h : Early c hi m) (hhi : hi ≤ nframes) :
    wp (Run.run (EarlyAlloc.exec c) early) (fun _ m' => Early c hi m' ∧
        m'.freelist.length + framesTaken early = m.freelist.length)
      (fun _ _ => m.freelist.length < framesTaken early) m := by
  induction early generalizing m with
  | nil => exact ⟨h, rfl⟩
  | cons e early ih =>
    have hsum : framesTaken (e :: early) = e.frames + framesTaken early := rfl
    simp only [Run.run, wp_bind, wp_pure]
    refine wp_mono (e.wp_exec h hhi) ?_ fun _ _ hshort => by omega
    rintro _ m1 ⟨h1, hlen1⟩
    refine wp_mono (ih h1) ?_ fun _ _ hshort => by omega
    rintro _ m2 ⟨h2, hlen2⟩
    exact ⟨h2, by omega⟩

end Early

/-! ## After `kinit2` -/

/-- The allocator in operation, with a counter that is too high by `k`. -/
structure Counted (c : Config) (k : Nat) (m : Machine) : Prop where
  lock : m.useLock = true
  nodup : m.freelist.Nodup
  free : ∀ f ∈ m.freelist, managed c f ∧ m.referenceCounters f = 0
  counter : m.systemFreePages = m.freelist.length + k

section Counted

theorem Counted.length_le (h : Counted c k m) : m.freelist.length ≤ nframes - c.kend := by
  have hsub : m.freelist.toFinset ⊆ Finset.Ico c.kend nframes := by
    intro f hf
    exact Finset.mem_Ico.mpr (h.free f (mem_toFinset.mp hf)).1
  have hcard := Finset.card_le_card hsub
  rwa [toFinset_card_of_nodup h.nodup, Nat.card_Ico] at hcard

theorem Counted.takeFrame (h : Counted c k m) (hk : k ≤ nframes) (hl : m.freelist = r :: rest) :
    Counted c k (m.takeFrame r rest) := by
  have hnd : r ∉ rest ∧ rest.Nodup := nodup_cons.mp (hl ▸ h.nodup)
  refine ⟨h.lock, hnd.2, ?_, ?_⟩
  · intro f hf
    have hne : f ≠ r := fun he => hnd.1 (he ▸ hf)
    rw [Machine.takeFrame_referenceCounters, update_of_ne hne]
    exact h.free f (by simp [hl, show f ∈ rest from hf])
  · have hlen := h.length_le
    have hc := h.counter
    rw [hl, length_cons] at hlen hc
    have hn : nframes = 57344 := rfl
    rw [Machine.takeFrame_systemFreePages, Machine.takeFrame_freelist]
    omega

/-- `kfree` counts a frame exactly when it puts it on the list. -/
theorem Counted.dropRef (h : Counted c k m) (hk : k ≤ nframes) (hf : managed c f)
    (hpos : 0 < m.referenceCounters f) : Counted c k (m.dropRef f) := by
  have hnew : f ∉ m.freelist := fun hm => absurd (h.free f hm).2 (by omega)
  have hold : ∀ g ∈ m.freelist, managed c g ∧ (m.dropRef f).referenceCounters g = 0 := by
    intro g hg
    have hne : g ≠ f := fun he => hnew (he ▸ hg)
    rw [Machine.dropRef_referenceCounters, update_of_ne hne]
    exact h.free g hg
  by_cases hlast : m.referenceCounters f - 1 = 0
  · have hlist : (m.dropRef f).freelist = f :: m.freelist := by
      rw [Machine.dropRef_freelist, if_pos hlast]
    refine ⟨h.lock, ?_, ?_, ?_⟩
    · rw [hlist]
      exact nodup_cons.mpr ⟨hnew, h.nodup⟩
    · intro g hg
      rw [hlist] at hg
      rcases mem_cons.mp hg with rfl | hg
      · rw [Machine.dropRef_referenceCounters, update_self]
        exact ⟨hf, hlast⟩
      · exact hold g hg
    · have hlen := h.length_le
      have hn : nframes = 57344 := rfl
      rw [hlist, Machine.dropRef_systemFreePages, if_pos hlast, h.counter, length_cons]
      omega
  · have hlist : (m.dropRef f).freelist = m.freelist := by
      rw [Machine.dropRef_freelist, if_neg hlast]
    refine ⟨h.lock, hlist ▸ h.nodup, hlist ▸ hold, ?_⟩
    rw [hlist, Machine.dropRef_systemFreePages, if_neg hlast, h.counter]

/-- The counter of a frame in use changes, and the frame stays in use. -/
theorem Counted.setRef (h : Counted c k m) (hpos : 0 < m.referenceCounters f)
    (hlist : m'.freelist = m.freelist)
    (hrefs : m'.referenceCounters = update m.referenceCounters f n)
    (hcount : m'.systemFreePages = m.systemFreePages) (hlock : m'.useLock = m.useLock) :
    Counted c k m' := by
  refine ⟨hlock ▸ h.lock, hlist ▸ h.nodup, ?_, by rw [hcount, hlist, h.counter]⟩
  intro g hg
  rw [hlist] at hg
  have hne : g ≠ f := by
    rintro rfl
    exact absurd (h.free g hg).2 (by omega)
  rw [hrefs, update_of_ne hne]
  exact h.free g hg

end Counted

/-! ## Calls of the allocator -/

/-- The calls that change the free list and the reference counters. -/
inductive AllocOp where
  | kalloc
  | kfree (f : Nat)
  | incrementRef (f : Nat)
  | decrementRef (f : Nat)
  deriving DecidableEq, Repr

def AllocOp.exec (c : Config) : AllocOp → K (Option Nat)
  | .kalloc => Xv6Paging.kalloc
  | .kfree f => do
    Xv6Paging.kfree c f
    pure none
  | .incrementRef f => do
    Xv6Paging.incrementRef c f
    pure none
  | .decrementRef f => do
    Xv6Paging.decrementRef c f
    pure none

/-- `incrementRef` is called for a frame in use, and `decrementRef` not for its last
    reference. -/
def AllocOp.Called : AllocOp → Machine → Prop
  | .kalloc, _ => True
  | .kfree _, _ => True
  | .incrementRef f, m => 0 < m.referenceCounters f
  | .decrementRef f, m => 1 < m.referenceCounters f

theorem AllocOp.exec_counted (op : AllocOp) (h : Counted c k m) (hk : k ≤ nframes)
    (hcall : op.Called m) :
    wp (op.exec c) (fun _ m' => Counted c k m') anyStop m := by
  cases op with
  | kalloc =>
    simp only [AllocOp.exec]
    rw [wp_kalloc]
    exact ⟨fun _ => h, fun r rest hl => h.takeFrame hk hl⟩
  | kfree f =>
    simp only [AllocOp.exec, wp_bind, wp_pure]
    rw [wp_kfree]
    refine ⟨fun hf => ⟨fun _ => trivial, fun hno => h.dropRef hk hf ?_⟩, fun _ => trivial⟩
    exact Nat.pos_of_ne_zero fun hz => hno ⟨h.lock, hz⟩
  | incrementRef f =>
    simp only [AllocOp.exec, Xv6Paging.incrementRef, wp_bind, wp_pure, wp_ite, wp_modify, wp_throw]
    refine ⟨fun _ => ?_, fun _ => trivial⟩
    exact h.setRef hcall rfl rfl rfl rfl
  | decrementRef f =>
    simp only [AllocOp.exec, Xv6Paging.decrementRef, wp_bind, wp_pure, wp_ite, wp_modify, wp_throw]
    refine ⟨fun _ => ?_, fun _ => trivial⟩
    have hpos : 0 < m.referenceCounters f := by
      have : 1 < m.referenceCounters f := hcall
      omega
    exact h.setRef hpos rfl rfl rfl rfl

/-! ## Boot -/

/-- The ranges of `kinit1` and `kinit2`, for a kernel that ends below 4 MB. -/
theorem pagesIn_low (hk : c.kend ≤ 1024) :
    pagesIn (p2v (c.kend * pgsize)) (p2v fourMB) = 1024 - c.kend := by
  unfold pagesIn pgroundup pgrounddown p2v fourMB pgsize kernbase
  omega

theorem freerange_low (hk : c.kend ≤ 1024) :
    freerange c (p2v (c.kend * pgsize)) (p2v fourMB) = freeFrames c (1024 - c.kend) c.kend := by
  unfold freerange
  congr 1
  · unfold pgroundup p2v fourMB pgsize kernbase
    omega
  · unfold v2p pgroundup p2v pgsize kernbase
    omega

/-- Frames from 4 MB to `PHYSTOP`. -/
def highFrames : Nat := nframes - 1024

theorem highFrames_eq : highFrames = 56320 := rfl

theorem pagesIn_high : pagesIn (p2v fourMB) (p2v phystop) = highFrames := by decide

theorem freerange_high (c : Config) :
    freerange c (p2v fourMB) (p2v phystop) = freeFrames c highFrames 1024 := by
  unfold freerange
  rw [show (p2v phystop - pgroundup (p2v fourMB)) / pgsize = highFrames by decide,
    show v2p (pgroundup (p2v fourMB)) / pgsize = 1024 by decide]

/-- A kernel that does not end below 4 MB stops in `kinit2`: the frame at 4 MB is its own. -/
theorem wp_freerange_high_of_large (hk : ¬ c.kend ≤ 1024) :
    wp (freerange c (p2v fourMB) (p2v phystop)) Q anyStop m := by
  have hsome : highFrames = highFrames - 1 + 1 := by decide
  rw [freerange_high, hsome, freeFrames, wp_bind, wp_kfree]
  exact ⟨fun hman => absurd hman.1 hk, fun _ => trivial⟩

theorem wp_kinit1 (hk : c.kend ≤ 1024) (hb : PowerOn b) :
    wp (kinit1 c (p2v (c.kend * pgsize)) (p2v fourMB)) (fun _ b' => Early c 1024 b'.machine ∧
      b'.machine.freelist.length = 1024 - c.kend ∧ b'.totalSystemPages = 1024 - c.kend) noStop b := by
  obtain ⟨hl, hr, hs⟩ := hb
  have hstart : Early c c.kend { b.machine with useLock := false } := by
    refine ⟨rfl, ?_, ?_, fun f _ => hr f, ?_⟩
    · simp [hl]
    · simp [hl]
    · simp [hl, hs]
  have hn : nframes = 57344 := rfl
  unfold kinit1
  rw [freerange_low hk, pagesIn_low hk]
  simp only [onBoot, wp_bind, wp_onPart, wp_modify]
  refine wp_post (wp_freeFrames_early hstart le_rfl (by omega)) ?_
  rintro _ m ⟨hm, hlen⟩
  rw [show c.kend + (1024 - c.kend) = 1024 by omega] at hm
  rw [hl, length_nil, Nat.zero_add] at hlen
  exact ⟨hm, hlen, trivial⟩

theorem wp_kinit2 (hk : c.kend ≤ 1024) (hb : Early c 1024 b.machine)
    (hlen : b.machine.freelist.length + k = 1024 - c.kend) (htotal : b.totalSystemPages = 1024 - c.kend) :
    wp (kinit2 c (p2v fourMB) (p2v phystop)) (fun _ b' => Counted c k b'.machine ∧
      b'.totalSystemPages = nframes - c.kend) noStop b := by
  have hn : nframes = 57344 := rfl
  have hh := highFrames_eq
  simp only [kinit2, onBoot, wp_bind, wp_onPart, wp_modify]
  rw [freerange_high, pagesIn_high, htotal]
  refine wp_post (wp_freeFrames_early hb hk (by omega)) ?_
  rintro _ m ⟨hm, hlen'⟩
  have hall : (1024 - c.kend + highFrames) % 2 ^ 32 = nframes - c.kend := by omega
  refine ⟨⟨rfl, hm.nodup, ?_, ?_⟩, hall⟩
  · intro f hf
    obtain ⟨h1, h2, h3⟩ := hm.free f hf
    exact ⟨⟨h1, by omega⟩, h3⟩
  · refine hall.trans ?_
    show nframes - c.kend = m.freelist.length + k
    omega

/-- Boot with a kernel that ends below 4 MB: it returns when there are frames enough for
    what is allocated early, with a counter that counts these frames as free. -/
theorem wp_boot {early : List EarlyAlloc} (hk : c.kend ≤ 1024) (hb : PowerOn b) :
    wp (boot c early) (fun _ b' => Counted c (framesTaken early) b'.machine ∧
        b'.totalSystemPages = nframes - c.kend ∧ framesTaken early ≤ 1024)
      (fun _ _ => 1024 - c.kend < framesTaken early) b := by
  have hn : nframes = 57344 := rfl
  unfold boot
  rw [wp_bind]
  refine wp_mono (wp_kinit1 hk hb) ?_ fun _ _ hf => hf.elim
  rintro _ b1 ⟨h1, hlen1, htotal1⟩
  rw [wp_bind, onBoot, wp_onPart]
  refine wp_mono (wp_run_early early h1 (by omega)) ?_ fun _ _ hshort => by omega
  rintro _ m2 ⟨h2, hlen2⟩
  rw [hlen1] at hlen2
  refine wp_mono (wp_kinit2 hk h2 hlen2 htotal1) ?_ fun _ _ hf => hf.elim
  rintro _ b3 ⟨h3, htotal3⟩
  exact ⟨h3, htotal3, by omega⟩

/-- Every boot that returns. -/
theorem boot_counted {early : List EarlyAlloc} (hb : PowerOn b)
    (hboot : boot c early b = .ok () b') : Counted c (framesTaken early) b'.machine ∧
      b'.totalSystemPages = nframes - c.kend ∧ framesTaken early ≤ 1024 := by
  by_cases hk : c.kend ≤ 1024
  · exact (wp_of_ok hboot).mp (wp_boot hk hb)
  · have hstop : wp (boot c early) (fun _ _ => False) anyStop b := by
      unfold boot kinit2
      rw [wp_bind]
      refine wp_of_forall (fun _ b1 => ?_) fun _ _ => trivial
      rw [wp_bind]
      refine wp_of_forall (fun _ b2 => ?_) fun _ _ => trivial
      rw [wp_bind, onBoot, wp_onPart]
      exact wp_freerange_high_of_large hk
    exact ((wp_of_ok hboot).mp hstop).elim

/-- A kernel with enough memory below 4 MB boots. -/
theorem boot_returns {early : List EarlyAlloc} (hb : PowerOn b)
    (hfit : c.kend + framesTaken early ≤ 1024) : ∃ b', boot c early b = .ok () b' := by
  have hwp : wp (boot c early) (fun _ _ => True) noStop b := by
    refine wp_mono (wp_boot (by omega) hb) (fun _ _ _ => trivial) ?_
    intro _ _ hshort
    exact absurd hshort (by omega)
  obtain ⟨_, b', hboot, _⟩ := wp_noStop_iff.mp hwp
  exact ⟨b', hboot⟩

/-! ## The counter -/

/-- After boot and any calls of the allocator, the counter is the number of free frames
    plus the number of frames handed out before `kinit2`. So it is exact, and at most the
    number of all frames, if and only if no frame was. -/
theorem free_counter_exact_iff (c : Config) (early : List EarlyAlloc) (b b' : Boot)
    (ops : List AllocOp) (outs : List (Option Nat)) (m : Machine) (hpower : PowerOn b)
    (hboot : boot c early b = .ok () b')
    (hcalls : Run.Along (AllocOp.exec c) AllocOp.Called ops b'.machine)
    (hrun : Run.run (AllocOp.exec c) ops b'.machine = .ok outs m) :
    m.systemFreePages = m.freelist.length + framesTaken early ∧
    ((m.systemFreePages = m.freelist.length ∧ m.systemFreePages ≤ b'.totalSystemPages) ↔
      framesTaken early = 0) := by
  obtain ⟨hstart, htotal, hsmall⟩ := boot_counted hpower hboot
  have hn : nframes = 57344 := rfl
  have hk : framesTaken early ≤ nframes := by omega
  have hinv : wp (Run.run (AllocOp.exec c) ops) (fun _ m' => Counted c (framesTaken early) m')
      anyStop b'.machine :=
    Run.wp_invariant (fun op _ hs hcall => op.exec_counted hs hk hcall) hstart hcalls
  have hm : Counted c (framesTaken early) m := (wp_of_ok hrun).mp hinv
  have hcount := hm.counter
  have hlen := hm.length_le
  refine ⟨hcount, fun hexact => by omega, fun hzero => ?_⟩
  rw [htotal]
  omega

/-- A machine that has just been switched on. -/
def powerOn : Boot where
  machine := { smallBoot 0 with useLock := false, systemFreePages := 0 }
  totalSystemPages := 0

theorem powerOn_start : PowerOn powerOn := ⟨rfl, fun _ => rfl, rfl⟩

/-- A kernel that ends at 1.5 MB. -/
def bootConfig : Config := { smallConfig 0 with kend := 384 }

/-- Had no frame been taken early, the counter would be exact after boot and a `kalloc`. -/
theorem free_counter_exact_of_none_taken : ∃ b' outs m, boot bootConfig [] powerOn = .ok () b' ∧
    Run.run (AllocOp.exec bootConfig) [.kalloc] b'.machine = .ok outs m ∧
    m.systemFreePages = m.freelist.length ∧ m.systemFreePages ≤ b'.totalSystemPages := by
  obtain ⟨b', hboot⟩ : ∃ b', boot bootConfig [] powerOn = .ok () b' :=
    boot_returns powerOn_start (by decide)
  have hret : wp (Run.run (AllocOp.exec bootConfig) [.kalloc]) (fun _ _ => True) noStop b'.machine := by
    simp only [Run.run, AllocOp.exec, wp_bind, wp_pure]
    exact (wp_kalloc _).mpr ⟨fun _ => trivial, fun _ _ _ => trivial⟩
  obtain ⟨outs, m, hrun, _⟩ := wp_noStop_iff.mp hret
  have hcalls : Run.Along (AllocOp.exec bootConfig) AllocOp.Called [.kalloc] b'.machine :=
    Run.Along.of_final trivial trivial
  have hexact := free_counter_exact_iff bootConfig [] powerOn b' [.kalloc] outs m powerOn_start hboot
    hcalls hrun
  exact ⟨b', outs, m, hboot, hrun, hexact.2.mpr rfl⟩

/-- With two processors `main` has handed out 66 frames when `kinit2` counts all frames as
    free. -/
theorem free_counter_drifts : ∃ b', boot bootConfig (mainEarly 2) powerOn = .ok () b' ∧
    b'.machine.systemFreePages = b'.machine.freelist.length + 66 := by
  obtain ⟨b', hboot⟩ : ∃ b', boot bootConfig (mainEarly 2) powerOn = .ok () b' :=
    boot_returns powerOn_start (by decide)
  exact ⟨b', hboot, (boot_counted powerOn_start hboot).1.counter⟩

end Xv6Paging
