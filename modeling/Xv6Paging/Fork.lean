import Xv6Paging.CopyFree
import Xv6Paging.DeepCopy
import Xv6Paging.RefCount

/-! # Making a child (`allocproc` and `fork` of `proc.c`)

    `fork` takes a slot of the process table, a frame for the kernel stack and an address space for
    the child. When frames run out on the way, what has been taken goes back: the slot, the stack
    and everything that `copyuvm` took. One way out gives nothing back: at a page in the swap file
    for which no page table can be allocated, `copyuvm` follows the null pointer.
-/

namespace Xv6Paging

open List Wp Function

/-! ## The code -/

/-- A slot of `ptable` for the process that `nextpid` names. -/
def Machine.takeSlot (m : Machine) : Machine :=
  { m.setProc m.nextpid { m.proc m.nextpid with used := true } with
    nextpid := m.nextpid + 1, slots := m.slots + 1 }

/-- The slot of process `q` is `UNUSED` again. -/
def Machine.leaveSlot (m : Machine) (q : Nat) : Machine :=
  { m.setProc q { m.proc q with used := false } with slots := m.slots - 1 }

/-- A new process and its kernel stack; `none` is the null pointer. -/
def allocproc (c : Config) : K (Option (Nat × Nat)) := do
  let m ← get
  let q := m.nextpid
  if m.slots < nproc then
    set m.takeSlot
    let kstack ← kalloc
    modifyProc q fun pr => { pr with kstack := kstack }
    match kstack with
    | none =>
      modify fun m => m.leaveSlot q
      pure none
    | some f =>
      modify fun m => m.setHeld f true
      if c.selection ≠ .NONE ∧ 2 < q then
        modifyProc q (Proc.initMetaData c)
        pure (some (q, f))
      else
        pure (some (q, f))
  else
    pure none

/-- The pid of the child, `none` for `-1`. Open files are copied elsewhere. -/
def fork (c : Config) (p : Nat) : K (Option Nat) := do
  match ← allocproc c with
  | none => pure none
  | some (q, kstack) =>
    let pr ← getProc p
    let d ← copyuvm c p pr.pgdir pr.sz
    modifyProc q fun np => { np with pgdir := d.getD 0 }
    match d with
    | none =>
      kfreeHeld c kstack
      modifyProc q fun np => { np with kstack := none }
      modify fun m => m.leaveSlot q
      pure none
    | some _ =>
      modifyProc q fun np => { np with sz := pr.sz }
      if c.selection ≠ .NONE ∧ 2 < p then
        deepCopyProc p q
      else
        pure ()
      modifyProc q fun np => { np with numOfPageFaults := 0, numOfPageOuts := 0 }
      pure (some q)

/-! ## A fork that fails -/

/-- Nothing that anybody could notice has changed: the child's slot is not in use, the frames are
    as they were, and process `p` sees the same bytes. -/
structure Harmless (p : Nat) (m m' : Machine) : Prop where
  slots : m'.slots = m.slots
  unused : (m'.proc m.nextpid).used = false
  refs : m'.referenceCounters = m.referenceCounters
  free : m'.freelist.Perm m.freelist
  dir : (m.dirs (m.proc p).pgdir).Shared (m'.dirs (m.proc p).pgdir)
  view : ∀ a < (m.proc p).sz, m'.view p a = m.view p a

/-- The frames that `fork` of a process of size `sz` needs: a kernel stack, what `setupkvm` takes
    and the page tables. -/
def forkFrames (sz : Nat) : Nat := 1 + setupkvmFrames + (npages sz + (nptentries - 1)) / nptentries

/-- Behind the kernel stack `copyuvm` would be stuck at a page in the swap file. -/
def ForkStuck (p : Nat) (m : Machine) : Prop :=
  ∃ r, m.freelist.length = 1 + setupkvmFrames + r ∧ nptentries * r < npages (m.proc p).sz ∧
    (m.pte p (nptentries * r)).p = false

section Fork

variable {c : Config} {p q f d : Nat} {m m1 m2 m' : Machine} {rest : List Nat}

theorem Harmless.of_mem (hcopy : Copyable c (m.proc p).pgdir (m.proc p).sz m)
    (hslots : m'.slots = m.slots) (hunused : (m'.proc m.nextpid).used = false)
    (hrefs : m'.referenceCounters = m.referenceCounters) (hfree : m'.freelist.Perm m.freelist)
    (hdir : (m.dirs (m.proc p).pgdir).Shared (m'.dirs (m.proc p).pgdir))
    (hproc : m'.proc p = m.proc p) (hswap : m'.swap = m.swap)
    (hmem : ∀ f, managed c f → m.referenceCounters f ≠ 0 → m'.mem f = m.mem f) :
    Harmless p m m' := by
  refine ⟨hslots, hunused, hrefs, hfree, hdir, fun a ha => ?_⟩
  have hlt : pgsize * vpn a < (m.proc p).sz := (Nat.mul_div_le a pgsize).trans_lt ha
  have hp : (m'.pte p (vpn a)).p = (m.pte p (vpn a)).p := by
    rw [Machine.pte, hproc]
    exact hdir.p _
  have hpg : (m'.pte p (vpn a)).pg = (m.pte p (vpn a)).pg := by
    rw [Machine.pte, hproc]
    exact hdir.pg _
  have hframe : (m'.pte p (vpn a)).frame = (m.pte p (vpn a)).frame := by
    rw [Machine.pte, hproc]
    exact hdir.frame _
  simp only [Machine.view, hp, hpg, hframe, hproc, hswap]
  by_cases hpres : (m.pte p (vpn a)).p = true
  · obtain ⟨hman, hne⟩ := hcopy.frame _ hlt hpres
    rw [if_pos hpres, if_pos hpres]
    exact congrArg (fun pg : Page => pg.byte (a % pgsize)) (hmem _ hman hne)
  · rw [if_neg hpres, if_neg hpres]

/-- The machine when `allocproc` has returned a process with kernel stack `f`. -/
structure Embryo (m : Machine) (f : Nat) (rest : List Nat) (m1 : Machine) : Prop where
  rest : m1 = { m.takeFrame f rest with
    proc := m1.proc, nextpid := m.nextpid + 1, slots := m.slots + 1, kheld := m1.kheld }
  others : ∀ r, r ≠ m.nextpid → m1.proc r = m.proc r

theorem wp_allocproc (hfull : ¬ m.slots < nproc → Q none m) (hnone : m.freelist = [] → ∀ m', m' = { m with
      proc := m'.proc, nextpid := m.nextpid + 1, slots := m.slots } →
      (m'.proc m.nextpid).used = false → (∀ r, r ≠ m.nextpid → m'.proc r = m.proc r) → Q none m')
    (hsome : ∀ f rest m1, m.slots < nproc → m.freelist = f :: rest → Embryo m f rest m1 →
      Q (some (m.nextpid, f)) m1) : wp (allocproc c) Q E m := by
  simp only [allocproc, wp_bind, wp_get, wp_ite, wp_set, wp_pure]
  refine ⟨fun hslot => ?_, hfull⟩
  rw [wp_kalloc]
  refine ⟨fun hnil => ?_, fun f rest hf => ?_⟩
  · refine hnone hnil _ ?_ ?_ fun r hr => ?_
    · simp [Machine.takeSlot, Machine.leaveSlot, Machine.setProc]
    · simp [Machine.leaveSlot]
    · simp [Machine.takeSlot, Machine.leaveSlot, hr]
  · simp only [modifyProc, wp_bind, wp_modify, wp_ite, wp_pure]
    refine ⟨fun _ => ?_, fun _ => ?_⟩
    · refine hsome f rest _ hslot hf ⟨rfl, fun r hr => ?_⟩
      simp [Machine.takeSlot, hr]
    · refine hsome f rest _ hslot hf ⟨rfl, fun r hr => ?_⟩
      simp [Machine.takeSlot, hr]

section Embryo

variable (h : Embryo m f rest m1) (hf : m.freelist = f :: rest)

include h hf

theorem Embryo.consistent (h0 : Consistent c m) : Consistent c m1 := by
  have hnd := h0.nodup
  rw [hf, nodup_cons] at hnd
  rw [h.rest]
  refine ⟨hnd.2, fun {g} => ?_⟩
  show g ∈ rest ↔ managed c g ∧ update m.referenceCounters f 1 g = 0
  by_cases hg : g = f
  · subst hg
    simp [hnd.1]
  · rw [update_of_ne hg, ← h0.free_iff, hf, mem_cons, or_iff_right hg]

theorem Embryo.copyable {D sz : Nat} (hcopy : Copyable c D sz m) : Copyable c D sz m1 := by
  rw [h.rest]
  refine ⟨hcopy.live, hcopy.le, hcopy.mapped, fun v hv hp => ⟨(hcopy.frame v hv hp).1, ?_⟩,
    fun hD => hcopy.held (hf ▸ mem_cons_of_mem f hD)⟩
  show update m.referenceCounters f 1 ((m.dirs D).pte v).frame ≠ 0
  by_cases hg : ((m.dirs D).pte v).frame = f
  · rw [hg, update_self]
    decide
  · rw [update_of_ne hg]
    exact (hcopy.frame v hv hp).2

/-- Behind the kernel stack. -/
theorem Embryo.stuck_iff : Stuck (m.proc p).pgdir (m.proc p).sz m1 ↔ ForkStuck p m := by
  rw [Stuck, h.rest, ForkStuck, hf]
  refine exists_congr fun r => and_congr ?_ Iff.rfl
  show rest.length = setupkvmFrames + r ↔ rest.length + 1 = 1 + setupkvmFrames + r
  omega

/-- `copyuvm` has given back what it took, and the kernel stack and the slot follow. -/
theorem Embryo.harmless (h0 : Consistent c m)
    (hcopy : Copyable c (m.proc p).pgdir (m.proc p).sz m) (hp : p ≠ m.nextpid)
    (hret : Returned c d (m.proc p).pgdir m1 m2) (hslots : m'.slots = m2.slots - 1)
    (hdrop : m' = { m2.dropRef f with proc := m'.proc, slots := m'.slots, kheld := m'.kheld })
    (hothers : ∀ r, r ≠ m.nextpid → m'.proc r = m2.proc r)
    (hunused : (m'.proc m.nextpid).used = false) : Harmless p m m' := by
  have hzero : m.referenceCounters f = 0 := (h0.free_iff.mp (hf ▸ mem_cons_self)).2
  have hrefs2 : m2.referenceCounters = update m.referenceCounters f 1 := by
    rw [hret.refs, h.rest]
    rfl
  have hone : m2.referenceCounters f - 1 = 0 := by rw [hrefs2, update_self]
  have hproc : m'.proc p = m.proc p := by
    rw [hothers p hp, hret.rest]
    exact h.others p hp
  refine .of_mem hcopy ?_ hunused ?_ ?_ ?_ hproc ?_ fun g hman hne => ?_
  · rw [hslots, hret.rest, h.rest]
    exact Nat.add_sub_cancel _ _
  · rw [hdrop]
    show update m2.referenceCounters f (m2.referenceCounters f - 1) = m.referenceCounters
    rw [hone, hrefs2, update_idem, ← hzero, update_eq_self]
  · rw [hdrop, hf]
    show (if m2.referenceCounters f - 1 = 0 then f :: m2.freelist else m2.freelist).Perm (f :: rest)
    rw [if_pos hone]
    refine List.Perm.cons f (hret.free.trans ?_)
    rw [h.rest]
    exact .refl rest
  · have hdirs := hret.parent
    rw [h.rest] at hdirs
    rw [hdrop]
    exact hdirs
  · rw [hdrop, Machine.dropRef, hret.rest, h.rest]
    rfl
  · have hgf : g ≠ f := fun heq => hne (heq ▸ hzero)
    rw [hdrop]
    show (if m2.referenceCounters f - 1 = 0 then update m2.mem f Page.freed else m2.mem) g = m.mem g
    rw [if_pos hone, update_of_ne hgf, hret.mem g hman, h.rest]
    · rfl
    · rw [h.rest]
      show update m.referenceCounters f 1 g ≠ 0
      rwa [update_of_ne hgf]

end Embryo

/-- `fork` without enough frames fails and has given everything back, or is stuck. -/
theorem fork_cases (hcopy : Copyable c (m.proc p).pgdir (m.proc p).sz m) (h0 : Consistent c m)
    (hkend : 0 < c.kend) (hused : (m.proc p).used = true) (hnew : (m.proc m.nextpid).used = false)
    (hfail : nproc ≤ m.slots ∨ m.freelist.length < forkFrames (m.proc p).sz) :
    wp (fork c p) (fun r m' => ¬ (m.slots < nproc ∧ ForkStuck p m) ∧ r = none ∧ Harmless p m m')
      (fun _ _ => m.slots < nproc ∧ ForkStuck p m) m := by
  have hp : p ≠ m.nextpid := by
    rintro rfl
    rw [hnew] at hused
    cases hused
  rw [fork, wp_bind]
  refine wp_allocproc (fun hfull => ?_) (fun hnil m' hm' hunused hothers => ?_) fun f rest m1 hslot hf h1 => ?_
  · rw [wp_pure]
    exact ⟨fun h => hfull h.1, rfl, .of_mem hcopy rfl hnew rfl (.refl _) (.refl _) rfl rfl
      fun _ _ _ => rfl⟩
  · rw [wp_pure]
    refine ⟨?_, rfl, ?_⟩
    · rintro ⟨-, r, hr, -⟩
      rw [hnil, length_nil] at hr
      omega
    · refine .of_mem hcopy (by rw [hm']) hunused (by rw [hm']) (by rw [hm']) ?_ (hothers p hp)
        (by rw [hm']) fun _ _ _ => by rw [hm']
      rw [hm']
      exact .refl _
  · have hproc := h1.others p hp
    have hstuck := h1.stuck_iff (p := p) hf
    rw [wp_bind, wp_getProc, wp_bind, hproc]
    have hpgdir : (m1.proc p).pgdir ∉ m1.freelist := by
      rw [hproc]
      exact (h1.copyable hf hcopy).held
    refine wp_mono (copyuvm_cases (h1.copyable hf hcopy) (h1.consistent hf h0) hkend hpgdir) ?_ ?_
    · rintro r m2 ⟨hsome, hnone⟩
      cases r with
      | some d =>
        obtain ⟨-, -, -, n, hn, hle⟩ := hsome d rfl
        have hlen : m.freelist.length = m1.freelist.length + 1 := by
          rw [hf, h1.rest]
          rfl
        simp only [forkFrames, nptentries] at hfail hle
        omega
      | none =>
        obtain ⟨⟨d, hret⟩, hno⟩ := hnone rfl
        rw [hstuck] at hno
        have hman : managed c f := (h0.free_iff.mp (hf ▸ mem_cons_self)).1
        have hone : m2.referenceCounters f = 1 := by
          rw [hret.refs, h1.rest]
          exact update_self ..
        simp only [modifyProc, kfreeHeld, wp_bind, wp_modify]
        rw [wp_kfree_of_pos _ hman (by simp [hone])]
        refine ⟨fun h => hno h.2, rfl, h1.harmless hf h0 hcopy hp hret rfl rfl (fun r hr => ?_) ?_⟩
        · simp [Machine.leaveSlot, hr]
        · simp [Machine.leaveSlot]
    · rintro e m2 ⟨-, hst⟩
      exact ⟨hslot, hstuck.mp hst⟩

/-- A `fork` that runs out of frames, at whatever call of `kalloc`, returns `-1` and is harmless
    exactly if the frames do not run out at a page in the swap file. -/
theorem fork_harmless_iff (hcopy : Copyable c (m.proc p).pgdir (m.proc p).sz m)
    (h0 : Consistent c m) (hkend : 0 < c.kend) (hused : (m.proc p).used = true)
    (hnew : (m.proc m.nextpid).used = false)
    (hfail : nproc ≤ m.slots ∨ m.freelist.length < forkFrames (m.proc p).sz) :
    wp (fork c p) (fun r m' => r = none ∧ Harmless p m m') noStop m ↔
      ¬ (m.slots < nproc ∧ ForkStuck p m) := by
  have hcases := fork_cases hcopy h0 hkend hused hnew hfail
  constructor
  · intro hwp
    exact (wp_noStop_iff.mp (wp_and hwp hcases)).elim fun _ h => h.elim fun _ h => h.2.2.1
  · intro hno
    exact wp_mono hcases (fun _ _ h => h.2) (fun _ _ h => hno h)

end Fork

/-! ## The sample process -/

/-- The sample process on a machine with `n` free frames and all others in use; its page 0 is
    in the swap file. -/
def forkSample (n : Nat) : Machine :=
  { sample (sampleConfig .SCFIFO) n with
    referenceCounters := fun f => if 2000 ≤ f ∧ f < 2000 + n then 0 else 1
    proc := update (fun _ => sampleProc) 4 { sampleProc with used := false }
    dirs := fun _ => ⟨true, fun k => if k = 0 then some 901 else none, fun v =>
      if v = 0 then (samplePte (sampleConfig .SCFIFO) 0).pagedOut
      else samplePte (sampleConfig .SCFIFO) v⟩ }

theorem forkSample_consistent (hn : 2000 + n ≤ nframes) : Consistent (sampleConfig .SCFIFO) (forkSample n) := by
  refine ⟨nodup_range', fun {f} => ?_⟩
  simp only [forkSample, sample, mem_range'_1, managed, sampleConfig] at *
  split <;> omega

theorem forkSample_copyable (n : Nat) :
    Copyable (sampleConfig .SCFIFO) 900 (3 * pgsize) (forkSample n) := by
  have hlt : ∀ v, pgsize * v < 3 * pgsize → v = 0 ∨ v = 1 ∨ v = 2 := by
    intro v hv
    simp only [pgsize] at hv
    omega
  refine ⟨rfl, by decide, fun v hv => ?_, fun v hv hp => ?_, ?_⟩
  · rcases hlt v hv with rfl | rfl | rfl <;>
      simp [forkSample, samplePte, nptentries, Pte.pagedOut]
  · rcases hlt v hv with rfl | rfl | rfl <;> revert hp <;>
      simp [forkSample, samplePte, managed, sampleConfig, nframes, Pte.pagedOut]
  · simp [forkSample, sample]

/-- Ten free frames are not enough for a page directory. -/
theorem fork_harmless_iff_tenFrames :
    wp (fork (sampleConfig .SCFIFO) 3) (fun r m' => r = none ∧ Harmless 3 (forkSample 10) m')
      noStop (forkSample 10) ↔
      ¬ ((forkSample 10).slots < nproc ∧ ForkStuck 3 (forkSample 10)) :=
  fork_harmless_iff (forkSample_copyable 10) (forkSample_consistent (by decide)) (by decide)
    rfl rfl (.inr (by decide))

/-- With 66 free frames there is none left for the first page table, which page 0 needs: the null
    pointer is followed. -/
theorem fork_follows_null :
    Copyable (sampleConfig .SCFIFO) 900 (3 * pgsize) (forkSample 66) ∧
    Consistent (sampleConfig .SCFIFO) (forkSample 66) ∧
    (forkSample 66).freelist.length < forkFrames (3 * pgsize) ∧
    Run.stopOf (fork (sampleConfig .SCFIFO) 3) (forkSample 66) = some .nullDeref :=
  ⟨forkSample_copyable 66, forkSample_consistent (by decide), by decide, by decide +kernel⟩

end Xv6Paging
