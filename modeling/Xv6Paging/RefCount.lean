import Xv6Paging.FrameDirs
import Xv6Paging.Lib.Run

/-! # Reference counters over whole runs

    The memory operations of any number of processes, in any order, from the state
    that `kinit2` leaves. As long as no write fault on a shared page finds memory
    exhausted or an address of the kernel half, each reference counter is the
    number of PTEs and kernel uses of its frame, and `kfree` never finds a `0`.
-/

namespace Xv6Paging

open List Wp Holders Function

/-! ## What the counters should say -/

/-- Directories and user pages. -/
def userPtes : Finset (Nat × Nat) := Finset.range nframes ×ˢ Finset.range nuserPages

theorem mem_userPtes : x ∈ userPtes ↔ x.1 < nframes ∧ x.2 < nuserPages := by
  simp [userPtes]

attribute [irreducible] userPtes

/-- Present user PTEs that map frame `f`, over all directories. -/
def Machine.userMaps (m : Machine) (f : Nat) : Nat :=
  (userPtes.filter fun x => (m.dirs x.1).maps x.2 = true ∧ ((m.dirs x.1).pte x.2).frame = f).card

/-- The kernel holds `f` as a directory, a page table, a kernel stack or a pipe. -/
def Machine.kernelHolds (m : Machine) (f : Nat) : Prop :=
  (m.dirs f).live = true ∨
  (∃ d k, (m.dirs d).live = true ∧ k < npdentries ∧ (m.dirs d).table k = some f) ∨
  m.kheld f = true

open Classical in
/-- Counters count, and the free list has exactly the frames with count `0`. -/
structure FramesOk (c : Config) (m : Machine) : Prop where
  count : ∀ f, managed c f →
    m.referenceCounters f = m.userMaps f + if m.kernelHolds f then 1 else 0
  free : ∀ f, managed c f → m.freelist.count f = if m.referenceCounters f = 0 then 1 else 0

section Holders

variable {c : Config} {m : Machine} {f : Nat}

theorem target_eq_pte (hkernel : ¬ m.kernelHolds f) (hu : u ∈ uses) (ht : m.target u = some f) :
    ∃ d v, u = .pte d v ∧ (m.dirs d).maps v = true ∧ ((m.dirs d).pte v).frame = f := by
  cases u with
  | pte d v =>
    simp only [Machine.target] at ht
    split at ht
    · exact ⟨d, v, rfl, by assumption, Option.some.inj ht⟩
    · exact absurd ht (by simp)
  | dir d =>
    simp only [Machine.target] at ht
    split at ht
    · cases ht
      exact absurd (.inl (by assumption)) hkernel
    · exact absurd ht (by simp)
  | table d k =>
    simp only [Machine.target] at ht
    split at ht
    · exact absurd (.inr (.inl ⟨d, k, by assumption, (mem_uses_table.mp hu).2, ht⟩)) hkernel
    · exact absurd ht (by simp)
  | held g =>
    simp only [Machine.target] at ht
    split at ht
    · cases ht
      exact absurd (.inr (.inr (by assumption))) hkernel
    · exact absurd ht (by simp)

/-- Without a kernel use the holders are the PTEs. -/
theorem holders_eq_userMaps (hkernel : ¬ m.kernelHolds f) :
    holders uses m.target f = m.userMaps f := by
  have hinj : Function.Injective fun x : Nat × Nat => Use.pte x.1 x.2 := by
    rintro ⟨d, v⟩ ⟨e, w⟩ heq
    cases heq
    rfl
  unfold holders Machine.userMaps
  rw [← Finset.card_image_of_injective _ hinj]
  congr 1
  ext u
  simp only [Finset.mem_filter, Finset.mem_image, Prod.exists, mem_userPtes]
  constructor
  · rintro ⟨hu, ht⟩
    obtain ⟨d, v, rfl, hmaps, hf⟩ := target_eq_pte hkernel hu ht
    exact ⟨d, v, ⟨mem_uses_pte.mp hu, hmaps, hf⟩, rfl⟩
  · rintro ⟨d, v, ⟨hlt, hmaps, hf⟩, rfl⟩
    exact ⟨mem_uses_pte.mpr hlt, by rw [target_pte_of_maps hmaps, hf]⟩

/-- A kernel use is a place that no other place shares its frame with. -/
theorem RefInv.kernel_use (h : RefInv c m []) (hf : managed c f) (hkernel : m.kernelHolds f) :
    ∃ u ∈ uses, u.kernel ∧ m.target u = some f := by
  rcases hkernel with hlive | ⟨d, k, hlive, hk, ht⟩ | hheld
  · exact ⟨.dir f, mem_uses_dir.mpr hf.2, trivial, if_pos hlive⟩
  · exact ⟨.table d k, mem_uses_table.mpr ⟨h.live_lt hlive, hk⟩, trivial, by simp [Machine.target, hlive, ht]⟩
  · exact ⟨.held f, mem_uses_held.mpr hf.2, trivial, if_pos hheld⟩

theorem RefInv.framesOk (h : RefInv c m []) : FramesOk c m where
  count := by
    intro f hf
    have hcount := h.balanced.count hf
    rw [count_nil, Nat.add_zero] at hcount
    by_cases hkernel : m.kernelHolds f
    · -- The kernel is the only holder, so no PTE maps the frame.
      obtain ⟨u, hu, honly, ht⟩ := h.kernel_use hf hkernel
      have hone := h.balanced.exclusive hu honly ht
      have hzero : m.userMaps f = 0 := by
        unfold Machine.userMaps
        rw [Finset.card_eq_zero, Finset.filter_eq_empty_iff]
        rintro ⟨d, v⟩ hmem ⟨hmaps, hframe⟩
        have hpte : Use.pte d v ∈ uses := mem_uses_pte.mpr (mem_userPtes.mp hmem)
        have hne : Use.pte d v ≠ u := by
          rintro rfl
          exact honly
        have htwo := two_le_holders hpte hu hne (by rw [target_pte_of_maps hmaps, hframe]) ht
        omega
      rw [if_pos hkernel, hone, hzero]
    · rw [if_neg hkernel, Nat.add_zero, hcount, holders_eq_userMaps hkernel]
  free := by
    intro f hf
    have hiff := h.balanced.free_iff (f := f)
    by_cases hzero : m.referenceCounters f = 0
    · rw [if_pos hzero]
      exact count_eq_one_of_mem h.balanced.nodup (hiff.mpr ⟨hf, hzero⟩)
    · rw [if_neg hzero]
      exact count_eq_zero.mpr fun hin => hzero (hiff.mp hin).2

end Holders

/-! ## The invariant of the system -/

/-- Counters are right, and so are the paging data of every process in use other
    than `who`. -/
structure Sound (c : Config) (who : Nat → Prop) (F : Flight) : Prop where
  refs : RefInv c F.machine F.frames
  tidy : ∀ q, ¬ who q → (F.machine.proc q).used = true → F.machine.Tidy c q

section Sound

variable {c : Config} {who : Nat → Prop} {gone : Nat → Nat → Prop} {m : Machine} {fl : List Nat}

/-- A directory that changes is not the one of a process, or it keeps what counts. -/
theorem Machine.Tidy.setDir {dir : PageDir} (h : m.Tidy c q)
    (hd : (m.proc q).pgdir = d → (m.proc q).Tidy c dir) : (m.setDir d dir).Tidy c q := by
  unfold Machine.Tidy
  rw [Machine.setDir_proc, Machine.setDir_dirs]
  by_cases he : (m.proc q).pgdir = d
  · rw [he, update_self]
    exact hd he
  · rw [update_of_ne he]
    exact h

theorem Event.tidy (he : Event c who gone F F') (h : Sound c who F) :
    ∀ q, ¬ who q → (F'.machine.proc q).used = true → F'.machine.Tidy c q := by
  intro q hq hused
  cases he with
  | neutral hn =>
    rw [hn.used] at hused
    have ht := h.tidy q hq hused
    unfold Machine.Tidy
    rw [hn.proc q hq]
    refine Proc.Tidy.of_dir ht (fun hl => by rw [hn.live]; exact hl) (hn.pte _ _) ?_
    intro k hk
    rwa [hn.table]
  | take hf => exact h.tidy q hq hused
  | drop => exact h.tidy q hq hused
  | more hv hmaps => exact h.tidy q hq hused
  | map hv hl ht hnp hx => exact (h.tidy q hq hused).setPte hv
  | unmap hv hmaps hgone hx => exact (h.tidy q hq hused).setPte hv
  | copy hv hmaps hf hx hu h1 => exact Machine.Tidy.setPte (h.tidy q hq hused) hv
  | table hf hl hnone hk => exact (Widened.addTable hnone hk).tidy (h.tidy q hq hused)
  | kernelTable hf hl hnone hlow hk =>
    refine Machine.Tidy.setDir (h.tidy q hq hused) fun hd => ?_
    subst hd
    refine Proc.Tidy.of_dir (h.tidy q hq hused) id (.refl _) ?_
    intro j hj
    simp only [update_apply, ne_eq]
    split
    · simp
    · exact hj
  | newDir hf =>
    -- The new directory was free, those of processes are live.
    refine Machine.Tidy.setDir (h.tidy q hq hused) fun hd => ?_
    have hdead := h.refs.not_live_of_free (show _ ∈ _ by rw [hf]; exact mem_cons_self)
    rw [← hd] at hdead
    exact absurd ((h.tidy q hq hused).live.symm.trans hdead) (by decide)
  | delTable hl hk hlt hclear hown =>
    exact Machine.Tidy.setDir (h.tidy q hq hused) fun hd => absurd hd (hown q hused)
  | killDir hl hnone hown =>
    exact Machine.Tidy.setDir (h.tidy q hq hused) fun hd => absurd hd (hown q hused)

/-- The invariant is one that every event keeps. -/
theorem sound_closed (c : Config) (who : Nat → Prop) :
    Closed c who (fun _ _ => True) (Sound c who) (fun e _ => NotRefZero e) where
  step := fun he h => ⟨he.refInv h.refs, he.tidy h⟩
  stop := id
  counted := by
    intro m f fl h hzero
    have hpos : 0 < m.referenceCounters f := h.refs.balanced.refs_pos_of_flight (by simp)
    omega

end Sound

/-- Between operations: nothing in flight, and every process is tidy. -/
structure Machine.Sound (c : Config) (m : Machine) : Prop where
  refs : RefInv c m []
  global : m.globalPgdir = none
  tidy : ∀ q, (m.proc q).used = true → m.Tidy c q

section Sound

variable {c : Config} {m : Machine} {p : Nat}

theorem Machine.Sound.nobody (h : m.Sound c) : Xv6Paging.Sound c nobody ⟨m, []⟩ :=
  ⟨h.refs, fun q _ => h.tidy q⟩

theorem Machine.Sound.running (h : m.Sound c) (hused : (m.proc p).used = true) :
    Xv6Paging.Sound c (· = p) ⟨m, []⟩ ∧ Own c p m :=
  ⟨⟨h.refs, fun q _ => h.tidy q⟩, h.global, h.tidy p hused⟩

theorem Sound.machine (h : Sound c (· = p) ⟨m, []⟩) (ho : Own c p m) : m.Sound c := by
  refine ⟨h.refs, ho.global, fun q hused => ?_⟩
  by_cases hq : q = p
  · rw [hq]
    exact ho.tidy
  · exact h.tidy q hq hused

theorem Machine.Sound.unowned (h : m.Sound c) : ∀ d ∈ m.freelist, Unowned m d := by
  intro d hd q hused heq
  have hdead := h.refs.not_live_of_free hd
  rw [← heq, (h.tidy q hused).live] at hdead
  exact absurd hdead (by decide)

end Sound

/-! ## Operations -/

@[simps -fullyApplied]
def Machine.setHeld (m : Machine) (f : Nat) (b : Bool) : Machine :=
  { m with kheld := update m.kheld f b }

/-- `kalloc` for a kernel stack or a pipe. -/
def kallocHeld : K Unit := do
  match ← kalloc with
  | none => pure ()
  | some f => modify fun m => m.setHeld f true

/-- `kfree` of a kernel stack or a pipe. -/
def kfreeHeld (c : Config) (f : Nat) : K Unit := do
  modify fun m => m.setHeld f false
  kfree c f

/-- Memory operations; `p` is the running process. -/
inductive MemOp where
  | hold
  | release (f : Nat)
  /-- `fork`, `exec` and `wait` rewrite an entry of the process table. -/
  | assign (q : Nat) (pr : Proc)
  | setupkvm (p : Nat)
  | copyuvm (p : Nat)
  | allocuvm (p d oldsz newsz : Nat)
  | deallocuvm (p d oldsz newsz : Nat)
  | moveToDisk (p i : Nat)
  | getPageFromFile (p i : Nat)
  | fault (p va : Nat) (user : Bool)
  | freevm (p d : Nat)

def MemOp.exec (c : Config) : MemOp → K Unit
  | .hold => kallocHeld
  | .release f => kfreeHeld c f
  | .assign q pr => modify fun m => m.setProc q pr
  | .setupkvm p => do
    let _ ← Xv6Paging.setupkvm c p
    pure ()
  | .copyuvm p => do
    let pr ← getProc p
    let _ ← Xv6Paging.copyuvm c p pr.pgdir pr.sz
    pure ()
  | .allocuvm p d oldsz newsz => do
    let _ ← Xv6Paging.allocuvm c p d oldsz newsz
    pure ()
  | .deallocuvm p d oldsz newsz => do
    let _ ← Xv6Paging.deallocuvm c p d oldsz newsz
    pure ()
  | .moveToDisk p i => do
    let _ ← Xv6Paging.moveToDisk c p i
    pure ()
  | .getPageFromFile p i => do
    let _ ← Xv6Paging.getPageFromFile p i
    pure ()
  | .fault p va user => trap c p va user
  | .freevm p d => Xv6Paging.freevm c p d

/-- What the callers of an operation see to: the running process is in use, only
    held frames are released, a process that enters use has its own pages in its
    paging data, sizes do not exceed `KERNBASE`, only pages in the swap file are
    read back, and a directory is freed when no process has it any more. -/
def MemOp.Promised (c : Config) (m : Machine) : MemOp → Prop
  | .hold => True
  | .release f => m.kheld f = true
  | .assign _ pr => pr.used = true → pr.Tidy c (m.dirs pr.pgdir)
  | .setupkvm _ => True
  | .copyuvm p => (m.proc p).used = true
  | .allocuvm p _ _ _ => (m.proc p).used = true
  | .deallocuvm p _ oldsz _ => (m.proc p).used = true ∧ oldsz ≤ kernbase
  | .moveToDisk p _ => (m.proc p).used = true
  | .getPageFromFile p i => (m.proc p).used = true ∧ i < maxTotalPages ∧
      ((m.proc p).pagesMetaData i).page.state = .inDisk
  | .fault p _ _ => (m.proc p).used = true
  | .freevm p d => (m.proc p).pgdir ≠ d ∧ Unowned m d

/-- A write fault on a shared page finds a user page and a free frame. -/
def MemOp.Served (m : Machine) : MemOp → Prop
  | .fault p va _ => CopyOk m p va
  | _ => True

/-! ## Each operation keeps the invariant -/

section Step

variable {c : Config} {m : Machine}

theorem target_setHeld_ne (hw : w ≠ .held f) : (m.setHeld f b).target w = m.target w := by
  cases w with
  | held g =>
    have hg : g ≠ f := fun hg => hw (by rw [hg])
    simp [Machine.target, update_of_ne hg]
  | pte d v => rfl
  | dir d => rfl
  | table d k => rfl

theorem kallocHeld_sound (h : m.Sound c) :
    wp kallocHeld (fun _ m' => m'.Sound c) (fun e _ => NotRefZero e) m := by
  rw [kallocHeld, wp_bind, wp_kalloc]
  refine ⟨fun _ => h, fun f rest hf => ?_⟩
  show ((m.takeFrame f rest).setHeld f true).Sound c
  have hfree : f ∈ m.freelist := by simp [hf]
  have hmem : Use.held f ∈ uses := mem_uses_held.mpr (h.refs.balanced.free_iff.mp hfree).1.2
  have hold : m.target (.held f) = none := by
    by_contra hne
    have hheld : m.kheld f = true := by
      by_contra hk
      exact hne (if_neg hk)
    exact h.refs.balanced.not_held hmem hfree (if_pos hheld)
  refine ⟨⟨?_, h.refs.live_lt⟩, h.global, h.tidy⟩
  refine (h.refs.take hf).balanced.put hmem hold ?_ (fun w _ hw => target_setHeld_ne hw) ?_
  · simp [Machine.target]
  · intro _
    simp

theorem kfreeHeld_sound (h : m.Sound c) (hheld : m.kheld f = true) :
    wp (kfreeHeld c f) (fun _ m' => m'.Sound c) (fun e _ => NotRefZero e) m := by
  rw [kfreeHeld, wp_bind, wp_modify]
  by_cases hf : managed c f
  · have hrefs : RefInv c (m.setHeld f false) [f] := by
      refine ⟨?_, h.refs.live_lt⟩
      refine h.refs.balanced.lift (mem_uses_held.mpr hf.2) (if_pos hheld) ?_
        (fun w _ hw => target_setHeld_ne hw)
      simp [Machine.target]
    have hs : Sound c nobody ⟨m.setHeld f false, [f]⟩ := ⟨hrefs, fun q _ => h.tidy q⟩
    refine wp_post (kfree_inv (sound_closed c nobody) hs) ?_
    rintro _ m' ⟨rfl, hs'⟩
    exact ⟨hs'.refs, h.global, h.tidy⟩
  · rw [wp_kfree]
    exact ⟨fun hm => absurd hm hf, fun _ => by decide⟩

/-- One operation, called as promised and served. -/
theorem MemOp.exec_sound {op : MemOp} (h : m.Sound c) (hcall : op.Promised c m) (hserved : op.Served m) :
    wp (op.exec c) (fun _ m' => m'.Sound c) (fun e _ => NotRefZero e) m := by
  have hall : ∀ _ _ : Nat, True := fun _ _ => trivial
  -- An operation of the running process `p` ends in a sound machine.
  have hrun : ∀ {p : Nat} {α : Type} {x : K α}, wp x (fun _ m' => Sound c (· = p) ⟨m', []⟩ ∧ Own c p m')
      (fun e _ => NotRefZero e) m → wp (do let _ ← x; pure ()) (fun _ m' => m'.Sound c)
      (fun e _ => NotRefZero e) m := by
    intro p α x hx
    rw [wp_bind]
    exact wp_post hx fun _ m' h' => h'.1.machine h'.2
  cases op with
  | hold => exact kallocHeld_sound h
  | release f => exact kfreeHeld_sound h hcall
  | assign q pr =>
    show (m.setProc q pr).Sound c
    refine ⟨⟨h.refs.balanced, h.refs.live_lt⟩, h.global, fun r hused => ?_⟩
    unfold Machine.Tidy
    by_cases hr : r = q
    · subst hr
      rw [Machine.setProc_proc, update_self] at hused ⊢
      exact hcall hused
    · rw [Machine.setProc_proc, update_of_ne hr] at hused ⊢
      exact h.tidy r hused
  | setupkvm p =>
    refine (wp_bind _ _ _ _ _).mpr ?_
    refine wp_post (setupkvm_inv (sound_closed c nobody) hall h.unowned h.nobody h.global) ?_
    rintro _ m' ⟨hs, hproc, hglobal, -⟩
    exact ⟨hs.refs, hglobal, fun q => hs.tidy q id⟩
  | copyuvm p =>
    refine (wp_bind _ _ _ _ _).mpr ((wp_getProc _ _).mpr ((wp_bind _ _ _ _ _).mpr ?_))
    refine wp_post (copyuvm_inv (sound_closed c nobody) hall (h.tidy p hcall).sz_le h.unowned hcall
      h.nobody h.global) ?_
    rintro _ m' ⟨hs, hproc, hglobal⟩
    exact ⟨hs.refs, hglobal, fun q => hs.tidy q id⟩
  | allocuvm p d oldsz newsz =>
    obtain ⟨hs, ho⟩ := h.running hcall
    exact hrun (allocuvm_inv (sound_closed c (· = p)) hs ho hall)
  | deallocuvm p d oldsz newsz =>
    obtain ⟨hs, ho⟩ := h.running hcall.1
    exact hrun (deallocuvm_inv (sound_closed c (· = p)) hs ho hcall.2 fun _ _ => trivial)
  | moveToDisk p i =>
    obtain ⟨hs, ho⟩ := h.running hcall
    exact hrun (wp_post (moveToDisk_inv (sound_closed c (· = p)) hs ho trivial) fun _ _ h' => ⟨h'.1, h'.2.1⟩)
  | getPageFromFile p i =>
    obtain ⟨hused, hi, hdisk⟩ := hcall
    obtain ⟨hs, ho⟩ := h.running hused
    obtain ⟨hid, ht⟩ := ho.tidy.disk i hi hdisk
    exact hrun (getPageFromFile_inv (sound_closed c (· = p)) hs ho hid ht)
  | fault p va user =>
    obtain ⟨hs, ho⟩ := h.running hcall
    have hspare : wp (updateMetaData c p) (fun _ m' => Spares c p (fun _ _ => True) m') anyStop
        (m.setProc p (m.proc p).countFault) :=
      wp_mono (quiet_updateMetaData (c := c) (p := p) _) (fun _ _ _ => .of_all hall) (fun _ _ _ => trivial)
    exact wp_post (trap_inv (sound_closed c (· = p)) hs ho hserved hspare) fun _ _ h' => h'.1.machine h'.2
  | freevm p d =>
    refine wp_post (freevm_inv (sound_closed c nobody) hall (.inl hcall.1) hcall.2 h.nobody) ?_
    rintro _ m' ⟨hs, hproc, hglobal⟩
    exact ⟨hs.refs, hglobal, fun q => hs.tidy q id⟩

end Step

/-! ## Whole runs -/

/-- The state that `kinit2` leaves: every frame is free and nothing is in use. -/
structure Booted (c : Config) (m : Machine) : Prop where
  free_iff : ∀ f, f ∈ m.freelist ↔ managed c f
  nodup : m.freelist.Nodup
  refs : ∀ f, managed c f → m.referenceCounters f = 0
  noDir : ∀ d, (m.dirs d).live = false
  noHeld : ∀ f, m.kheld f = false
  noProc : ∀ q, (m.proc q).used = false
  global : m.globalPgdir = none

theorem Booted.sound (h : Booted c m) : m.Sound c := by
  have hnone : ∀ u, m.target u = none := by
    intro u
    cases u with
    | pte d v => exact target_pte_of_not_maps (by simp [PageDir.maps, h.noDir])
    | dir d => exact if_neg (by simp [h.noDir])
    | table d k => exact if_neg (by simp [h.noDir])
    | held f => exact if_neg (by simp [h.noHeld])
  refine ⟨⟨⟨?_, ?_, ?_, ?_, h.nodup, ?_⟩, ?_⟩, h.global, ?_⟩
  · intro f hf
    rw [h.refs f hf, holders, Finset.filter_false_of_mem (by simp [hnone])]
    rfl
  · intro u f _ hu
    exact absurd hu (by simp [hnone])
  · intro f hf
    exact absurd hf (by simp)
  · intro u f _ _ hu
    exact absurd hu (by simp [hnone])
  · intro f
    rw [h.free_iff]
    exact ⟨fun hf => ⟨hf, h.refs f hf⟩, fun hf => hf.1⟩
  · intro d hl
    exact absurd hl (by simp [h.noDir])
  · intro q hused
    exact absurd hused (by simp [h.noProc])

/-- Over every run after boot in which operations are called as their callers call
    them and every write fault on a shared page is on a user page and finds a free
    frame: counters are right in the end, and the run has not stopped in the panic
    of `kfree` on a counter that is `0`. -/
theorem refcounts_ok_of_run (c : Config) (m : Machine) (ops : List MemOp) (hboot : Booted c m)
    (hok : Run.Along (MemOp.exec c) (fun op s => op.Promised c s ∧ op.Served s) ops m) :
    (∀ outs m', Run.run (MemOp.exec c) ops m = .ok outs m' → FramesOk c m') ∧
    ∀ m', Run.run (MemOp.exec c) ops m ≠ .error (.panic kfreeRefIsZero) m' := by
  have hrun : wp (Run.run (MemOp.exec c) ops) (fun _ m' => m'.Sound c) (fun e _ => NotRefZero e) m :=
    Run.wp_invariant (fun _ _ hs hcall => MemOp.exec_sound hs hcall.1 hcall.2) hboot.sound hok
  obtain ⟨hret, herr⟩ := wp_iff.mp hrun
  refine ⟨fun outs m' heq => (hret outs m' heq).refs.framesOk, fun m' heq => ?_⟩
  exact herr _ m' heq rfl

/-! ## A machine with few frames -/

/-- A kernel that leaves the last `n` frames to `kalloc`. -/
def smallConfig (n : Nat) : Config where
  selection := .LIFO
  kend := nframes - n
  kdata := 50
  pageFound := false
  fuel := 64

/-- A process of one page, with no page recorded yet. -/
def smallProc (d : Nat) : Proc where
  used := true
  sz := pgsize
  pgdir := d
  kstack := none
  killed := false
  swapFile := none
  pagesMetaData := fun i => { page := ⟨noPage, .notUsed, noOffset, 0, i⟩, next := none, prev := none }
  pageListHeadRam := none
  numPagesRam := 0
  numPagesDisk := 0
  availableOffsets := fun _ => false
  numOfPageFaults := 0
  numOfPageOuts := 0

def smallBoot (n : Nat) : Machine where
  freelist := List.range' (nframes - n) n
  referenceCounters := fun _ => 0
  useLock := true
  systemFreePages := n
  mem := fun _ => Page.freed
  dirs := fun _ => ⟨false, fun _ => none, fun _ => Pte.zero⟩
  kheld := fun _ => false
  proc := fun _ => { smallProc 0 with used := false }
  nextpid := 1
  slots := 0
  ftable := fun _ => 0
  swap := fun _ => Inode.empty
  globalPgdir := none
  ncli := 0
  opDepth := 0
  nested := false
  lockedFault := false

theorem smallBoot_booted (hn : n ≤ nframes) : Booted (smallConfig n) (smallBoot n) where
  free_iff := by
    intro f
    simp only [smallBoot, mem_range', managed, smallConfig]
    constructor
    · rintro ⟨i, hi, rfl⟩
      omega
    · intro hf
      exact ⟨f - (nframes - n), by omega, by omega⟩
  nodup := nodup_range'
  refs := fun _ _ => rfl
  noDir := fun _ => rfl
  noHeld := fun _ => rfl
  noProc := fun _ => rfl
  global := rfl

/-- A process gets a page and forks; then the child writes to the page. -/
def forkAndWrite (n : Nat) : List MemOp :=
  [.setupkvm 3, .assign 3 (smallProc (nframes - n)), .allocuvm 3 (nframes - n) 0 pgsize, .copyuvm 3,
    .assign 4 (smallProc (nframes - n + 67)), .fault 4 0 true]

/-- The processes of `forkAndWrite` have no page on record when they enter use. -/
theorem smallProc_tidy {dir : PageDir} (hl : dir.live = true)
    (htop : (dir.pte (vpn noPage)).frame = vpn noPage) : (smallProc d).Tidy (smallConfig n) dir where
  live := hl
  top := by
    intro _ hm
    rw [htop] at hm
    exact absurd hm.2 (by decide)
  ids := fun _ _ => .inl rfl
  disk := fun _ _ hd => nomatch hd
  sz_le := show pgsize ≤ kernbase by decide

/-- With one frame to spare the copy succeeds, and the counters are right. -/
theorem refcounts_ok_of_run_small :
    ∃ outs m', Run.run (MemOp.exec (smallConfig 134)) (forkAndWrite 134) (smallBoot 134) = .ok outs m' ∧
      FramesOk (smallConfig 134) m' := by
  have hok : Run.Along (MemOp.exec (smallConfig 134))
      (fun op s => op.Promised (smallConfig 134) s ∧ op.Served s) (forkAndWrite 134) (smallBoot 134) := by
    refine .of_final ⟨trivial, trivial⟩ (.of_final ⟨fun _ => ?_, trivial⟩ (.of_final ⟨?_, trivial⟩
      (.of_final ⟨?_, trivial⟩ (.of_final ⟨fun _ => ?_, trivial⟩ (.of_final ⟨?_, ?_⟩ trivial)))))
    · exact smallProc_tidy (by decide +kernel) (by decide +kernel)
    · show (Machine.proc _ 3).used = true
      decide +kernel
    · show (Machine.proc _ 3).used = true
      decide +kernel
    · exact smallProc_tidy (by decide +kernel) (by decide +kernel)
    · show (Machine.proc _ 4).used = true
      decide +kernel
    · show CopyOk _ 4 0
      decide +kernel
  obtain ⟨outs, hrun⟩ := Run.exists_of_returns (show Run.returns (Run.run (MemOp.exec (smallConfig 134))
    (forkAndWrite 134)) (smallBoot 134) = true by decide +kernel)
  exact ⟨outs, _, hrun, (refcounts_ok_of_run _ _ _ (smallBoot_booted (by decide)) hok).1 outs _ hrun⟩

/-- Without a free frame the handler still takes a reference away: parent and
    child map the page, and its counter is `1`. -/
theorem refcount_lost_when_full : Booted (smallConfig 133) (smallBoot 133) ∧
    ∃ outs m', Run.run (MemOp.exec (smallConfig 133)) (forkAndWrite 133) (smallBoot 133) = .ok outs m' ∧
      ¬ FramesOk (smallConfig 133) m' := by
  refine ⟨smallBoot_booted (by decide), ?_⟩
  obtain ⟨outs, hrun⟩ := Run.exists_of_returns (show Run.returns (Run.run (MemOp.exec (smallConfig 133))
    (forkAndWrite 133)) (smallBoot 133) = true by decide +kernel)
  refine ⟨outs, _, hrun, fun hframes => ?_⟩
  -- The frame of the shared page, and the two PTEs that map it.
  have hrefs : (Run.final (Run.run (MemOp.exec (smallConfig 133)) (forkAndWrite 133))
      (smallBoot 133)).referenceCounters 57276 = 1 := by decide +kernel
  have hparent : ((Run.final (Run.run (MemOp.exec (smallConfig 133)) (forkAndWrite 133))
      (smallBoot 133)).dirs 57211).maps 0 = true ∧ (((Run.final (Run.run (MemOp.exec (smallConfig 133))
      (forkAndWrite 133)) (smallBoot 133)).dirs 57211).pte 0).frame = 57276 := by decide +kernel
  have hchild : ((Run.final (Run.run (MemOp.exec (smallConfig 133)) (forkAndWrite 133))
      (smallBoot 133)).dirs 57278).maps 0 = true ∧ (((Run.final (Run.run (MemOp.exec (smallConfig 133))
      (forkAndWrite 133)) (smallBoot 133)).dirs 57278).pte 0).frame = 57276 := by decide +kernel
  generalize Run.final (Run.run (MemOp.exec (smallConfig 133)) (forkAndWrite 133)) (smallBoot 133) = m
    at hframes hrefs hparent hchild
  have htwo : 2 ≤ m.userMaps 57276 := by
    have hsub : ({(57211, 0), (57278, 0)} : Finset (Nat × Nat)) ⊆ userPtes.filter fun x =>
        (m.dirs x.1).maps x.2 = true ∧ ((m.dirs x.1).pte x.2).frame = 57276 := by
      intro x hx
      rw [Finset.mem_filter, mem_userPtes]
      rcases Finset.mem_insert.mp hx with rfl | hx
      · exact ⟨by decide, hparent⟩
      · rw [Finset.mem_singleton] at hx
        subst hx
        exact ⟨by decide, hchild⟩
    exact Finset.card_le_card hsub
  have hcount := hframes.count 57276 (by decide)
  omega

end Xv6Paging
