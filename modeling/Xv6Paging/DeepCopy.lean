import Xv6Paging.Process

/-! # Copying the paging data of a process (`deepCopyProc` of `proc.c`)

    `fork` gives the child a copy of its father's metadata and swap file. The links of the list
    are relocated through the index each entry stores. The file is copied page by page until
    `readi` fails, which it does behind the end of the file but not at its end, so one page more
    than the file has is written, as far as it fits into the largest file.
-/

namespace Xv6Paging

open Wp Run

variable {i k n off t : Nat} {x : Option Nat} {fa pr : Proc} {ip : Inode}

/-! ## The code -/

/-- The turns that the copy loop can take before its offset wraps around. -/
def copySwapFuel : Nat := 2 ^ 20

/-- The loop over the pages of the swap file. The buffer is cleared before each page is read, and
    a write that fails is only reported. -/
def copySwapFile (father child : Nat) : Nat → Nat → K Unit
  | 0, _ => throw .diverge
  | fuel + 1, offset => do
    match ← readFromSwapFile father offset pgsize with
    | none => pure ()
    | some n =>
      let m ← get
      let _ ← writeToSwapFile child
        (fun k => if k < n then (m.swap father).data (offset + k) else 0) offset pgsize
      copySwapFile father child fuel ((offset + pgsize) % 2 ^ 32)

/-- The child's pointer for the father's link `x`; a null link leaves the pointer `old`. -/
def copyLink (father : Proc) (x old : Option Nat) : P (Option Nat) :=
  match x with
  | none => pure old
  | some j =>
    if j < maxTotalPages then
      pure (some (father.pagesMetaData j).page.index)
    else
      throw .wild

/-- The loop over the metadata, `k` entries from entry `i` on. -/
def copyLinks (father : Proc) : Nat → Nat → P Unit
  | 0, _ => pure ()
  | k + 1, i => do
    modify fun pr => pr.setPage i fun _ => (father.pagesMetaData i).page
    let pr ← get
    let x ← copyLink father (father.prev i) (pr.prev i)
    modify fun pr => pr.setPrev i x
    let pr ← get
    let x ← copyLink father (father.next i) (pr.next i)
    modify fun pr => pr.setNext i x
    copyLinks father k (i + 1)

/-- `memmove` of `available_Offsets`. -/
def Proc.setOffsets (pr : Proc) (offsets : Nat → Bool) : Proc :=
  { pr with availableOffsets := fun s => if s < swapSlots then offsets s else pr.availableOffsets s }

def Proc.setCounts (pr : Proc) (ram disk : Nat) : Proc :=
  { pr with numPagesRam := ram, numPagesDisk := disk }

/-- The part of `deepCopyProc` behind the swap file: entries, head and counters. -/
def copyMetaData (father : Proc) : P Unit := do
  copyLinks father maxTotalPages 0
  let pr ← get
  let x ← copyLink father father.pageListHeadRam pr.pageListHeadRam
  modify fun pr => pr.setHead x
  modify fun pr => pr.setCounts father.numPagesRam father.numPagesDisk

def deepCopyProc (father child : Nat) : K Unit := do
  let fa ← getProc father
  if fa.swapFile = none then
    onProc child (copyMetaData fa)
  else
    ensureSwapFile child
    copySwapFile father child copySwapFuel 0
    modifyProc child fun pr => pr.setOffsets fa.availableOffsets
    onProc child (copyMetaData fa)

/-! ## Traversals -/

/-- What a traversal of the list reads of an entry. -/
def PageMetaData.contents (pg : PageMetaData) : Nat × PageState × Nat × BitVec 32 :=
  (pg.pageId, pg.state, pg.offsetInFile, pg.shiftCounter)

/-- The entries met in `k` steps along the links `step`. -/
def trail (step : Nat → Option Nat) : Nat → Option Nat → List Nat
  | 0, _ => []
  | _ + 1, none => []
  | k + 1, some i => i :: trail step k (step i)

/-- The forward traversal, `k` entries of it. -/
def Proc.forward (pr : Proc) (k : Nat) : List (Nat × PageState × Nat × BitVec 32) :=
  (trail pr.next k pr.pageListHeadRam).map fun i => (pr.pagesMetaData i).page.contents

/-- The backward traversal from the last entry of the forward one. -/
def Proc.backward (pr : Proc) (k : Nat) : List (Nat × PageState × Nat × BitVec 32) :=
  (trail pr.prev k (trail pr.next k pr.pageListHeadRam).getLast?).map fun i =>
    (pr.pagesMetaData i).page.contents

/-- Links and head stay inside the array. -/
structure Proc.Linked (pr : Proc) : Prop where
  next : ∀ i < maxTotalPages, ∀ j ∈ pr.next i, j < maxTotalPages
  prev : ∀ i < maxTotalPages, ∀ j ∈ pr.prev i, j < maxTotalPages
  head : ∀ j ∈ pr.pageListHeadRam, j < maxTotalPages

/-- Every entry knows its position. -/
def Proc.Indexed (pr : Proc) : Prop :=
  ∀ i < maxTotalPages, (pr.pagesMetaData i).page.index = i

/-- Two processes with the same entries and the same head. -/
structure SameList (pr pr' : Proc) : Prop where
  entry : ∀ i < maxTotalPages, pr'.pagesMetaData i = pr.pagesMetaData i
  head : pr'.pageListHeadRam = pr.pageListHeadRam

variable {pr' : Proc}

theorem trail_lt {step : Nat → Option Nat}
    (hstep : ∀ i < maxTotalPages, ∀ j, step i = some j → j < maxTotalPages)
    (hx : ∀ j, x = some j → j < maxTotalPages) : ∀ i ∈ trail step k x, i < maxTotalPages := by
  induction k generalizing x with
  | zero => simp [trail]
  | succ k ih =>
    cases x with
    | none => simp [trail]
    | some i =>
      have hi := hx i rfl
      intro j hj
      rw [trail, List.mem_cons] at hj
      rcases hj with rfl | hj
      · exact hi
      · exact ih (hstep i hi) j hj

theorem trail_congr {step step' : Nat → Option Nat}
    (hstep : ∀ i < maxTotalPages, ∀ j, step i = some j → j < maxTotalPages)
    (hx : ∀ j, x = some j → j < maxTotalPages) (heq : ∀ i < maxTotalPages, step' i = step i) :
    trail step' k x = trail step k x := by
  induction k generalizing x with
  | zero => rfl
  | succ k ih =>
    cases x with
    | none => rfl
    | some i =>
      have hi := hx i rfl
      rw [trail, trail, heq i hi, ih (hstep i hi)]

theorem SameList.next_eq (h : SameList pr pr') (hi : i < maxTotalPages) :
    pr'.next i = pr.next i := by
  simp only [Proc.next, h.entry i hi]

theorem SameList.prev_eq (h : SameList pr pr') (hi : i < maxTotalPages) :
    pr'.prev i = pr.prev i := by
  simp only [Proc.prev, h.entry i hi]

theorem SameList.linked (h : SameList pr pr') (hl : pr.Linked) : pr'.Linked := by
  refine ⟨fun i hi j hj => ?_, fun i hi j hj => ?_, fun j hj => ?_⟩
  · rw [h.next_eq hi] at hj
    exact hl.next i hi j hj
  · rw [h.prev_eq hi] at hj
    exact hl.prev i hi j hj
  · rw [h.head] at hj
    exact hl.head j hj

/-- The two processes are traversed alike. -/
theorem SameList.forward_eq (h : SameList pr pr') (hl : pr.Linked) (k : Nat) :
    pr'.forward k = pr.forward k := by
  unfold Proc.forward
  rw [h.head, trail_congr hl.next hl.head fun i hi => h.next_eq hi]
  refine List.map_congr_left fun i hi => ?_
  rw [h.entry i (trail_lt hl.next hl.head i hi)]

theorem SameList.backward_eq (h : SameList pr pr') (hl : pr.Linked) (k : Nat) :
    pr'.backward k = pr.backward k := by
  have hlast : ∀ j, (trail pr.next k pr.pageListHeadRam).getLast? = some j → j < maxTotalPages :=
    fun j hj => trail_lt hl.next hl.head j (List.mem_of_getLast? hj)
  unfold Proc.backward
  rw [h.head, trail_congr hl.next hl.head fun i hi => h.next_eq hi,
    trail_congr hl.prev hlast fun i hi => h.prev_eq hi]
  refine List.map_congr_left fun i hi => ?_
  rw [h.entry i (trail_lt hl.prev hlast i hi)]

/-! ## The metadata -/

/-- A relocated link is the father's. -/
theorem wp_copyLink {old : Option Nat} (Q : Option Nat → Proc → Prop)
    (hidx : fa.Indexed) (hx : ∀ j, x = some j → j < maxTotalPages) (hold : x = none → old = none) :
    wp (copyLink fa x old) Q E pr ↔ Q x pr := by
  cases x with
  | none => rw [copyLink, hold rfl, wp_pure]
  | some j =>
    have hj := hx j rfl
    rw [copyLink, if_pos hj, hidx j hj, wp_pure]

/-- The child's entries from `i` on become the father's. -/
theorem copyLinks_spec (hidx : fa.Indexed) (hl : fa.Linked) (hk : i + k = maxTotalPages)
    (hpr : ∀ j, i ≤ j → j < maxTotalPages → pr.next j = none ∧ pr.prev j = none) :
    wp (copyLinks fa k i) (fun _ pr' => pr' = { pr with
      pagesMetaData := fun j => if i ≤ j ∧ j < maxTotalPages then fa.pagesMetaData j
        else pr.pagesMetaData j }) noStop pr := by
  induction k generalizing i pr with
  | zero =>
    rw [copyLinks, wp_pure]
    have : ∀ j, ¬ (i ≤ j ∧ j < maxTotalPages) := fun j => by omega
    simp [this]
  | succ k ih =>
    have hi : i < maxTotalPages := by omega
    obtain ⟨hnext, hprev⟩ := hpr i (le_refl i) hi
    simp only [copyLinks, wp_bind, wp_modify, wp_get]
    rw [wp_copyLink _ hidx (hl.prev i hi) fun _ => by
      simpa [Proc.prev, Proc.setPage, Proc.setLink] using hprev]
    rw [wp_copyLink _ hidx (hl.next i hi) fun _ => by
      simpa [Proc.next, Proc.setPage, Proc.setPrev, Proc.setLink] using hnext]
    refine wp_post (ih (by omega) fun j hij hj => ?_) ?_
    · have hne : j ≠ i := by omega
      have := hpr j (by omega) hj
      simpa [Proc.next, Proc.prev, Proc.setPage, Proc.setPrev, Proc.setNext, Proc.setLink, hne]
        using this
    · rintro _ pr' rfl
      simp only [Proc.setPage, Proc.setPrev, Proc.setNext, Proc.setLink]
      congr 1
      funext j
      by_cases hji : j = i
      · subst hji
        simp [hi, Proc.next, Proc.prev]
      · have hiff : (i + 1 ≤ j ∧ j < maxTotalPages) ↔ (i ≤ j ∧ j < maxTotalPages) := by omega
        simp only [hiff]
        simp [hji]

/-! ## The swap file -/

/-- The first `t` pages of the father's file `F` are in the child's file `C`, as far as there are
    slots for them. -/
structure CopiedTo (F : Inode) (t : Nat) (C : Inode) : Prop where
  size : pgsize * min t swapSlots ≤ C.size
  data : ∀ k < pgsize * t, k < pgsize * swapSlots → k < F.size → C.data k = F.data k

theorem Inode.readi_eq_none (h : ip.readi off n = none) :
    ip.size < off ∨ 2 ^ 32 ≤ off + n := by
  by_contra hno
  rw [Inode.readi, if_neg hno] at h
  split at h <;> cases h

theorem Inode.readi_eq_some (h : ip.readi off n = some k) :
    off ≤ ip.size ∧ k = min n (ip.size - off) := by
  simp only [Inode.readi] at h
  split at h
  · cases h
  · split at h
    · cases h
      omega
    · cases h
      omega

theorem CopiedTo.zero (F C : Inode) : CopiedTo F 0 C :=
  ⟨by simp, fun k hk => by simp at hk⟩

/-- One turn writes the next page, or a part of it behind the last slot. -/
theorem CopiedTo.step (h : CopiedTo F t C)
    (hread : F.readi (pgsize * t) pgsize = some n) (hj : t < swapSlots → j = pgsize) : CopiedTo F (t + 1)
      (C.wrote (fun k => if k < n then F.data (pgsize * t + k) else 0) (pgsize * t) j) := by
  refine ⟨?_, fun k hk hslot hF => ?_⟩
  · have hsize := h.size
    by_cases ht : t < swapSlots
    · rw [min_eq_left (by omega)] at hsize ⊢
      rw [hj ht, Nat.mul_succ]
      simp only [Inode.wrote]
      split
      · exact le_refl _
      · omega
    · rw [min_eq_right (by omega)] at hsize ⊢
      simp only [Inode.wrote]
      split
      · omega
      · exact hsize
  · by_cases hlow : k < pgsize * t
    · have hout : ¬ (pgsize * t ≤ k ∧ k < pgsize * t + j) := by omega
      simp only [Inode.wrote, if_neg hout]
      exact h.data k hlow hslot hF
    · have ht : t < swapSlots := by
        simp only [pgsize, swapSlots] at *
        omega
      rw [Nat.mul_succ] at hk
      have hin : pgsize * t ≤ k ∧ k < pgsize * t + j := by
        rw [hj ht]
        omega
      have hn : k - pgsize * t < n := by
        have := (Inode.readi_eq_some hread).2
        omega
      simp only [Inode.wrote, if_pos hin, if_pos hn]
      congr 1
      omega

variable {m m' : Machine} {father child : Nat}

/-- Only the file of process `child` is written. -/
structure FileOnly (child : Nat) (m m' : Machine) : Prop where
  proc : m'.proc = m.proc
  swap : ∀ q, q ≠ child → m'.swap q = m.swap q
  opDepth : m'.opDepth = m.opDepth
  ncli : m'.ncli = m.ncli

theorem FileOnly.refl (child : Nat) (m : Machine) : FileOnly child m m := ⟨rfl, fun _ _ => rfl, rfl, rfl⟩

/-- The copy loop ends behind the father's last page. -/
theorem copySwapFile_spec {fuel : Nat} (hne : father ≠ child)
    (hfa : (m.proc father).swapFile ≠ none) (hch : (m.proc child).swapFile ≠ none)
    (hlock : m.opDepth = 0 → m.ncli = 0) (hsize : (m.swap father).size ≤ maxfile * bsize)
    (hfuel : swapSlots + 2 ≤ t + fuel) (ht : t ≤ swapSlots + 1)
    (h : CopiedTo (m.swap father) t (m.swap child)) :
    wp (copySwapFile father child fuel (pgsize * t)) (fun _ m' => FileOnly child m m' ∧
      ∃ t', (m.swap father).size < pgsize * t' ∧ CopiedTo (m.swap father) t' (m'.swap child))
      noStop m := by
  induction fuel generalizing t m with
  | zero => omega
  | succ fuel ih =>
    obtain ⟨fd, hfd⟩ := Option.ne_none_iff_exists'.mp hfa
    simp only [copySwapFile, readFromSwapFile, wp_bind, wp_getProc, hfd, wp_get, wp_pure]
    cases hread : (m.swap father).readi (pgsize * t) pgsize with
    | none =>
      rw [wp_pure]
      refine ⟨.refl child m, t, ?_, h⟩
      have := Inode.readi_eq_none hread
      simp only [pgsize, swapSlots] at *
      omega
    | some n =>
      have hle := (Inode.readi_eq_some hread).1
      have ht' : t ≤ swapSlots := by
        simp only [pgsize, maxfile, bsize, swapSlots] at *
        omega
      simp only [wp_bind, wp_get]
      refine wp_post (writeToSwapFile_upTo hlock hch (min_eq_left ht' ▸ h.size)) ?_
      rintro _ m1 ⟨j, -, rfl, hfit⟩
      have hj : t < swapSlots → j = pgsize := fun hlt => (hfit (by
        simp only [pgsize, maxfile, bsize, swapSlots] at *
        omega)).2
      have hnext : (pgsize * t + pgsize) % 2 ^ 32 = pgsize * (t + 1) := by
        simp only [pgsize, swapSlots] at *
        omega
      have hfile : ((m.noteOp.setSwap child ((m.swap child).wrote
          (fun k => if k < n then (m.swap father).data (pgsize * t + k) else 0) (pgsize * t)
          j)).swap father) = m.swap father := by
        simp [hne]
      rw [hnext]
      refine wp_post (ih hfa hch hlock (by rw [hfile]; exact hsize) (by omega) (by omega) ?_) ?_
      · rw [hfile]
        simpa using h.step hread hj
      · rintro _ m2 ⟨honly, t', hlt, hcopied⟩
        rw [hfile] at hlt hcopied
        refine ⟨⟨honly.proc, fun q hq => ?_, honly.opDepth, honly.ncli⟩, t', hlt, hcopied⟩
        rw [honly.swap q hq]
        simp [hq]

/-! ## The copy -/

/-- What `deepCopyProc` promises. -/
structure DeepCopied (father child : Nat) (m m' : Machine) : Prop where
  forward : ∀ k, (m'.proc child).forward k = (m.proc father).forward k
  backward : ∀ k, (m'.proc child).backward k = (m.proc father).backward k
  linked : (m'.proc child).Linked
  ram : (m'.proc child).numPagesRam = (m.proc father).numPagesRam
  disk : (m'.proc child).numPagesDisk = (m.proc father).numPagesDisk
  offsets : ∀ s < swapSlots,
    (m'.proc child).availableOffsets s = (m.proc father).availableOffsets s
  slots : ∀ s < swapSlots, (m.proc father).availableOffsets s = true →
    pgsize * (s + 1) ≤ (m'.swap child).size ∧
    ∀ k < pgsize, (m'.swap child).data (pgsize * s + k) = (m.swap father).data (pgsize * s + k)
  proc : m'.proc father = m.proc father
  file : m'.swap father = m.swap father

/-- The links of a process that has just been initialised are null. -/
structure Proc.Unlinked (pr : Proc) : Prop where
  links : ∀ i < maxTotalPages, pr.next i = none ∧ pr.prev i = none
  head : pr.pageListHeadRam = none

theorem Proc.Unlinked.of_init (h : pr = pr.initMetaData c) : pr.Unlinked := by
  rw [h]
  refine ⟨fun i hi => ?_, rfl⟩
  simp [Proc.next, Proc.prev, Proc.initMetaData, hi, PageLink.init]

theorem copyMetaData_spec (hidx : fa.Indexed) (hl : fa.Linked) (hpr : pr.Unlinked) :
    wp (copyMetaData fa) (fun _ pr' => SameList fa pr' ∧ pr'.numPagesRam = fa.numPagesRam ∧
      pr'.numPagesDisk = fa.numPagesDisk ∧ pr'.availableOffsets = pr.availableOffsets) noStop pr := by
  simp only [copyMetaData, wp_bind]
  refine wp_post (copyLinks_spec hidx hl rfl fun j _ hj => hpr.links j hj) ?_
  rintro _ pr1 rfl
  rw [wp_get, wp_copyLink _ hidx hl.head fun _ => hpr.head]
  simp only [wp_modify]
  refine ⟨⟨fun i hi => ?_, rfl⟩, rfl, rfl, rfl⟩
  simp [Proc.setCounts, Proc.setHead, hi]

/-- What the copied metadata say, once the slots have been copied. -/
theorem DeepCopied.of_metaData {pr' : Proc} (hne : father ≠ child) (hl : (m.proc father).Linked)
    (hsame : SameList (m.proc father) pr')
    (hram : pr'.numPagesRam = (m.proc father).numPagesRam)
    (hdisk : pr'.numPagesDisk = (m.proc father).numPagesDisk)
    (hoff : ∀ s < swapSlots, pr'.availableOffsets s = (m.proc father).availableOffsets s)
    (hslots : ∀ s < swapSlots, (m.proc father).availableOffsets s = true →
      pgsize * (s + 1) ≤ (m'.swap child).size ∧
      ∀ k < pgsize, (m'.swap child).data (pgsize * s + k) = (m.swap father).data (pgsize * s + k))
    (hproc : m'.proc father = m.proc father) (hfile : m'.swap father = m.swap father) :
    DeepCopied father child m (m'.setProc child pr') := by
  have hchild : (m'.setProc child pr').proc child = pr' := by simp
  refine ⟨fun k => ?_, fun k => ?_, ?_, ?_, ?_, ?_, hslots, ?_, hfile⟩
  · rw [hchild, hsame.forward_eq hl k]
  · rw [hchild, hsame.backward_eq hl k]
  · rw [hchild]
    exact hsame.linked hl
  · rw [hchild, hram]
  · rw [hchild, hdisk]
  · rw [hchild]
    exact hoff
  · simp [hne, hproc]

/-- `deepCopyProc` ends, and gives the child a copy of its father's list, counters and slots. -/
theorem deepCopyProc_copies {c : Config} (hne : father ≠ child)
    (hidx : (m.proc father).Indexed) (hl : (m.proc father).Linked)
    (hslots : ∀ s < swapSlots, (m.proc father).availableOffsets s = true →
      (m.proc father).swapFile ≠ none ∧ pgsize * (s + 1) ≤ (m.swap father).size)
    (hsize : (m.swap father).size ≤ maxfile * bsize)
    (hfresh : m.proc child = (m.proc child).initMetaData c)
    (hfd : ∃ fd < nfile, m.ftable fd = 0) (hlock : m.opDepth = 0 → m.ncli = 0) :
    wp (deepCopyProc father child) (fun _ m' => DeepCopied father child m m') noStop m := by
  have hunl : (m.proc child).Unlinked := .of_init hfresh
  have hnofile : (m.proc child).swapFile = none := by rw [hfresh]; rfl
  simp only [deepCopyProc, wp_bind, wp_getProc]
  by_cases hfile : (m.proc father).swapFile = none
  · -- Without a file no slot is in use.
    have hunused : ∀ s < swapSlots, (m.proc father).availableOffsets s = false := by
      intro s hs
      by_contra hav
      exact (hslots s hs (by simpa using hav)).1 hfile
    have hnone : ∀ s < swapSlots, (m.proc child).availableOffsets s = false := by
      intro s hs
      rw [hfresh]
      simp [Proc.initMetaData, hs]
    rw [if_pos hfile, wp_onProc]
    refine wp_post (copyMetaData_spec hidx hl hunl) ?_
    rintro _ pr' ⟨hsame, hram, hdisk, hoff⟩
    refine .of_metaData hne hl hsame hram hdisk (fun s hs => ?_) (fun s hs hav => ?_) rfl rfl
    · rw [hoff, hnone s hs, hunused s hs]
    · simp [hunused s hs] at hav
  · simp only [if_neg hfile, wp_bind, ensureSwapFile, wp_getProc, if_pos hnofile]
    refine wp_post (createSwapFile_spec hlock hfd) ?_
    rintro _ m1 ⟨fd, rfl⟩
    generalize hm1 : (m.noteOp.setFtable fd 1).setProc child
      ((m.proc child).setSwapFile (some fd)) = m1
    have hfather : m1.proc father = m.proc father := by simp [← hm1, hne]
    have hchild : m1.proc child = (m.proc child).setSwapFile (some fd) := by simp [← hm1]
    have hswap : m1.swap = m.swap := by rw [← hm1]; rfl
    have hlock1 : m1.opDepth = 0 → m1.ncli = 0 := by rw [← hm1]; exact hlock
    refine wp_post (copySwapFile_spec (m := m1) (t := 0) hne
      (by rw [hfather]; exact hfile) (by rw [hchild]; simp [Proc.setSwapFile]) hlock1
      (by rw [hswap]; exact hsize) (by decide) (by decide) (.zero _ _)) ?_
    rintro _ m2 ⟨honly, t, hlt, hcopied⟩
    rw [hswap] at hlt hcopied
    simp only [wp_modifyProc, wp_onProc, Machine.setProc_proc, Function.update_self, honly.proc, hchild]
    refine wp_post (copyMetaData_spec hidx hl ⟨fun i hi => hunl.links i hi, hunl.head⟩) ?_
    rintro _ pr' ⟨hsame, hram, hdisk, hoff⟩
    rw [Machine.setProc_setProc]
    refine .of_metaData hne hl hsame hram hdisk (fun s hs => ?_) (fun s hs hav => ?_) ?_ ?_
    · simp [hoff, Proc.setOffsets, hs]
    · obtain ⟨-, hend⟩ := hslots s hs hav
      have hst : pgsize * (s + 1) ≤ pgsize * t := by omega
      have hst' : s + 1 ≤ t := Nat.le_of_mul_le_mul_left hst pgsize_pos
      refine ⟨?_, fun k hk => ?_⟩
      · refine le_trans (Nat.mul_le_mul_left pgsize ?_) hcopied.size
        omega
      · refine hcopied.data _ ?_ ?_ ?_
        · simp only [pgsize] at *
          omega
        · simp only [pgsize, swapSlots] at *
          omega
        · simp only [pgsize] at *
          omega
    · rw [honly.proc, hfather]
    · rw [honly.swap father hne, hswap]

/-- The sample process with 18 pages, two of them in its swap file, and a fresh process 4. -/
@[irreducible]
def swappedFather : Machine :=
  let m := final (growproc (sampleConfig .SCFIFO) 3 (15 * pgsize)) (sample (sampleConfig .SCFIFO) 40)
  m.setProc 4 ((m.proc 4).initMetaData (sampleConfig .SCFIFO))

theorem initMetaData_idem (c : Config) (pr : Proc) :
    (pr.initMetaData c).initMetaData c = pr.initMetaData c := by
  simp only [Proc.initMetaData]
  congr 1
  · funext i
    by_cases hi : i < maxTotalPages
    · simp only [if_pos hi, PageLink.init]
      cases c.selection <;> rfl
    · simp only [if_neg hi]
  · funext s
    split <;> rfl

theorem swappedFather_fresh :
    swappedFather.proc 4 = (swappedFather.proc 4).initMetaData (sampleConfig .SCFIFO) := by
  unfold swappedFather
  simp only [Machine.setProc_proc, Function.update_self]
  exact (initMetaData_idem _ _).symm

instance (pr : Proc) : Decidable pr.Indexed := inferInstanceAs (Decidable (∀ i < _, _))

/-- The sample process has pages in its swap file, and is copied. -/
theorem deepCopyProc_copies_swapped :
    (swappedFather.proc 3).availableOffsets 1 = true ∧
    wp (deepCopyProc 3 4) (fun _ m' => DeepCopied 3 4 swappedFather m') noStop swappedFather := by
  have hfacts : (swappedFather.proc 3).availableOffsets 1 = true ∧ (swappedFather.proc 3).Indexed ∧
      (∀ i < maxTotalPages, ∀ j ∈ (swappedFather.proc 3).next i, j < maxTotalPages) ∧
      (∀ i < maxTotalPages, ∀ j ∈ (swappedFather.proc 3).prev i, j < maxTotalPages) ∧
      (∀ j ∈ (swappedFather.proc 3).pageListHeadRam, j < maxTotalPages) ∧
      (∀ s < swapSlots, (swappedFather.proc 3).availableOffsets s = true →
        (swappedFather.proc 3).swapFile ≠ none ∧ pgsize * (s + 1) ≤ (swappedFather.swap 3).size) ∧
      (swappedFather.swap 3).size ≤ maxfile * bsize ∧ swappedFather.ftable 50 = 0 ∧
      swappedFather.ncli = 0 := by
    unfold swappedFather
    decide +kernel
  obtain ⟨hslot, hidx, hnext, hprev, hhead, hslots, hsize, hfd, hlock⟩ := hfacts
  exact ⟨hslot, deepCopyProc_copies (by decide) hidx ⟨hnext, hprev, hhead⟩ hslots hsize
    swappedFather_fresh ⟨50, by decide, hfd⟩ fun _ => hlock⟩

end Xv6Paging
