import Xv6Paging.Swap

/-! # User address spaces (`allocuvm`, `deallocuvm`, `copyuvm` and friends of `vm.c`)

    Growing, shrinking, copying and releasing the user half of a page directory.
    `p` is the running process, `myproc()`, whose pid is `p`; `d` is the
    directory worked on, which need not be the one of `p`.
-/

namespace Xv6Paging

/-! ## Shrinking -/

/-- `PGADDR(PDX(a) + 1, 0, 0)`: the first address behind the page table of `a`. -/
def nextTable (a : Nat) : Nat := (pdx a + 1) * (nptentries * pgsize) % 2 ^ 32

/-- The first page behind the page table of page `v`. -/
theorem nextTable_mul (hv : v < nuserPages) :
    nextTable (pgsize * v) = pgsize * (nptentries * (v / nptentries + 1)) := by
  simp only [nextTable, pdx, pgsize_mul_div]
  simp only [nptentries, pgsize, nuserPages] at *
  omega

/-- A page that is in RAM goes: its frame, its PTE, and its entry when the
    process works on its own directory. Returns `pageFound`, which no turn of
    the loop resets; with a stale value the entry behind the array is taken. -/
def deallocPresent (c : Config) (p d a v : Nat) (found : Bool) : K Bool := do
  let pte ← getPte d v
  if pte.frame = 0 then
    throw (.panic "kfree (deallocuvm)")
  else
    kfree c pte.frame
    setPte d v Pte.zero
    let pr ← getProc p
    if c.selection ≠ .NONE ∧ pr.pgdir = d then
      match pr.findPage a with
      | some i => do
        deletePage p i
        pure true
      | none =>
        if found = true then do
          deletePage p maxTotalPages
          pure true
        else
          pure false
    else
      pure found

/-- A page that is in the swap file goes, with its slot. -/
def deallocPaged (p d a v : Nat) (found : Bool) : K Bool := do
  let pr ← getProc p
  match pr.findPage (pteAddr a) with
  | some i => do
    onProc p (dropDiskPage i)
    setPte d v Pte.zero
    pure true
  | none =>
    if found = true then
      throw .wild
    else
      setPte d v Pte.zero
      pure false

/-- The loop of `deallocuvm` from address `a` on. -/
def deallocLoop (c : Config) (p d oldsz : Nat) : Nat → Nat → Bool → K Unit
  | 0, a, _ => if a < oldsz then throw .diverge else pure ()
  | fuel + 1, a, found =>
    if a < oldsz then do
      match ← walkpgdir d a false with
      | none => deallocLoop c p d oldsz fuel (nextTable a) found
      | some v => do
        let pte ← getPte d v
        let pr ← getProc p
        if pte.p = true then do
          let found ← deallocPresent c p d a v found
          deallocLoop c p d oldsz fuel (a + pgsize) found
        else if c.selection ≠ .NONE ∧ pte.pg = true ∧ pr.pgdir = d then do
          let found ← deallocPaged p d a v found
          deallocLoop c p d oldsz fuel (a + pgsize) found
        else
          deallocLoop c p d oldsz fuel (a + pgsize) found
    else
      pure ()

/-- Release the pages from `newsz` up to `oldsz`; returns the new size. -/
def deallocuvm (c : Config) (p d oldsz newsz : Nat) : K Nat := do
  if oldsz ≤ newsz then
    pure oldsz
  else
    deallocLoop c p d oldsz (oldsz / pgsize + 1) (pgroundup newsz) c.pageFound
    pure newsz

/-- Pages that a process of size `sz` has. -/
def npages (sz : Nat) : Nat := (sz + (pgsize - 1)) / pgsize

theorem pgroundup_eq (h : sz + pgsize ≤ 2 ^ 32) : pgroundup sz = pgsize * npages sz := by
  have hmod : (sz + (pgsize - 1)) % 2 ^ 32 = sz + (pgsize - 1) := by
    apply Nat.mod_eq_of_lt
    simp only [pgsize] at *
    omega
  rw [pgroundup, hmod, npages, Nat.mul_comm]

theorem npages_le {sz newsz : Nat} (h : newsz ≤ sz) : npages newsz ≤ npages sz := by
  simp only [npages, pgsize]
  omega

theorem npages_lt_iff (sz w : Nat) : pgsize * w < sz ↔ w < npages sz := by
  simp only [npages, pgsize]
  omega

section Rule

open Wp

variable {c : Config} {p d oldsz newsz n : Nat} {m : Machine} {E : Stop → Machine → Prop}
  {I : Nat → Machine → Prop}

/-- `deallocuvm` over an invariant of the page its loop has come to. -/
theorem wp_deallocuvm_pages (hold : oldsz ≤ kernbase) (hn : npages oldsz = n)
    (hstop : ∀ m, E .diverge m ∧ E .wild m)
    (hskip : ∀ {v m}, v < n → v < nuserPages → I v m → (m.dirs d).table (v / nptentries) = none →
      I (nptentries * (v / nptentries + 1)) m)
    (hpresent : ∀ {v m found}, v < n → v < nuserPages → I v m → (m.dirs d).live = true →
      (m.dirs d).table (v / nptentries) ≠ none → ((m.dirs d).pte v).p = true →
      wp (deallocPresent c p d (pgsize * v) v found) (fun _ m' => I (v + 1) m') E m)
    (hpaged : ∀ {v m found}, v < n → v < nuserPages → I v m →
      (m.dirs d).table (v / nptentries) ≠ none → ((m.dirs d).pte v).p = false →
      ((m.dirs d).pte v).pg = true ∧ (m.proc p).pgdir = d →
      wp (deallocPaged p d (pgsize * v) v found) (fun _ m' => I (v + 1) m') E m)
    (hnone : ∀ {v m}, v < n → v < nuserPages → I v m → ((m.dirs d).pte v).p = false →
      ¬ (c.selection ≠ .NONE ∧ ((m.dirs d).pte v).pg = true ∧ (m.proc p).pgdir = d) → I (v + 1) m)
    (h : I (npages newsz) m) :
    wp (deallocuvm c p d oldsz newsz) (fun r m' =>
      r = (if oldsz ≤ newsz then oldsz else newsz) ∧ ∃ w, n ≤ w ∧ I w m') E m := by
  have hmax : n ≤ nuserPages := by
    simp only [← hn, npages, kernbase, pgsize, nuserPages] at *
    omega
  have hloop : ∀ {fuel v m found}, I v m →
      wp (deallocLoop c p d oldsz fuel (pgsize * v) found) (fun _ m' => ∃ w, n ≤ w ∧ I w m') E m := by
    intro fuel
    induction fuel with
    | zero =>
      intro v m found h
      simp only [deallocLoop, wp_ite, wp_throw, wp_pure, npages_lt_iff, hn]
      exact ⟨fun _ => (hstop m).1, fun hlt => ⟨v, not_lt.mp hlt, h⟩⟩
    | succ fuel ih =>
      intro v m found h
      have hnext : pgsize * v + pgsize = pgsize * (v + 1) := by rw [Nat.mul_succ]
      rw [deallocLoop, wp_ite, npages_lt_iff, hn]
      refine ⟨fun hlt => ?_, fun hlt => ⟨v, not_lt.mp hlt, h⟩⟩
      have hv := hlt.trans_le hmax
      rw [wp_bind, wp_walkpgdir, pdx, pgsize_mul_div]
      refine ⟨fun hl => ⟨fun ht => ?_, fun ht => ?_⟩, fun _ => (hstop m).2⟩
      · rw [nextTable_mul hv]
        exact ih (hskip hlt hv h ht)
      · simp only [vpn_mul, wp_bind, wp_getPte, wp_getProc, wp_ite, hnext, Bool.not_eq_true]
        refine ⟨fun hp => ?_, fun hp => ⟨fun hpg => ?_, fun hno => ih (hnone hlt hv h hp hno)⟩⟩
        · exact wp_post (hpresent hlt hv h hl ht hp) fun _ _ h' => ih h'
        · exact wp_post (hpaged hlt hv h ht hp hpg.2) fun _ _ h' => ih h'
  rw [deallocuvm, wp_ite]
  refine ⟨fun hle => ?_, fun hlt => ?_⟩
  · rw [wp_pure, if_pos hle]
    exact ⟨rfl, _, hn ▸ npages_le hle, h⟩
  · have hround : pgroundup newsz = pgsize * npages newsz :=
      pgroundup_eq (by simp only [kernbase, pgsize] at *; omega)
    rw [wp_bind, hround, if_neg hlt]
    exact wp_post (hloop h) fun _ _ h' => ⟨rfl, h'⟩

end Rule

/-- Release a directory with all its user pages and page tables. -/
def freevm (c : Config) (p d : Nat) : K Unit := do
  if d = 0 then
    throw (.panic "freevm: no pgdir")
  else
    modify fun m => { m with globalPgdir := some d }
    let _ ← deallocuvm c p d kernbase 0
    freeTables c d (List.range npdentries)
    modify fun m => { m with globalPgdir := none }
    modify fun m => m.setDir d { m.dirs d with live := false }
    kfree c d

/-! ## Creating and growing -/

/-- A new directory with the kernel half mapped. -/
def setupkvm (c : Config) (p : Nat) : K (Option Nat) := do
  match ← kalloc with
  | none => pure none
  | some d => do
    modify fun m => m.setDir d (PageDir.fresh c)
    let ok ← mapKernel d kmapSlots
    if ok = true then
      pure (some d)
    else
      freevm c p d
      pure none

/-- Is the process one whose pages are tracked and swapped? -/
def Config.pages (c : Config) (p : Nat) : Prop := c.selection ≠ .NONE ∧ 2 < p

instance (c : Config) (p : Nat) : Decidable (c.pages p) := inferInstanceAs (Decidable (_ ∧ _))

/-- Create the swap file if the process has none. -/
def ensureSwapFile (p : Nat) : K Unit := do
  let pr ← getProc p
  if pr.swapFile = none then
    createSwapFile p
  else
    pure ()

/-- Evict a page when the process has `MAX_PSYC_PAGES` in RAM; `false` when
    `allocuvm` gives up. -/
def makeRoom (c : Config) (p : Nat) : K Bool := do
  if c.pages p then
    let pr ← getProc p
    if pr.numPagesRam = maxPsycPages then
      if pr.numPagesDisk + maxPsycPages = maxTotalPages then
        pure false
      else
        ensureSwapFile p
        match ← choosePageToSwap c p with
        | none => throw .nullDeref
        | some i => moveToDisk c p i
    else
      pure true
  else
    pure true

/-- One turn of the loop of `allocuvm`, for the page at `a`; `false` is `return 0`.
    Only the failures behind `makeRoom` release what earlier turns mapped. -/
def allocPage (c : Config) (p d oldsz newsz a : Nat) : K Bool := do
  let room ← makeRoom c p
  if room = true then
    match ← kalloc with
    | none => do
      let _ ← deallocuvm c p d newsz oldsz
      pure false
    | some f => do
      modify fun m => m.setMem f Page.zero
      let ok ← mappages d a f Pte.wu
      if ok = true then
        if c.pages p then
          onProc p (addPageToRam c a)
        else
          pure ()
        pure true
      else
        let _ ← deallocuvm c p d newsz oldsz
        kfree c f
        pure false
  else
    pure false

/-- The loop of `allocuvm`, `k` turns from address `a` on. -/
def allocLoop (c : Config) (p d oldsz newsz : Nat) : Nat → Nat → K Nat
  | 0, _ => pure newsz
  | k + 1, a => do
    let ok ← allocPage c p d oldsz newsz a
    if ok = true then
      allocLoop c p d oldsz newsz k (a + pgsize)
    else
      pure 0

/-- Map zeroed pages from `oldsz` up to `newsz`; returns the new size, `0` on error. -/
def allocuvm (c : Config) (p d oldsz newsz : Nat) : K Nat := do
  if kernbase ≤ newsz then
    pure 0
  else if newsz < oldsz then
    pure oldsz
  else
    let a := pgroundup oldsz
    allocLoop c p d oldsz newsz ((newsz - a + (pgsize - 1)) / pgsize) a

def Proc.setSz (pr : Proc) (sz : Nat) : Proc := { pr with sz := sz }

/-- Change the size of the running process by `n` bytes; `false` is `-1`. -/
def growproc (c : Config) (p : Nat) (n : Int) : K Bool := do
  let pr ← getProc p
  let newsz := ((pr.sz + n) % 2 ^ 32).toNat
  if 0 < n then
    let sz ← allocuvm c p pr.pgdir pr.sz newsz
    if sz = 0 then
      pure false
    else
      modifyProc p fun pr => pr.setSz sz
      pure true
  else if n < 0 then
    let sz ← deallocuvm c p pr.pgdir pr.sz newsz
    if sz = 0 then
      pure false
    else
      modifyProc p fun pr => pr.setSz sz
      pure true
  else
    pure true

/-! ## Copying -/

/-- The entry both parent and child get for a present page: `PTE_W` becomes
    `PTE_COW`. -/
def Pte.share (pte : Pte) : Pte :=
  if pte.w = true then { pte with w := false, cow := true } else pte

/-- The loop of `copyuvm` over `k` pages from page `v` on; `false` is `goto bad`. -/
def copyuvmLoop (c : Config) (d d' : Nat) : Nat → Nat → K Bool
  | 0, _ => pure true
  | k + 1, v => do
    match ← walkpgdir d (v * pgsize) false with
    | none => throw (.panic "copyuvm: pte should exist")
    | some v => do
      let pte ← getPte d v
      if pte.p = true then do
        setPte d v pte.share
        let ok ← mappages d' (v * pgsize) pte.frame pte.share
        if ok = true then
          incrementRef c pte.frame
          copyuvmLoop c d d' k (v + 1)
        else
          pure false
      else if pte.pg = true then do
        match ← walkpgdir d' (v * pgsize) true with
        | none => throw .nullDeref
        | some v' => do
          setPte d' v' { pte with frame := 0 }
          copyuvmLoop c d d' k (v + 1)
      else
        throw (.panic "copyuvm COW: page not present in RAM or swap file")

/-- The child's address space, sharing the parent's frames. -/
def copyuvm (c : Config) (p d sz : Nat) : K (Option Nat) := do
  match ← setupkvm c p with
  | none => pure none
  | some d' => do
    let ok ← copyuvmLoop c d d' ((sz + (pgsize - 1)) / pgsize) 0
    if ok = true then
      pure (some d')
    else
      freevm c p d'
      pure none

end Xv6Paging
