import Xv6Paging.Machine

/-! # Swap files (`file.c`, `log.c` and the end of `fs.c`)

    The swap file of a process is the regular file `/.swap<pid>`. A regular file
    is a size and its bytes; `writei` accepts a write only at an offset within
    the file and below `MAXFILE*BSIZE`. `filewrite` cuts a write into chunks,
    each in a log transaction of its own.
-/

namespace Xv6Paging

variable {ip : Inode} {src : Nat → UInt8} {i n n1 off p : Nat} {m : Machine}
  {E : Stop → Machine → Prop} {α : Type} {k : Bool → K α} {Q : α → Machine → Prop}

/-! ## Log transactions -/

/-- Record in `nested` whether the process has an operation open already. -/
@[simps -fullyApplied]
def Machine.noteOp (m : Machine) : Machine :=
  { m with nested := m.nested || decide (0 < m.opDepth) }

@[simps -fullyApplied]
def Machine.setDepth (m : Machine) (k : Nat) : Machine := { m with opDepth := k }

def beginOp : K Unit := modify fun m => m.noteOp.setDepth (m.opDepth + 1)

/-- `sched`'s check as `sleep` reaches it from `iderw`, which holds `idelock`:
    no other spinlock may be held. -/
def iderw : K Unit := do
  let m ← get
  if m.ncli = 0 then
    pure ()
  else
    throw (.panic "sched locks")

/-- `end_op` of a process that runs alone: the last one commits, which waits
    for the disk. -/
def endOp : K Unit := do
  modify fun m => m.setDepth (m.opDepth - 1)
  let m ← get
  if m.opDepth = 0 then
    iderw
  else
    pure ()

/-! ## Reading and writing inodes -/

/-- `readi`: the number of bytes read, `none` for `-1`. -/
def Inode.readi (ip : Inode) (off n : Nat) : Option Nat :=
  if ip.size < off ∨ 2 ^ 32 ≤ off + n then
    none
  else if ip.size < off + n then
    some (ip.size - off)
  else
    some n

/-- `writei` of the `n` bytes of `src`; `none` for `-1`. -/
def Inode.writei (ip : Inode) (src : Nat → UInt8) (off n : Nat) : Option Inode :=
  if ip.size < off ∨ 2 ^ 32 ≤ off + n then
    none
  else if maxfile * bsize < off + n then
    none
  else
    some {
      size := if 0 < n ∧ ip.size < off + n then off + n else ip.size
      data := fun k => if off ≤ k ∧ k < off + n then src (k - off) else ip.data k }

/-- Largest chunk of `filewrite`, `((MAXOPBLOCKS-1-1-2) / 2) * 512`. -/
def filewriteMax : Nat := 1536

/-- The loop of `filewrite` on an inode: `writei` is given the position and the
    length of each chunk, and runs inside a transaction. -/
def filewriteLoop (writei : Nat → Nat → K Bool) (n : Nat) : Nat → Nat → K Bool
  | 0, i => pure (i == n)
  | fuel + 1, i =>
    if i < n then do
      let n1 := min (n - i) filewriteMax
      beginOp
      let ok ← writei i n1
      endOp
      if ok = true then
        filewriteLoop writei n fuel (i + n1)
      else
        pure false
    else
      pure (i == n)

/-- `filewrite` of `n` bytes; `false` is `-1`. -/
def filewrite (writei : Nat → Nat → K Bool) (n : Nat) : K Bool :=
  filewriteLoop writei n n 0

/-! ## The swap file of a process -/

/-- One `writei` to the swap file of `p`. -/
def swapWritei (p : Nat) (src : Nat → UInt8) (off n : Nat) : K Bool := do
  let m ← get
  match (m.swap p).writei src off n with
  | none => pure false
  | some ip =>
    set (m.setSwap p ip)
    pure true

/-- Write the bytes of `src` at `placeOnFile`. `p->swapFile` is dereferenced
    without a check. -/
def writeToSwapFile (p : Nat) (src : Nat → UInt8) (placeOnFile size : Nat) : K Bool := do
  let pr ← getProc p
  match pr.swapFile with
  | none => throw .nullDeref
  | some _ => filewrite (fun i n1 => swapWritei p (fun k => src (i + k)) (placeOnFile + i) n1) size

/-- Read at `placeOnFile`: the number of bytes read, `none` for `-1`. -/
def readFromSwapFile (p placeOnFile size : Nat) : K (Option Nat) := do
  let pr ← getProc p
  match pr.swapFile with
  | none => throw .nullDeref
  | some _ =>
    let m ← get
    pure ((m.swap p).readi placeOnFile size)

@[simps -fullyApplied]
def Machine.setFtable (m : Machine) (fd k : Nat) : Machine :=
  { m with ftable := Function.update m.ftable fd k }

/-- First free entry of `ftable`. -/
def filealloc : K (Option Nat) := do
  let m ← get
  match (List.range nfile).find? (fun i => m.ftable i == 0) with
  | none => pure none
  | some i =>
    set (m.setFtable i 1)
    pure (some i)

def Proc.setSwapFile (pr : Proc) (fd : Option Nat) : Proc := { pr with swapFile := fd }

/-- `create` finds the file of an earlier life of the process or makes an empty
    one; the inode of the model is the same in both cases. -/
def createSwapFile (p : Nat) : K Unit := do
  beginOp
  match ← filealloc with
  | none => throw (.panic "no slot for files on /store")
  | some i =>
    modifyProc p fun pr => pr.setSwapFile (some i)
    endOp

/-! ## What a write leaves -/

section Rules

open Wp

/-- The file after the first `n` bytes of `src` have been written at `off`. -/
def Inode.wrote (ip : Inode) (src : Nat → UInt8) (off n : Nat) : Inode where
  size := if ip.size < off + n then off + n else ip.size
  data := fun k => if off ≤ k ∧ k < off + n then src (k - off) else ip.data k

theorem Inode.wrote_zero (h : off ≤ ip.size) :
    ip.wrote src off 0 = ip := by
  have hsize : ¬ ip.size < off := by omega
  have hdata : ∀ k, ¬ (off ≤ k ∧ k < off) := by intro k; omega
  simp [Inode.wrote, hsize, hdata]

/-- One more chunk. -/
theorem Inode.writei_wrote (ip : Inode) (src : Nat → UInt8) (hn : 0 < n1)
    (hmax : off + i + n1 ≤ maxfile * bsize) :
    (ip.wrote src off i).writei (fun k => src (i + k)) (off + i) n1 =
      some (ip.wrote src off (i + n1)) := by
  simp only [maxfile, bsize] at hmax
  have h1 : ¬ ((ip.wrote src off i).size < off + i ∨ 2 ^ 32 ≤ off + i + n1) := by
    simp only [Inode.wrote]
    split <;> omega
  have h2 : ¬ maxfile * bsize < off + i + n1 := by simp only [maxfile, bsize]; omega
  simp only [Inode.writei, h1, h2, if_false, Option.some.injEq]
  simp only [Inode.wrote, Inode.mk.injEq]
  refine ⟨?_, ?_⟩
  · split <;> split <;> split <;> omega
  · funext k
    by_cases hk : off + i ≤ k ∧ k < off + i + n1
    · have hk' : off ≤ k ∧ k < off + (i + n1) := by omega
      rw [if_pos hk, if_pos hk']
      congr 1
      omega
    · rw [if_neg hk]
      by_cases hk' : off ≤ k ∧ k < off + i
      · rw [if_pos hk', if_pos (by omega)]
      · rw [if_neg hk', if_neg (by omega)]

theorem Machine.noteOp_of_zero (h : m.opDepth = 0) : m.noteOp = m := by
  cases m
  simp_all [Machine.noteOp]

theorem Machine.noteOp_noteOp (m : Machine) : m.noteOp.noteOp = m.noteOp := by
  have h : ((m.nested || decide (0 < m.opDepth)) || decide (0 < m.opDepth)) =
      (m.nested || decide (0 < m.opDepth)) := by
    rw [Bool.or_assoc, Bool.or_self]
  exact congrArg (fun b => { m with nested := b }) h

theorem wp_beginOp (Q : Unit → Machine → Prop) :
    wp beginOp Q E m ↔ Q () (m.noteOp.setDepth (m.opDepth + 1)) := Iff.rfl

theorem wp_endOp {k : Nat} (Q : Unit → Machine → Prop) (hk : m.opDepth = k + 1)
    (h : k = 0 → m.ncli = 0) :
    wp endOp Q E m ↔ Q () (m.setDepth k) := by
  simp only [endOp, iderw, wp_bind, wp_modify, wp_get, wp_ite, wp_pure, wp_throw, hk,
    Nat.add_sub_cancel, Machine.setDepth_opDepth, Machine.setDepth_ncli]
  by_cases h0 : k = 0
  · simp [h0, h h0]
  · simp [h0]

theorem wp_swapWritei (Q : Bool → Machine → Prop) (h : (m.swap p).writei src off n = some ip) :
    wp (swapWritei p src off n) Q E m ↔ Q true (m.setSwap p ip) := by
  simp only [swapWritei, wp_bind, wp_get, h]
  exact Iff.rfl

theorem setSwap_setSwap (m : Machine) (p : Nat) (ip ip' : Inode) :
    (m.setSwap p ip).setSwap p ip' = m.setSwap p ip' := by
  simp [Machine.setSwap]

section Unlocked

variable (hlock : m.opDepth = 0 → m.ncli = 0)

include hlock

/-- One chunk: a transaction around a `writei` to the swap file. -/
theorem chunk_spec (hn : 0 < n1) (hmax : off + i + n1 ≤ maxfile * bsize) (hip : m.swap p = ip.wrote src off i)
    (h : wp (k true) Q E (m.noteOp.setSwap p (ip.wrote src off (i + n1)))) :
    wp (do
      beginOp
      let ok ← swapWritei p (fun k => src (i + k)) (off + i) n1
      endOp
      k ok) Q E m := by
  have hw := Inode.writei_wrote ip src hn hmax
  rw [← hip] at hw
  simp only [wp_bind, wp_beginOp]
  rw [wp_swapWritei _ (by simpa using hw), wp_endOp (k := m.opDepth) _ (by rfl) (by exact hlock)]
  exact h

/-- A chunk that does not fit into the file. -/
theorem chunk_full (hmax : maxfile * bsize < off + n1) (h : wp (k false) Q E m.noteOp) :
    wp (do
      beginOp
      let ok ← swapWritei p src off n1
      endOp
      k ok) Q E m := by
  have hw : ∀ ip : Inode, ip.writei src off n1 = none := by
    intro ip
    rw [Inode.writei, if_pos hmax, ite_self]
  simp only [wp_bind, wp_beginOp, swapWritei, wp_get, hw, wp_pure]
  rw [wp_endOp (k := m.opDepth) _ (by rfl) (by exact hlock)]
  exact h

/-- The loop of `filewrite` on a swap file, with `i` bytes written already: the first `j` bytes
    are written, and all of them if they fit into the file. -/
theorem filewriteLoop_swap {fuel : Nat}
    (hip : m.swap p = ip.wrote src off i) (hi : i ≤ n) (hfuel : n - i ≤ fuel) (hnote : i = n → m.noteOp = m) :
    wp (filewriteLoop (fun i n1 => swapWritei p (fun k => src (i + k)) (off + i) n1) n fuel i)
      (fun r m' => ∃ j ≤ n, m' = m.noteOp.setSwap p (ip.wrote src off j) ∧
        (off + n ≤ maxfile * bsize → r = true ∧ j = n)) noStop m := by
  induction fuel generalizing i m with
  | zero =>
    have hin : i = n := by omega
    subst hin
    rw [filewriteLoop, wp_pure]
    exact ⟨i, le_rfl, by simp [hnote rfl, ← hip, Machine.setSwap], fun _ => by simp⟩
  | succ fuel ih =>
    by_cases hlt : i < n
    · have hn1 : 0 < min (n - i) filewriteMax := by simp only [filewriteMax]; omega
      simp only [filewriteLoop, hlt, if_true]
      by_cases hmax : off + i + min (n - i) filewriteMax ≤ maxfile * bsize
      · refine chunk_spec hlock hn1 hmax hip ?_
        rw [if_pos rfl]
        have hnote' : (m.noteOp.setSwap p (ip.wrote src off (i + min (n - i) filewriteMax))).noteOp =
            m.noteOp.setSwap p (ip.wrote src off (i + min (n - i) filewriteMax)) :=
          congrArg (fun m' : Machine => m'.setSwap p _) m.noteOp_noteOp
        refine wp_post (ih hlock ?_ (by omega) (by omega) (fun _ => hnote')) ?_
        · simp
        · rintro r m' ⟨j, hj, hm', hres⟩
          rw [hnote', setSwap_setSwap] at hm'
          exact ⟨j, hj, hm', hres⟩
      · refine chunk_full hlock (by omega) ?_
        simp only [Bool.false_eq_true, if_false, wp_pure]
        refine ⟨i, hi, ?_, fun hfit => absurd hfit (by omega)⟩
        rw [← hip]
        simp [Machine.setSwap, Machine.noteOp]
    · have hin : i = n := by omega
      subst hin
      simp only [filewriteLoop, hlt, if_false, wp_pure]
      exact ⟨i, le_rfl, by simp [hnote rfl, ← hip, Machine.setSwap], fun _ => by simp⟩

/-- Writing a page at an offset within the swap file: all of it, if it fits into the largest
    file, or else a first part. -/
theorem writeToSwapFile_upTo (hfile : (m.proc p).swapFile ≠ none) (hoff : off ≤ (m.swap p).size) :
    wp (writeToSwapFile p src off pgsize) (fun r m' => ∃ j ≤ pgsize,
      m' = m.noteOp.setSwap p ((m.swap p).wrote src off j) ∧
      (off + pgsize ≤ maxfile * bsize → r = true ∧ j = pgsize)) noStop m := by
  obtain ⟨fd, hfd⟩ := Option.ne_none_iff_exists'.mp hfile
  simp only [writeToSwapFile, filewrite, wp_bind, wp_getProc, hfd]
  exact filewriteLoop_swap hlock (Inode.wrote_zero hoff).symm (Nat.zero_le _) le_rfl
    (fun h0 => absurd h0 (by decide))

/-- Writing a page that fits. -/
theorem writeToSwapFile_spec (hfile : (m.proc p).swapFile ≠ none) (hoff : off ≤ (m.swap p).size)
    (hmax : off + pgsize ≤ maxfile * bsize) : wp (writeToSwapFile p src off pgsize)
      (fun r m' => r = true ∧ m' = m.noteOp.setSwap p ((m.swap p).wrote src off pgsize)) noStop m := by
  refine wp_post (writeToSwapFile_upTo hlock hfile hoff) ?_
  rintro r m' ⟨j, -, rfl, hres⟩
  obtain ⟨hr, rfl⟩ := hres hmax
  exact ⟨hr, rfl⟩

/-- Creating the swap file takes a free entry of `ftable`. -/
theorem createSwapFile_spec (hfree : ∃ fd < nfile, m.ftable fd = 0) : wp (createSwapFile p) (fun _ m' => ∃ fd,
      m' = (m.noteOp.setFtable fd 1).setProc p ((m.proc p).setSwapFile (some fd))) noStop m := by
  simp only [createSwapFile, filealloc, wp_bind, wp_beginOp, wp_get]
  cases hfd : (List.range nfile).find? fun i =>
      (m.noteOp.setDepth (m.opDepth + 1)).ftable i == 0 with
  | none =>
    obtain ⟨fd, hlt, hzero⟩ := hfree
    have := List.find?_eq_none.mp hfd fd (List.mem_range.mpr hlt)
    simp [hzero] at this
  | some fd =>
    simp only [wp_bind, wp_set, wp_pure, wp_modifyProc]
    rw [wp_endOp (k := m.opDepth) _ (by rfl) (by exact hlock)]
    exact ⟨fd, rfl⟩

end Unlocked

end Rules

end Xv6Paging
