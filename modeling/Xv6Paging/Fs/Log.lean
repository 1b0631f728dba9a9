import Xv6Paging.Lib.Run

/-! # The write-ahead log (`log.c`, `bio.c`)

    File-system code changes blocks in the buffer cache and calls `log_write`, which
    records the block number and pins the buffer. When the last operation ends, `commit`
    copies the recorded blocks to the log area, writes the header, installs the blocks at
    their home locations and clears the header. After a crash `recover_from_log` installs
    what a written header names.

    A block of the disk is one sector and is written at once. Power may fail between two
    writes: `budget` is the number of writes that still reach the disk, and the write after
    them stops the machine. A statement for every `budget` is one for every prefix of the
    writes, and the error condition of a triple is what a crash leaves.
-/

namespace Xv6Paging.Log

open List Wp Function

variable {bs lh : List Nat} {b : Nat}

/-! ## Blocks, buffers and the disk -/

/-- `LOGSIZE`. -/
def logsize : Nat := 30

/-- `MAXOPBLOCKS`. -/
def maxopblocks : Nat := 10

/-- The contents of a block, by 32-bit words. -/
abbrev Block : Type := Nat → Nat

abbrev Disk : Type := Nat → Block

/-- `struct buf`; a dirty buffer is pinned until it has been written. -/
structure Buf where
  data : Block
  dirty : Bool

/-- Where `initlog` finds the log. -/
structure Layout where
  start : Nat
  size : Nat
  deriving DecidableEq, Repr

/-- Header and blocks of the log on disk. -/
def Layout.area (lay : Layout) (b : Nat) : Prop := lay.start ≤ b ∧ b < lay.start + lay.size

instance (lay : Layout) (b : Nat) : Decidable (lay.area b) := inferInstanceAs (Decidable (_ ∧ _))

structure State where
  disk : Disk
  /-- Buffers that hold a block. -/
  cache : Nat → Option Buf
  /-- The block whose buffer `bget` takes over at each miss. -/
  victim : Nat → Nat
  misses : Nat
  /-- `log.lh.block[0..n]`. -/
  lh : List Nat
  outstanding : Nat
  committing : Bool
  /-- Writes that reach the disk before power fails. -/
  budget : Nat

/-- Why the file system stops. -/
inductive Halt where
  | crash
  | panic (msg : String)
  deriving DecidableEq, Repr

abbrev D : Type → Type := EStateM Halt State

namespace State

/-- Is there a buffer for block `b` that `bget` may take over? -/
def clean (s : State) (b : Nat) : Bool := (s.cache b).any fun buf => !buf.dirty

/-- `bget` takes over a buffer that is not dirty. -/
@[simps -fullyApplied]
def recycle (s : State) : State :=
  { s with
    cache := if s.clean (s.victim s.misses) then
      update s.cache (s.victim s.misses) none else s.cache
    misses := s.misses + 1 }

@[simps -fullyApplied]
def setBuf (s : State) (b : Nat) (buf : Buf) : State :=
  { s with cache := update s.cache b (some buf) }

@[simps -fullyApplied]
def setDisk (s : State) (b : Nat) (data : Block) : State :=
  { s with disk := update s.disk b data, budget := s.budget - 1 }

@[simps -fullyApplied]
def setLh (s : State) (lh : List Nat) : State := { s with lh := lh }

/-- What a reader of block `b` finds. -/
def view (s : State) (b : Nat) : Block :=
  match s.cache b with
  | none => s.disk b
  | some buf => buf.data

end State

/-- The contents of a block, from its buffer or from the disk. -/
def bread (b : Nat) : D Block := do
  let s ← get
  match s.cache b with
  | some buf => pure buf.data
  | none =>
    set (s.recycle.setBuf b ⟨s.disk b, false⟩)
    pure (s.disk b)

/-- Write a buffer to the disk; it is clean afterwards. -/
def bwrite (b : Nat) (data : Block) : D Unit := do
  let s ← get
  if s.budget = 0 then
    throw .crash
  else
    set ((s.setBuf b ⟨data, false⟩).setDisk b data)

/-! ## The header -/

/-- `n` is the first word of `struct logheader`, the block numbers follow. -/
def headerBlocks (hb : Block) : List Nat := (List.range (hb 0)).map fun i => hb (i + 1)

/-- Write `n` and the first `n` entries; the other words stay. -/
def setHeader (hb : Block) (lh : List Nat) : Block := fun w =>
  if w = 0 then lh.length
  else if w ≤ lh.length then lh.getD (w - 1) 0
  else hb w

@[simp] theorem headerBlocks_setHeader (hb : Block) (lh : List Nat) :
    headerBlocks (setHeader hb lh) = lh := by
  unfold headerBlocks
  apply ext_getElem
  · simp [setHeader]
  · intro i h1 h2
    simp [setHeader, h2]

/-! ## Commit and recovery -/

section Code

variable (lay : Layout)

/-- The loop of `write_log`. -/
def writeLogFrom : Nat → List Nat → D Unit
  | _, [] => pure ()
  | tail, b :: bs => do
    let _ ← bread (lay.start + tail + 1)
    let data ← bread b
    bwrite (lay.start + tail + 1) data
    writeLogFrom (tail + 1) bs

/-- Copy modified blocks from the cache to the log. -/
def writeLog : D Unit := do
  let s ← get
  writeLogFrom lay 0 s.lh

/-- The loop of `install_trans`. -/
def installFrom : Nat → List Nat → D Unit
  | _, [] => pure ()
  | tail, b :: bs => do
    let data ← bread (lay.start + tail + 1)
    let _ ← bread b
    bwrite b data
    installFrom (tail + 1) bs

/-- Copy committed blocks from the log to their home locations. -/
def installTrans : D Unit := do
  let s ← get
  installFrom lay 0 s.lh

def readHead : D Unit := do
  let hb ← bread lay.start
  modify fun s => s.setLh (headerBlocks hb)

def writeHead : D Unit := do
  let hb ← bread lay.start
  let s ← get
  bwrite lay.start (setHeader hb s.lh)

def recoverFromLog : D Unit := do
  readHead lay
  installTrans lay
  modify fun s => s.setLh []
  writeHead lay

def commit : D Unit := do
  let s ← get
  if 0 < s.lh.length then
    writeLog lay
    writeHead lay
    installTrans lay
    modify fun s => s.setLh []
    writeHead lay
  else
    pure ()

end Code

/-! ## Operations -/

/-- The checks at the entry of `log_write`, made without the lock. -/
def logCheck (lay : Layout) : D Unit := do
  let s ← get
  if logsize ≤ s.lh.length ∨ lay.size - 1 ≤ s.lh.length then
    throw (.panic "too big a transaction")
  else if s.outstanding < 1 then
    throw (.panic "log_write outside of trans")
  else
    pure ()

/-- The header after `b` has been logged; a block is recorded once. -/
def absorb (lh : List Nat) (b : Nat) : List Nat := if b ∈ lh then lh else lh ++ [b]

theorem mem_absorb : b' ∈ absorb lh b ↔ b' ∈ lh ∨ b' = b := by
  unfold absorb
  split
  · rename_i hin
    exact ⟨.inl, fun hb => hb.elim id fun he => he ▸ hin⟩
  · simp

theorem length_absorb :
    (absorb lh b).length = if b ∈ lh then lh.length else lh.length + 1 := by
  unfold absorb
  split
  · rfl
  · simp

/-- The rest of `log_write`: record the block and pin its buffer, which the caller has
    given new contents. -/
def logAppend (b : Nat) (data : Block) : D Unit :=
  modify fun s => (s.setLh (absorb s.lh b)).setBuf b ⟨data, true⟩

def logWrite (lay : Layout) (b : Nat) (data : Block) : D Unit := do
  logCheck lay
  logAppend b data

/-! ## Views -/

/-- Clean buffers hold what the disk holds. -/
def Coherent (s : State) : Prop := ∀ b buf, s.cache b = some buf → buf.dirty = false → buf.data = s.disk b

/-- Reading changes neither the disk nor what readers find. -/
structure Reads (s s' : State) : Prop where
  coherent : Coherent s'
  disk : s'.disk = s.disk
  view : s'.view = s.view
  lh : s'.lh = s.lh

section Rules

variable {s : State} {E : Halt → State → Prop}

theorem Coherent.recycle (h : Coherent s) : Coherent s.recycle ∧ s.recycle.view = s.view := by
  by_cases hc : s.clean (s.victim s.misses) = true
  · obtain ⟨buf, hbuf, hdirty⟩ : ∃ buf, s.cache (s.victim s.misses) = some buf ∧ buf.dirty = false := by
      simpa [State.clean, Option.any_eq_true] using hc
    have hcache : s.recycle.cache = update s.cache (s.victim s.misses) none := by
      rw [State.recycle_cache, if_pos hc]
    constructor
    · intro b buf' hb hd
      by_cases hv : b = s.victim s.misses
      · simp [hc, hv] at hb
      · rw [hcache, update_of_ne hv] at hb
        exact h b buf' hb hd
    · funext b
      by_cases hv : b = s.victim s.misses
      · subst hv
        simp [State.view, hc, hbuf, h _ buf hbuf hdirty]
      · simp [State.view, hc, hv]
  · have hcache : s.recycle.cache = s.cache := by
      rw [State.recycle_cache, if_neg hc]
    refine ⟨fun b buf hb hd => h b buf (hcache ▸ hb) hd, ?_⟩
    funext b
    simp [State.view, hc]

theorem Coherent.load (h : Coherent s) (hb : s.cache b = none) :
    Reads s (s.recycle.setBuf b ⟨s.disk b, false⟩) := by
  obtain ⟨hr, hv⟩ := h.recycle
  refine ⟨?_, rfl, ?_, rfl⟩
  · intro b' buf hb' hd
    by_cases hbb : b' = b
    · subst hbb
      simp only [State.setBuf_cache, update_self, Option.some.injEq] at hb'
      subst hb'
      rfl
    · rw [State.setBuf_cache, update_of_ne hbb] at hb'
      exact hr b' buf hb' hd
  · funext b'
    by_cases hbb : b' = b
    · subst hbb
      simp [State.view, hb]
    · rw [← congrFun hv b']
      simp [State.view, hbb]

theorem wp_bread (h : Coherent s) (Q : Block → State → Prop)
    (hQ : ∀ s', Reads s s' → s'.budget = s.budget → Q (s.view b) s') : wp (bread b) Q E s := by
  simp only [bread, wp_bind, wp_get]
  cases hc : s.cache b with
  | none =>
    have hview : s.view b = s.disk b := by simp [State.view, hc]
    simp only [wp_bind, wp_set, wp_pure, ← hview]
    exact hQ _ (hview ▸ h.load hc) rfl
  | some buf =>
    have hview : s.view b = buf.data := by simp [State.view, hc]
    simp only [wp_pure, ← hview]
    exact hQ s ⟨h, rfl, rfl, rfl⟩ rfl

/-- What a write leaves. -/
structure Writes (b : Nat) (data : Block) (s s' : State) : Prop where
  coherent : Coherent s'
  disk : s'.disk = update s.disk b data
  view : s'.view = update s.view b data
  lh : s'.lh = s.lh

theorem Writes.after {data : Block} (h : Writes b data s1 s') (h1 : Reads s s1) : Writes b data s s' :=
  ⟨h.coherent, by rw [h.disk, h1.disk], by rw [h.view, h1.view], h.lh.trans h1.lh⟩

theorem wp_bwrite {data : Block} (h : Coherent s) (Q : Unit → State → Prop)
    (hQ : ∀ s', Writes b data s s' → Q () s') (hE : E .crash s) : wp (bwrite b data) Q E s := by
  simp only [bwrite, wp_bind, wp_get, wp_ite, wp_throw, wp_set]
  refine ⟨fun _ => hE, fun _ => hQ _ ⟨?_, rfl, ?_, rfl⟩⟩
  · intro b' buf hb' hd
    by_cases hbb : b' = b
    · subst hbb
      simp only [State.setDisk_cache, State.setBuf_cache, update_self, Option.some.injEq] at hb'
      subst hb'
      simp
    · simp only [State.setDisk_cache, State.setBuf_cache, update_of_ne hbb] at hb'
      rw [State.setDisk_disk, update_of_ne hbb]
      exact h b' buf hb' hd
  · funext b'
    by_cases hbb : b' = b
    · subst hbb
      simp [State.view]
    · simp [State.view, hbb]

end Rules

/-! ## What a crash leaves -/

/-- The log on disk is empty and the home blocks hold `home`. -/
structure Empty (lay : Layout) (home d : Disk) : Prop where
  header : headerBlocks (d lay.start) = []
  home : ∀ b, ¬ lay.area b → d b = home b

/-- The log on disk holds the blocks `bs` with contents `new`; each home block holds its old
    or its new contents. -/
structure Committed (lay : Layout) (old new : Disk) (bs : List Nat) (d : Disk) : Prop where
  header : headerBlocks (d lay.start) = bs
  logged : ∀ i (h : i < bs.length), d (lay.start + i + 1) = new (bs.get ⟨i, h⟩)
  mixed : ∀ b, ¬ lay.area b → d b = old b ∨ b ∈ bs ∧ d b = new b
  rest : ∀ b, ¬ lay.area b → b ∉ bs → new b = old b

/-- The blocks of a transaction fit in the log area and live outside it. -/
structure Fits (lay : Layout) (bs : List Nat) : Prop where
  length : bs.length < lay.size
  home : ∀ b ∈ bs, ¬ lay.area b

section Loops

variable {lay : Layout} {s : State} {new : Disk}

/-- Log blocks are in the log area, and none is the header. -/
theorem Fits.logBlock (h : Fits lay bs) (hi : i < bs.length) : lay.area (lay.start + i + 1) := ⟨by omega, by have := h.length; omega⟩

/-- `write_log` writes the log blocks from `tail` on, and nothing else. -/
theorem wp_writeLogFrom (tail : Nat) (h : Coherent s) (hfit : tail + bs.length < lay.size)
    (hhome : ∀ b ∈ bs, ¬ lay.area b) :
    wp (writeLogFrom lay tail bs)
      (fun _ s' => Coherent s' ∧ s'.lh = s.lh ∧
        (∀ b, (∀ i < bs.length, b ≠ lay.start + (tail + i) + 1) →
          s'.disk b = s.disk b ∧ s'.view b = s.view b) ∧
        ∀ i (hi : i < bs.length), s'.disk (lay.start + (tail + i) + 1) = s.view (bs.get ⟨i, hi⟩) ∧
          s'.view (lay.start + (tail + i) + 1) = s.view (bs.get ⟨i, hi⟩))
      (fun e s' => e = .crash ∧ s'.disk lay.start = s.disk lay.start ∧
        ∀ b, ¬ lay.area b → s'.disk b = s.disk b) s := by
  induction bs generalizing s tail with
  | nil => exact ⟨h, rfl, fun _ _ => ⟨rfl, rfl⟩, fun i hi => absurd hi (Nat.not_lt_zero i)⟩
  | cons b bs ih =>
    have hlen : (b :: bs).length = bs.length + 1 := rfl
    have hne : b ≠ lay.start + tail + 1 := by
      rintro rfl
      exact hhome _ mem_cons_self ⟨by omega, by omega⟩
    unfold writeLogFrom
    rw [wp_bind]
    refine wp_bread h _ fun s1 h1 _ => ?_
    rw [wp_bind]
    refine wp_bread h1.coherent _ fun s2 h2 _ => ?_
    rw [wp_bind]
    refine wp_bwrite h2.coherent _ (fun s3 h3 => ?_) ?_
    · rw [h1.view] at h3
      obtain ⟨-, hdisk, hview, hlh⟩ := (h3.after h2).after h1
      refine wp_mono (ih (tail + 1) h3.coherent (by omega) fun b' hb' => hhome b' (mem_cons_of_mem b hb')) ?_ ?_
      · rintro _ s' ⟨hc, hl, hsame, hlog⟩
        refine ⟨hc, hl.trans hlh, fun b' hb' => ?_, fun i hi => ?_⟩
        · have hb0 : b' ≠ lay.start + tail + 1 := hb' 0 (by omega)
          have hb1 : ∀ i < bs.length, b' ≠ lay.start + (tail + 1 + i) + 1 := by
            intro i hi
            have := hb' (i + 1) (by omega)
            omega
          obtain ⟨hd, hv⟩ := hsame b' hb1
          rw [hd, hv, hdisk, hview, update_of_ne hb0, update_of_ne hb0]
          exact ⟨rfl, rfl⟩
        · cases i with
          | zero =>
            have hb1 : ∀ i < bs.length, lay.start + tail + 1 ≠ lay.start + (tail + 1 + i) + 1 := by
              intro i _
              omega
            obtain ⟨hd, hv⟩ := hsame _ hb1
            show s'.disk (lay.start + tail + 1) = s.view b ∧ s'.view (lay.start + tail + 1) = s.view b
            rw [hd, hv, hdisk, hview, update_self, update_self]
            exact ⟨rfl, rfl⟩
          | succ i =>
            have hi' : i < bs.length := by omega
            have hother : bs.get ⟨i, hi'⟩ ≠ lay.start + tail + 1 := by
              intro he
              refine hhome _ (mem_cons_of_mem b (get_mem bs ⟨i, hi'⟩)) ?_
              rw [he]
              exact ⟨by omega, by omega⟩
            have := hlog i hi'
            rw [hview, update_of_ne hother, show lay.start + (tail + 1 + i) + 1 =
              lay.start + (tail + (i + 1)) + 1 by omega] at this
            exact this
      · rintro e s' ⟨he, hhd, hrest⟩
        refine ⟨he, ?_, fun b' hb' => ?_⟩
        · rw [hhd, hdisk, update_of_ne (by omega)]
        · have hb0 : b' ≠ lay.start + tail + 1 := by
            rintro rfl
            exact hb' ⟨by omega, by omega⟩
          rw [hrest b' hb', hdisk, update_of_ne hb0]
    · have hdisk : s2.disk = s.disk := h2.disk.trans h1.disk
      exact ⟨rfl, by rw [hdisk], fun b' _ => by rw [hdisk]⟩

/-- `install_trans` copies the log blocks from `tail` on to their home locations. -/
theorem wp_installFrom {tail : Nat} (new : Disk) (h : Coherent s)
    (hfit : tail + bs.length < lay.size) (hhome : ∀ b ∈ bs, ¬ lay.area b)
    (hlog : ∀ i (hi : i < bs.length), s.view (lay.start + (tail + i) + 1) = new (bs.get ⟨i, hi⟩)) :
    wp (installFrom lay tail bs)
      (fun _ s' => Coherent s' ∧ ∀ b, s'.disk b = if b ∈ bs then new b else s.disk b)
      (fun e s' => e = .crash ∧ ∀ b, s'.disk b = s.disk b ∨ b ∈ bs ∧ s'.disk b = new b) s := by
  induction bs generalizing s tail with
  | nil => exact ⟨h, fun _ => rfl⟩
  | cons b bs ih =>
    have hlen : (b :: bs).length = bs.length + 1 := rfl
    unfold installFrom
    rw [wp_bind]
    refine wp_bread h _ fun s1 h1 _ => ?_
    rw [wp_bind]
    refine wp_bread h1.coherent _ fun s2 h2 _ => ?_
    rw [wp_bind]
    have hdata : s.view (lay.start + tail + 1) = new b := hlog 0 (by omega)
    refine wp_bwrite h2.coherent _ (fun s3 h3 => ?_) ?_
    · rw [hdata] at h3
      obtain ⟨-, hdisk, hview, -⟩ := (h3.after h2).after h1
      have hlog' : ∀ i (hi : i < bs.length),
          s3.view (lay.start + (tail + 1 + i) + 1) = new (bs.get ⟨i, hi⟩) := by
        intro i hi
        have hne : lay.start + (tail + 1 + i) + 1 ≠ b := by
          rintro rfl
          exact hhome _ mem_cons_self ⟨by omega, by omega⟩
        rw [hview, update_of_ne hne, show lay.start + (tail + 1 + i) + 1 =
          lay.start + (tail + (i + 1)) + 1 by omega]
        exact hlog (i + 1) (by omega)
      refine wp_mono (ih h3.coherent (by omega) (fun b' hb' => hhome b' (mem_cons_of_mem b hb'))
        hlog') ?_ ?_
      · rintro _ s' ⟨hc, hd⟩
        refine ⟨hc, fun b' => ?_⟩
        rw [hd b', hdisk]
        by_cases hbb : b' = b
        · subst hbb
          simp
        · simp [hbb]
      · rintro e s' ⟨he, hd⟩
        refine ⟨he, fun b' => ?_⟩
        rcases hd b' with hd | ⟨hmem, hd⟩
        · by_cases hbb : b' = b
          · subst hbb
            exact .inr ⟨mem_cons_self, by rw [hd, hdisk, update_self]⟩
          · exact .inl (by rw [hd, hdisk, update_of_ne hbb])
        · exact .inr ⟨mem_cons_of_mem b hmem, hd⟩
    · exact ⟨rfl, fun b' => .inl (by rw [h2.disk, h1.disk])⟩

theorem wp_writeHead (h : Coherent s) (Q : Unit → State → Prop)
    (hQ : ∀ s', Writes lay.start (setHeader (s.view lay.start) s.lh) s s' → Q () s')
    (hE : ∀ s', s'.disk = s.disk → E .crash s') : wp (writeHead lay) Q E s := by
  simp only [writeHead, wp_bind, wp_get]
  refine wp_bread h _ fun s1 h1 _ => ?_
  refine wp_bwrite h1.coherent _ (fun s2 h2 => hQ s2 ?_) (hE s1 h1.disk)
  rw [h1.lh] at h2
  exact h2.after h1

end Loops

/-! ## Recovery -/

section Recovery

variable {lay : Layout} {s : State} {old new : Disk}

theorem wp_clearHead (hsize : 0 < lay.size) (h : Coherent s) (hlh : s.lh = []) (Q : Unit → State → Prop)
    (hQ : ∀ s', Empty lay s.disk s'.disk → Q () s') (hE : ∀ s', s'.disk = s.disk → E .crash s') :
    wp (writeHead lay) Q E s := by
  refine wp_writeHead h _ (fun s' h' => hQ s' ⟨?_, fun b hb => ?_⟩) hE
  · rw [h'.disk, update_self, headerBlocks_setHeader, hlh]
  · have hne : b ≠ lay.start := by
      rintro rfl
      exact hb ⟨le_rfl, by omega⟩
    rw [h'.disk, update_of_ne hne]

theorem Empty.trans {home home' d : Disk} (h : Empty lay home d)
    (h' : ∀ b, ¬ lay.area b → home b = home' b) : Empty lay home' d :=
  ⟨h.header, fun b hb => (h.home b hb).trans (h' b hb)⟩

theorem wp_recover_empty (hsize : 0 < lay.size) (h : Coherent s) (hview : s.view = s.disk)
    (hd : Empty lay old s.disk) : wp (recoverFromLog lay) (fun _ s' => Empty lay old s'.disk)
      (fun e s' => e = .crash ∧ Empty lay old s'.disk) s := by
  simp only [recoverFromLog, readHead, installTrans, wp_bind, wp_get, wp_modify]
  refine wp_bread h _ fun s1 h1 _ => ?_
  have hnone : (s1.setLh (headerBlocks (s.view lay.start))).lh = [] := by
    rw [hview]
    exact hd.header
  rw [hnone]
  simp only [installFrom, wp_pure]
  refine wp_clearHead (s := (s1.setLh _).setLh []) hsize h1.coherent rfl _ (fun s' h' => ?_) fun s' h' => ?_
  · exact h'.trans fun b hb => (congrFun h1.disk b).trans (hd.home b hb)
  · have hdisk : s'.disk = s.disk := h'.trans h1.disk
    exact ⟨rfl, hdisk ▸ hd⟩

/-- A disk on which some more blocks have been installed. -/
theorem Committed.install (hfit : Fits lay bs) (h : Committed lay old new bs d)
    (hd : ∀ b, d' b = d b ∨ b ∈ bs ∧ d' b = new b) : Committed lay old new bs d' := by
  have harea : ∀ b, lay.area b → d' b = d b := fun b hb =>
    (hd b).resolve_right fun hnew => hfit.home b hnew.1 hb
  refine ⟨?_, fun i hi => ?_, fun b hb => ?_, h.rest⟩
  · rw [harea lay.start ⟨le_rfl, by have := hfit.length; omega⟩]
    exact h.header
  · rw [harea _ (hfit.logBlock hi)]
    exact h.logged i hi
  · rcases hd b with hsame | hnew
    · rw [hsame]
      exact h.mixed b hb
    · exact .inr hnew

/-- The end of `commit`, which is also what recovery does with a committed transaction. -/
theorem wp_installAndClear (hfit : Fits lay bs) (h : Coherent s) (hd : Committed lay old new bs s.disk)
    (hlog : ∀ i (hi : i < bs.length), s.view (lay.start + i + 1) = new (bs.get ⟨i, hi⟩)) :
    wp (installFrom lay 0 bs) (fun _ s1 => wp (writeHead lay) (fun _ s' => Empty lay new s'.disk)
        (fun e s' => e = .crash ∧ (Committed lay old new bs s'.disk ∨ Empty lay new s'.disk))
        (s1.setLh []))
      (fun e s' => e = .crash ∧ (Committed lay old new bs s'.disk ∨ Empty lay new s'.disk)) s := by
  have hsize : 0 < lay.size := Nat.lt_of_le_of_lt (Nat.zero_le _) hfit.length
  refine wp_mono (wp_installFrom new h (by simpa using hfit.length) hfit.home
    fun i hi => by simpa using hlog i hi) ?_ ?_
  · rintro _ s1 ⟨hc, hinst⟩
    have hdone : Committed lay old new bs s1.disk := by
      refine hd.install hfit fun b => ?_
      by_cases hb : b ∈ bs
      · exact .inr ⟨hb, by rw [hinst b, if_pos hb]⟩
      · exact .inl (by rw [hinst b, if_neg hb])
    refine wp_clearHead (s := s1.setLh []) hsize hc rfl _ (fun s' h' => ?_) fun s' h' => ?_
    · refine h'.trans fun b hb => ?_
      rw [State.setLh_disk]
      by_cases hmem : b ∈ bs
      · rw [hinst b, if_pos hmem]
      · rw [hd.rest b hb hmem]
        exact (hdone.mixed b hb).resolve_right fun hnew => hmem hnew.1
    · rw [h', State.setLh_disk]
      exact ⟨rfl, .inl hdone⟩
  · rintro e s' ⟨he, hmixed⟩
    exact ⟨he, .inl (hd.install hfit hmixed)⟩

theorem wp_recover_committed (hfit : Fits lay bs) (h : Coherent s) (hview : s.view = s.disk)
    (hd : Committed lay old new bs s.disk) :
    wp (recoverFromLog lay) (fun _ s' => Empty lay new s'.disk)
      (fun e s' => e = .crash ∧ (Committed lay old new bs s'.disk ∨ Empty lay new s'.disk)) s := by
  simp only [recoverFromLog, readHead, installTrans, wp_bind, wp_get, wp_modify]
  refine wp_bread h _ fun s1 h1 _ => ?_
  have hlh : (s1.setLh (headerBlocks (s.view lay.start))).lh = bs := by
    rw [hview]
    exact hd.header
  rw [hlh]
  have hdisk : s1.disk = s.disk := h1.disk
  have hlog : ∀ i (hi : i < bs.length), s1.view (lay.start + i + 1) = new (bs.get ⟨i, hi⟩) := by
    intro i hi
    rw [h1.view, hview]
    exact hd.logged i hi
  exact wp_installAndClear (s := s1.setLh _) hfit h1.coherent (hdisk ▸ hd) hlog

/-- The machine after power has come back: nothing is cached, and `budget` more writes will
    reach the disk. -/
def reboot (d : Disk) (budget : Nat) (victim : Nat → Nat) : State where
  disk := d
  cache := fun _ => none
  victim := victim
  misses := 0
  lh := []
  outstanding := 0
  committing := false
  budget := budget

/-- Any number of recoveries that crash, and then one that completes. -/
inductive Recovers (lay : Layout) : Disk → Disk → Prop where
  | done {d : Disk} {budget : Nat} {victim : Nat → Nat} {s : State}
      (h : recoverFromLog lay (reboot d budget victim) = .ok () s) : Recovers lay d s.disk
  | again {d d' : Disk} {budget : Nat} {victim : Nat → Nat} {s : State}
      (h : recoverFromLog lay (reboot d budget victim) = .error .crash s)
      (hrec : Recovers lay s.disk d') : Recovers lay d d'

theorem reboot_coherent (d : Disk) (budget : Nat) (victim : Nat → Nat) :
    Coherent (reboot d budget victim) ∧ (reboot d budget victim).view = (reboot d budget victim).disk :=
  ⟨fun _ _ hb => (nomatch hb), rfl⟩

/-- What recovery reads and leaves, when the log is empty. -/
theorem Recovers.empty (hsize : 0 < lay.size) (hrec : Recovers lay d d')
    (hd : Empty lay old d) : Empty lay old d' := by
  induction hrec with
  | @done d budget victim s h =>
    obtain ⟨hc, hv⟩ := reboot_coherent d budget victim
    exact (wp_of_ok h).mp (wp_recover_empty hsize hc hv hd)
  | @again d d' budget victim s h hrec ih =>
    obtain ⟨hc, hv⟩ := reboot_coherent d budget victim
    exact ih ((wp_of_error h).mp (wp_recover_empty hsize hc hv hd)).2

/-- A committed transaction is completed. -/
theorem Recovers.committed (hfit : Fits lay bs) (hrec : Recovers lay d d')
    (hd : Committed lay old new bs d ∨ Empty lay new d) : Empty lay new d' := by
  have hsize : 0 < lay.size := Nat.lt_of_le_of_lt (Nat.zero_le _) hfit.length
  induction hrec with
  | @done d budget victim s h =>
    obtain ⟨hc, hv⟩ := reboot_coherent d budget victim
    rcases hd with hd | hd
    · exact (wp_of_ok h).mp (wp_recover_committed hfit hc hv hd)
    · exact (wp_of_ok h).mp (wp_recover_empty hsize hc hv hd)
  | @again d d' budget victim s h hrec ih =>
    obtain ⟨hc, hv⟩ := reboot_coherent d budget victim
    rcases hd with hd | hd
    · exact ih ((wp_of_error h).mp (wp_recover_committed hfit hc hv hd)).2
    · exact ih (.inr ((wp_of_error h).mp (wp_recover_empty hsize hc hv hd)).2)

end Recovery

/-! ## Commit -/

section Commit

variable {lay : Layout} {s : State} {old : Disk}

/-- A transaction that is ready to commit: nothing of it is on the disk yet, and readers find
    the new contents of its blocks in the cache. -/
structure Ready (lay : Layout) (old : Disk) (s : State) : Prop where
  coherent : Coherent s
  fits : Fits lay s.lh
  disk : Empty lay old s.disk
  rest : ∀ b, ¬ lay.area b → b ∉ s.lh → s.view b = old b

/-- `commit`, and what a crash at any of its writes leaves. -/
theorem wp_commit (h : Ready lay old s) :
    wp (commit lay) (fun _ s' => Empty lay s.view s'.disk) (fun e s' => e = .crash ∧
      (Empty lay old s'.disk ∨ Committed lay old s.view s.lh s'.disk ∨ Empty lay s.view s'.disk)) s := by
  have hsize : 0 < lay.size := Nat.lt_of_le_of_lt (Nat.zero_le _) h.fits.length
  simp only [commit, writeLog, installTrans, wp_bind, wp_get, wp_ite, wp_modify, wp_pure]
  refine ⟨fun _ => ?_, fun hnil => ?_⟩
  · refine wp_mono (wp_writeLogFrom 0 h.coherent (by simpa using h.fits.length) h.fits.home) ?_ ?_
    · rintro _ s1 ⟨hc1, hlh1, hsame1, hlog1⟩
      simp only [Nat.zero_add] at hsame1 hlog1
      have hstart : ∀ i < s.lh.length, lay.start ≠ lay.start + i + 1 := fun i _ => by omega
      have hhome : ∀ b, ¬ lay.area b → ∀ i < s.lh.length, b ≠ lay.start + i + 1 := by
        rintro b hb i hi rfl
        exact hb (h.fits.logBlock hi)
      -- Until the header is written, the old contents stand.
      refine wp_writeHead hc1 _ (fun s2 h2 => ?_) fun s' h' => ?_
      · have hne : ∀ b, ¬ lay.area b → b ≠ lay.start := by
          rintro b hb rfl
          exact hb ⟨le_rfl, by omega⟩
        have hcommitted : Committed lay old s.view s.lh s2.disk := by
          refine ⟨?_, fun i hi => ?_, fun b hb => .inl ?_, h.rest⟩
          · rw [h2.disk, update_self, headerBlocks_setHeader, hlh1]
          · rw [h2.disk, update_of_ne (by omega)]
            exact (hlog1 i hi).1
          · rw [h2.disk, update_of_ne (hne b hb), (hsame1 b (hhome b hb)).1]
            exact h.disk.home b hb
        have hlog2 : ∀ i (hi : i < s.lh.length),
            s2.view (lay.start + i + 1) = s.view (s.lh.get ⟨i, hi⟩) := by
          intro i hi
          rw [h2.view, update_of_ne (by omega)]
          exact (hlog1 i hi).2
        rw [h2.lh, hlh1]
        refine wp_mono (wp_installAndClear h.fits h2.coherent hcommitted hlog2) ?_ ?_
        · rintro _ s3 h3
          exact wp_mono h3 (fun _ _ hq => hq) fun _ _ he => ⟨he.1, .inr he.2⟩
        · rintro e s' ⟨he, hcrash⟩
          exact ⟨he, .inr hcrash⟩
      · refine ⟨rfl, .inl ⟨?_, fun b hb => ?_⟩⟩
        · rw [h', (hsame1 lay.start hstart).1]
          exact h.disk.header
        · rw [h', (hsame1 b (hhome b hb)).1]
          exact h.disk.home b hb
    · rintro e s' ⟨he, hhd, hrest⟩
      refine ⟨he, .inl ⟨?_, fun b hb => ?_⟩⟩
      · rw [hhd]
        exact h.disk.header
      · rw [hrest b hb]
        exact h.disk.home b hb
  · have hempty : s.lh = [] := length_eq_zero_iff.mp (by omega)
    refine h.disk.trans fun b hb => (h.rest b hb ?_).symm
    rw [hempty]
    exact not_mem_nil

end Commit

/-! ## Transactions -/

/-- A block with its new contents. -/
abbrev Update : Type := Nat × Block

def Update.exec (lay : Layout) (u : Update) : D Unit := logWrite lay u.1 u.2

/-- The disk with the last contents given to each block. -/
def applyUpdates (d : Disk) (upd : List Update) : Disk :=
  upd.foldl (fun d u => update d u.1 u.2) d

/-- No transaction is open and none is left on the disk. -/
structure Clean (lay : Layout) (s : State) : Prop where
  size : 0 < lay.size
  coherent : Coherent s
  view : s.view = s.disk
  lh : s.lh = []
  log : headerBlocks (s.disk lay.start) = []

theorem Clean.ready {lay : Layout} (h : Clean lay s) : Ready lay s.disk s := by
  refine ⟨h.coherent, ⟨?_, ?_⟩, ⟨h.log, fun _ _ => rfl⟩, fun b _ _ => congrFun h.view b⟩
  · rw [h.lh]
    exact h.size
  · rw [h.lh]
    exact nofun

theorem Ready.logWrite {lay : Layout} {s : State} {old : Disk} {u : Update} (h : Ready lay old s)
    (hu : ¬ lay.area u.1) : wp (u.exec lay) (fun _ s' => Ready lay old s' ∧
      s'.view = update s.view u.1 u.2) anyStop s := by
  simp only [Update.exec, Log.logWrite, logCheck, logAppend, wp_bind, wp_get, wp_ite, wp_throw, wp_pure,
    wp_modify]
  refine ⟨fun _ => trivial, fun hroom => ⟨fun _ => trivial, fun _ => ?_⟩⟩
  have hview : ((s.setLh (absorb s.lh u.1)).setBuf u.1 ⟨u.2, true⟩).view = update s.view u.1 u.2 := by
    funext b
    by_cases hb : b = u.1
    · subst hb
      simp [State.view]
    · simp [State.view, hb]
  have hlen : (absorb s.lh u.1).length < lay.size := by
    have := h.fits.length
    rw [length_absorb]
    split <;> omega
  refine ⟨⟨?_, ⟨hlen, ?_⟩, h.disk, ?_⟩, hview⟩
  · intro b buf hb hd
    by_cases hbu : b = u.1
    · subst hbu
      simp only [State.setBuf_cache, update_self, Option.some.injEq] at hb
      subst hb
      cases hd
    · rw [State.setBuf_cache, update_of_ne hbu] at hb
      exact h.coherent b buf hb hd
  · intro b hb
    rcases mem_absorb.mp hb with hb | rfl
    · exact h.fits.home b hb
    · exact hu
  · intro b hb hnot
    have hnot' : ¬ (b ∈ s.lh ∨ b = u.1) := fun hin => hnot (mem_absorb.mpr hin)
    rw [hview, update_of_ne fun he => hnot' (.inr he)]
    exact h.rest b hb fun hin => hnot' (.inl hin)

/-- All blocks of a transaction. -/
theorem Ready.run {lay : Layout} {s : State} {old : Disk} {upd : List Update} (h : Ready lay old s)
    (hhome : ∀ u ∈ upd, ¬ lay.area u.1) :
    wp (Run.run (Update.exec lay) upd) (fun _ s' => Ready lay old s' ∧
      s'.view = applyUpdates s.view upd) anyStop s := by
  induction upd generalizing s with
  | nil => exact ⟨h, rfl⟩
  | cons u upd ih =>
    simp only [Run.run, wp_bind, wp_pure]
    refine wp_post (h.logWrite (hhome u mem_cons_self)) ?_
    rintro _ s1 ⟨h1, hv1⟩
    refine wp_post (ih h1 fun u' hu' => hhome u' (mem_cons_of_mem u hu')) ?_
    rintro _ s2 ⟨h2, hv2⟩
    exact ⟨h2, hv2.trans (by rw [hv1]; rfl)⟩

/-- Transactions are atomic: whatever prefix of the writes of `commit` reaches the disk, and
    however often recovery crashes, in the end the log is empty and the home blocks hold
    either the old contents or the new contents of the whole transaction. -/
theorem commit_atomic (lay : Layout) (s s₁ s₂ : State) (upd : List Update) (outs : List Unit) (d : Disk)
    (hclean : Clean lay s) (hhome : ∀ u ∈ upd, ¬ lay.area u.1)
    (hlog : Run.run (Update.exec lay) upd s = .ok outs s₁)
    (hcommit : commit lay s₁ = .ok () s₂ ∨ commit lay s₁ = .error .crash s₂)
    (hrec : Recovers lay s₂.disk d) :
    headerBlocks (d lay.start) = [] ∧
    ((∀ b, ¬ lay.area b → d b = s.disk b) ∨
      ∀ b, ¬ lay.area b → d b = applyUpdates s.disk upd b) := by
  obtain ⟨hready, hview⟩ := (wp_of_ok hlog).mp (hclean.ready.run hhome)
  rw [hclean.view] at hview
  have hcrash : Empty lay s.disk s₂.disk ∨ Committed lay s.disk s₁.view s₁.lh s₂.disk ∨
      Empty lay s₁.view s₂.disk := by
    rcases hcommit with hok | hstop
    · exact .inr (.inr ((wp_of_ok hok).mp (wp_commit hready)))
    · exact ((wp_of_error hstop).mp (wp_commit hready)).2
  rcases hcrash with hold | hnew
  · have hfinal := hrec.empty hclean.size hold
    exact ⟨hfinal.header, .inl hfinal.home⟩
  · have hfinal := hrec.committed hready.fits hnew
    exact ⟨hfinal.header, .inr (hview ▸ hfinal.home)⟩

/-- The log as `mkfs` lays it out. -/
def mkfsLayout : Layout := ⟨2, logsize⟩

/-- A disk of zeros, and power for three writes. -/
def zeroState : State := { reboot (fun _ _ => 0) 3 id with outstanding := 1 }

theorem zeroState_clean : Clean mkfsLayout zeroState :=
  ⟨by decide, fun _ _ hb => (nomatch hb), rfl, rfl, rfl⟩

/-- Two blocks, one of them changed twice. -/
def twoBlocks : List Update := [(50, fun _ => 7), (60, fun _ => 8), (50, fun _ => 9)]

/-- The blocks are logged, `commit` loses power after the header has been written, and so does
    a first recovery after one write; a second one completes. -/
def logged : State := Run.final (Run.run (Update.exec mkfsLayout) twoBlocks) zeroState
def crashed : State := Run.final (commit mkfsLayout) logged
def crashedAgain : State := Run.final (recoverFromLog mkfsLayout) (reboot crashed.disk 1 id)
def recovered : State := Run.final (recoverFromLog mkfsLayout) (reboot crashedAgain.disk 9 id)

theorem commit_atomic_twoBlocks : headerBlocks (recovered.disk 2) = [] ∧
    ((∀ b, ¬ mkfsLayout.area b → recovered.disk b = fun _ => 0) ∨
      ∀ b, ¬ mkfsLayout.area b → recovered.disk b = applyUpdates (fun _ _ => 0) twoBlocks b) := by
  have hhome : ∀ u ∈ twoBlocks, ¬ mkfsLayout.area u.1 := by
    simp only [twoBlocks, forall_mem_cons]
    exact ⟨by decide, by decide, by decide, nofun⟩
  obtain ⟨outs, hlog⟩ : ∃ outs, Run.run (Update.exec mkfsLayout) twoBlocks zeroState = .ok outs logged :=
    Run.exists_of_returns (by decide +kernel)
  have hcommit : commit mkfsLayout logged = .error .crash crashed :=
    Run.error_of_stopOf (by decide +kernel)
  have hagain : recoverFromLog mkfsLayout (reboot crashed.disk 1 id) = .error .crash crashedAgain :=
    Run.error_of_stopOf (by decide +kernel)
  obtain ⟨_, hdone⟩ : ∃ u, recoverFromLog mkfsLayout (reboot crashedAgain.disk 9 id) = .ok u recovered :=
    Run.exists_of_returns (by decide +kernel)
  exact commit_atomic mkfsLayout zeroState logged crashed twoBlocks outs recovered.disk zeroState_clean
    hhome hlog (.inr hcommit) (.again hagain (.done hdone))

end Xv6Paging.Log
