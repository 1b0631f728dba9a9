import Xv6Paging.Lib.Holders
import Xv6Paging.Lib.Run
import Xv6Paging.Lib.Words
import Xv6Paging.Machine

/-! # Disk blocks and inodes (`fs.c`)

    The lower half of the file system: the bitmap of used blocks, inodes with their
    direct blocks and indirect block, and the inode cache. The log is not visible here;
    blocks are as readers find them. Inodes on disk and the bitmap are kept apart from the
    contents of the other blocks.

    Every block outside the metadata has at most one place that refers to it: a direct
    entry or the indirect entry of an inode, or a word of an indirect block. The bitmap is
    then a reference counter that is `0` or `1`, and the invariant is that of a counting
    allocator.
-/

namespace Xv6Paging.Blocks

open List Wp Holders Function

variable {bn i ind j : Nat}

/-! ## State -/

def ndirect : Nat := 12
def nindirect : Nat := 128
/-- Size of the inode cache. -/
def ninode : Nat := 50

/-- `type` of an inode. -/
inductive FileType where
  | free
  | dir
  | file
  | dev
  deriving DecidableEq, Repr

/-- `struct dinode`; entry `ndirect` of `addrs` is the indirect block, and `0` is no block. -/
structure Dinode where
  type : FileType
  major : Nat
  minor : Nat
  nlink : Nat
  size : Nat
  addrs : Nat → Nat

def Dinode.zero : Dinode := ⟨.free, 0, 0, 0, 0, fun _ => 0⟩

/-- `struct inode`, by inode number; not in the cache when `ref` is `0`. -/
structure Incore where
  ref : Nat
  valid : Bool
  din : Dinode

/-- The superblock; the metadata comes first and is not empty. -/
structure Super where
  size : Nat
  nblocks : Nat
  ninodes : Nat
  nblocks_lt : nblocks < size
  size_lt : size < 2 ^ 32

/-- Blocks of metadata. -/
def Super.nmeta (sb : Super) : Nat := sb.size - sb.nblocks

/-- The data area. -/
def Super.data (sb : Super) (b : Nat) : Prop := sb.nmeta ≤ b ∧ b < sb.size

theorem Super.data.pos {sb : Super} (h : sb.data b) : 0 < b := by
  have := sb.nblocks_lt
  have := h.1
  unfold Super.nmeta at this
  omega

structure State where
  bitmap : Nat → Bool
  blocks : Nat → Nat → UInt8
  dinode : Nat → Dinode
  core : Nat → Incore

abbrev B : Type → Type := EStateM Stop State

namespace State

@[simps -fullyApplied]
def setBit (s : State) (b : Nat) (v : Bool) : State :=
  { s with bitmap := update s.bitmap b v }

@[simps -fullyApplied]
def setBlock (s : State) (b : Nat) (data : Nat → UInt8) : State :=
  { s with blocks := update s.blocks b data }

@[simps -fullyApplied]
def setDinode (s : State) (i : Nat) (d : Dinode) : State :=
  { s with dinode := update s.dinode i d }

@[simps -fullyApplied]
def setCore (s : State) (i : Nat) (ip : Incore) : State :=
  { s with core := update s.core i ip }

/-- Change the fields that an inode in the cache has copied from the disk. -/
def setDin (s : State) (i : Nat) (d : Dinode) : State := s.setCore i { s.core i with din := d }

/-- `ip->addrs[k] = b`. -/
def setAddr (s : State) (i k b : Nat) : State :=
  s.setDin i { (s.core i).din with addrs := update (s.core i).din.addrs k b }

end State

/-! ## Blocks -/

/-- Allocate a zeroed block. -/
def balloc (sb : Super) : B Nat := do
  let s ← get
  match (List.range sb.size).find? fun b => !s.bitmap b with
  | none => throw (.panic "balloc: out of blocks")
  | some b =>
    set ((s.setBit b true).setBlock b fun _ => 0)
    pure b

def bfree (b : Nat) : B Unit := do
  let s ← get
  if s.bitmap b = true then
    set (s.setBit b false)
  else
    throw (.panic "freeing free block")

/-! ## Contents of an inode -/

/-- The block of an entry of `addrs`, allocated if necessary. -/
def addrBlock (sb : Super) (i k : Nat) : B Nat := do
  let s ← get
  if (s.core i).din.addrs k = 0 then
    let b ← balloc sb
    modify fun s => s.setAddr i k b
    pure b
  else
    pure ((s.core i).din.addrs k)

/-- The block of a word of the indirect block `ind`, allocated if necessary. -/
def entryBlock (sb : Super) (ind j : Nat) : B Nat := do
  let s ← get
  if Words.get (s.blocks ind) j = 0 then
    let b ← balloc sb
    modify fun s => s.setBlock ind (Words.set (s.blocks ind) j b)
    pure b
  else
    pure (Words.get (s.blocks ind) j)

/-- Block `bn` of an inode, allocated if necessary. -/
def bmap (sb : Super) (i bn : Nat) : B Nat := do
  if bn < ndirect then
    addrBlock sb i bn
  else if bn - ndirect < nindirect then
    let ind ← addrBlock sb i ndirect
    entryBlock sb ind (bn - ndirect)
  else
    throw (.panic "bmap: out of range")

/-- Copy a modified inode to the disk. -/
def iupdate (i : Nat) : B Unit := modify fun s => s.setDinode i (s.core i).din

/-- The first loop of `itrunc`. -/
def freeDirect (i : Nat) : List Nat → B Unit
  | [] => pure ()
  | k :: ks => do
    let s ← get
    if (s.core i).din.addrs k = 0 then
      freeDirect i ks
    else
      bfree ((s.core i).din.addrs k)
      modify fun s => s.setAddr i k 0
      freeDirect i ks

/-- The loop of `itrunc` over the indirect block. -/
def freeEntries (ind : Nat) : List Nat → B Unit
  | [] => pure ()
  | j :: js => do
    let s ← get
    if Words.get (s.blocks ind) j = 0 then
      freeEntries ind js
    else
      bfree (Words.get (s.blocks ind) j)
      freeEntries ind js

/-- The second half of `itrunc`. -/
def freeIndirect (i : Nat) : B Unit := do
  let s ← get
  if (s.core i).din.addrs ndirect = 0 then
    pure ()
  else
    freeEntries ((s.core i).din.addrs ndirect) (List.range nindirect)
    bfree ((s.core i).din.addrs ndirect)
    modify fun s => s.setAddr i ndirect 0

/-- Discard the contents of an inode. -/
def itrunc (i : Nat) : B Unit := do
  freeDirect i (List.range ndirect)
  freeIndirect i
  modify fun s => s.setDin i { (s.core i).din with size := 0 }
  iupdate i

/-- The loop of `readi`; `fuel` bounds its turns. -/
def readBlocks (sb : Super) (i : Nat) : Nat → Nat → Nat → B (List UInt8)
  | 0, _, _ => pure []
  | fuel + 1, off, n =>
    if n = 0 then
      pure []
    else do
      let b ← bmap sb i (off / bsize)
      let s ← get
      let m := min n (bsize - off % bsize)
      let rest ← readBlocks sb i fuel (off + m) (n - m)
      pure ((List.range m).map (fun k => s.blocks b (off % bsize + k)) ++ rest)

/-- The bytes read, `none` for `-1`. Devices are read elsewhere. -/
def readi (sb : Super) (i off n : Nat) : B (Option (List UInt8)) := do
  let s ← get
  if (s.core i).din.type = .dev then
    pure none
  else if (s.core i).din.size < off ∨ 2 ^ 32 ≤ off + n then
    pure none
  else
    let bytes ← readBlocks sb i n off (min n ((s.core i).din.size - off))
    pure (some bytes)

/-- The contents of a block after `m` bytes of `src` have been copied to `pos`. -/
def copyIn (blk : Nat → UInt8) (src : Nat → UInt8) (pos m : Nat) : Nat → UInt8 := fun k =>
  if pos ≤ k ∧ k < pos + m then src (k - pos) else blk k

/-- The loop of `writei`; `fuel` bounds its turns. Returns the offset after the last byte. -/
def writeBlocks (sb : Super) (i : Nat) : Nat → (Nat → UInt8) → Nat → Nat → B Nat
  | 0, _, off, _ => pure off
  | fuel + 1, src, off, n =>
    if n = 0 then
      pure off
    else do
      let b ← bmap sb i (off / bsize)
      let m := min n (bsize - off % bsize)
      modify fun s => s.setBlock b (copyIn (s.blocks b) src (off % bsize) m)
      writeBlocks sb i fuel (fun k => src (m + k)) (off + m) (n - m)

/-- The number of bytes written, `none` for `-1`. Devices are written elsewhere. -/
def writei (sb : Super) (i : Nat) (src : Nat → UInt8) (off n : Nat) : B (Option Nat) := do
  let s ← get
  if (s.core i).din.type = .dev then
    pure none
  else if (s.core i).din.size < off ∨ 2 ^ 32 ≤ off + n then
    pure none
  else if maxfile * bsize < off + n then
    pure none
  else
    let off' ← writeBlocks sb i n src off n
    if 0 < n ∧ (s.core i).din.size < off' then
      modify fun s => s.setDin i { (s.core i).din with size := off' }
      iupdate i
      pure (some n)
    else
      pure (some n)

/-! ## The inode cache -/

/-- Entries of the cache in use. -/
def State.inUse (s : State) (sb : Super) : Nat :=
  (List.range sb.ninodes).countP fun i => decide (0 < (s.core i).ref)

def iget (sb : Super) (i : Nat) : B Unit := do
  let s ← get
  if 0 < (s.core i).ref then
    set (s.setCore i { s.core i with ref := (s.core i).ref + 1 })
  else if ninode ≤ s.inUse sb then
    throw (.panic "iget: no inodes")
  else
    set (s.setCore i { s.core i with ref := 1, valid := false })

def ilock (i : Nat) : B Unit := do
  let s ← get
  if (s.core i).ref < 1 then
    throw (.panic "ilock")
  else if (s.core i).valid = true then
    pure ()
  else if (s.dinode i).type = .free then
    throw (.panic "ilock: no type")
  else
    set (s.setCore i { s.core i with valid := true, din := s.dinode i })

/-- Free an inode with no links and no other references. -/
def ifree (i : Nat) : B Unit := do
  itrunc i
  modify fun s => s.setDin i { (s.core i).din with type := .free }
  iupdate i
  modify fun s => s.setCore i { s.core i with valid := false }

def iput (i : Nat) : B Unit := do
  let s ← get
  if (s.core i).valid = true ∧ (s.core i).din.nlink = 0 ∧ (s.core i).ref = 1 then
    ifree i
    modify fun s => s.setCore i { s.core i with ref := (s.core i).ref - 1 }
  else
    modify fun s => s.setCore i { s.core i with ref := (s.core i).ref - 1 }

def ialloc (sb : Super) (type : FileType) : B Nat := do
  let s ← get
  match (List.range' 1 (sb.ninodes - 1)).find? fun i => decide ((s.dinode i).type = .free) with
  | none => throw (.panic "ialloc: no inodes")
  | some i =>
    set (s.setDinode i { Dinode.zero with type := type })
    iget sb i
    pure i

/-! ## References to blocks -/

/-- Places that may hold a block number. -/
inductive Slot where
  | direct (i k : Nat)
  | indirect (i : Nat)
  | entry (i j : Nat)
  deriving DecidableEq, Repr

def slots (sb : Super) : Finset Slot :=
  (Finset.range sb.ninodes ×ˢ Finset.range ndirect).image (fun x => .direct x.1 x.2) ∪
    ((Finset.range sb.ninodes).image .indirect ∪
      (Finset.range sb.ninodes ×ˢ Finset.range nindirect).image fun x => .entry x.1 x.2)

theorem mem_slots_direct {sb : Super} : Slot.direct i k ∈ slots sb ↔ i < sb.ninodes ∧ k < ndirect := by
  simp [slots]

theorem mem_slots_indirect {sb : Super} : Slot.indirect i ∈ slots sb ↔ i < sb.ninodes := by
  simp [slots]

theorem mem_slots_entry {sb : Super} :
    Slot.entry i j ∈ slots sb ↔ i < sb.ninodes ∧ j < nindirect := by
  simp [slots]

attribute [irreducible] slots

/-- An inode as the kernel sees it. -/
def State.inode (s : State) (i : Nat) : Dinode :=
  if (s.core i).valid = true then (s.core i).din else s.dinode i

/-- A block number; `0` is none. -/
def nonzero (b : Nat) : Option Nat := if b = 0 then none else some b

/-- The words of an indirect block; without a block there are none. -/
def State.word (s : State) (ind j : Nat) : Option Nat :=
  if ind = 0 then none else nonzero (Words.get (s.blocks ind) j)

def State.target (s : State) : Slot → Option Nat
  | .direct i k => nonzero ((s.inode i).addrs k)
  | .indirect i => nonzero ((s.inode i).addrs ndirect)
  | .entry i j => s.word ((s.inode i).addrs ndirect) j

/-- The bitmap as a reference counter. -/
def State.marks (s : State) (b : Nat) : Nat := if s.bitmap b = true then 1 else 0

/-- The place that refers to block `bn` of an inode. -/
def fileSlot (i bn : Nat) : Slot := if bn < ndirect then .direct i bn else .entry i (bn - ndirect)

/-- The bitmap says which blocks are in use: metadata, blocks that some place of `T` refers to
    (each by one place only), and those in `flight`, whose numbers the running code holds. -/
structure Own (sb : Super) (s : State) (T : Slot → Option Nat) (flight : List Nat) : Prop where
  low : ∀ b < sb.nmeta, s.bitmap b = true
  balanced : ∃ free, Balanced sb.data (slots sb) (fun _ => True) T s.marks free flight

section Own

variable {sb : Super} {s : State} {T T' : Slot → Option Nat} {flight : List Nat} {b : Nat} {u : Slot}

theorem marks_setBit_true : (s.setBit b true).marks = update s.marks b 1 := by
  funext b'
  by_cases hb : b' = b
  · subst hb
    simp [State.marks]
  · simp [State.marks, hb]

theorem marks_setBit_false (h : s.bitmap b = true) :
    (s.setBit b false).marks = update s.marks b (s.marks b - 1) := by
  funext b'
  by_cases hb : b' = b
  · subst hb
    simp [State.marks, h]
  · simp [State.marks, hb]

theorem Own.congr (h : Own sb s T flight) (ht : ∀ u ∈ slots sb, T' u = T u) : Own sb s T' flight := by
  obtain ⟨free, hb⟩ := h.balanced
  exact ⟨h.low, free, hb.congr ht⟩

/-- Only the bitmap and the places matter. -/
theorem Own.of_bitmap (h : Own sb s T flight) (hb : s'.bitmap = s.bitmap) : Own sb s' T flight := by
  have hm : s'.marks = s.marks := by
    funext b
    rw [State.marks, State.marks, hb]
  exact ⟨hb ▸ h.low, hm ▸ h.balanced⟩

theorem Own.unique (h : Own sb s T flight) (hu : u ∈ slots sb) (hw : w ∈ slots sb)
    (hTu : T u = some b) (hTw : T w = some b) : u = w := by
  obtain ⟨free, hb⟩ := h.balanced
  by_contra hne
  have htwo := two_le_holders hu hw hne hTu hTw
  have hcount := hb.count (hb.target_ok hu hTu)
  have hone := hb.exclusive hu trivial hTu
  omega

theorem Own.alloc (h : Own sb s T flight)
    (hfind : (List.range sb.size).find? (fun b => !s.bitmap b) = some b) :
    Own sb (s.setBit b true) T (b :: flight) ∧ sb.data b ∧ ∀ u ∈ slots sb, T u ≠ some b := by
  obtain ⟨free, hb⟩ := h.balanced
  have hlt : b < sb.size := mem_range.mp (mem_of_find?_eq_some hfind)
  have hclear : s.bitmap b = false := by simpa using find?_some hfind
  have hdata : sb.data b := by
    refine ⟨?_, hlt⟩
    by_contra hlow
    have := h.low b (by omega)
    rw [hclear] at this
    exact nomatch this
  have hfree : b ∈ free := hb.free_iff.mpr ⟨hdata, by simp [State.marks, hclear]⟩
  refine ⟨⟨?_, free.erase b, ?_⟩, hdata, fun u hu => hb.not_held hu hfree⟩
  · intro b' hb'
    by_cases he : b' = b
    · subst he
      simp
    · rw [State.setBit_bitmap, update_of_ne he]
      exact h.low b' hb'
  · rw [marks_setBit_true]
    exact (hb.perm (perm_cons_erase hfree)).take

/-- A block goes into an empty place. -/
theorem Own.put (h : Own sb s T (b :: flight)) (hu : u ∈ slots sb) (hold : T u = none)
    (hnew : T' u = some b) (hother : ∀ w ∈ slots sb, w ≠ u → T' w = T w) : Own sb s T' flight := by
  obtain ⟨free, hb⟩ := h.balanced
  refine ⟨h.low, free, hb.put hu hold hnew hother fun _ => ?_⟩
  have hpos := hb.refs_pos_of_flight mem_cons_self
  unfold State.marks at hpos ⊢
  split at hpos
  · rename_i hset
    rw [if_pos hset]
  · exact absurd hpos (lt_irrefl 0)

theorem Own.lift (h : Own sb s T flight) (hu : u ∈ slots sb) (hold : T u = some b)
    (hnew : T' u = none) (hother : ∀ w ∈ slots sb, w ≠ u → T' w = T w) : Own sb s T' (b :: flight) := by
  obtain ⟨free, hb⟩ := h.balanced
  exact ⟨h.low, free, hb.lift hu hold hnew hother⟩

/-- The mark of a block in flight is cleared. -/
theorem Own.free (h : Own sb s T (b :: flight)) :
    s.bitmap b = true ∧ Own sb (s.setBit b false) T flight := by
  obtain ⟨free, hb⟩ := h.balanced
  have hset : s.bitmap b = true := by
    have hpos := hb.refs_pos_of_flight mem_cons_self
    unfold State.marks at hpos
    split at hpos
    · assumption
    · exact absurd hpos (lt_irrefl 0)
  refine ⟨hset, ?_, ?_⟩
  · intro b' hb'
    have hdata : sb.data b := hb.flight_ok mem_cons_self
    have hne : b' ≠ b := by
      rintro rfl
      exact absurd hdata.1 (by omega)
    rw [State.setBit_bitmap, update_of_ne hne]
    exact h.low b' hb'
  · exact ⟨_, marks_setBit_false hset ▸ hb.drop⟩

end Own

section Rules

variable {sb : Super} {s : State} {T : Slot → Option Nat} {flight : List Nat} {b : Nat}
  {E : Stop → State → Prop}

/-- The panics that running out of a resource may cause. -/
def OutOfSpace (e : Stop) : Prop :=
  e = .panic "balloc: out of blocks" ∨ e = .panic "iget: no inodes" ∨ e = .panic "ialloc: no inodes"

theorem wp_balloc (h : Own sb s T flight) (Q : Nat → State → Prop)
    (hQ : ∀ b, Own sb ((s.setBit b true).setBlock b fun _ => 0) T (b :: flight) → sb.data b →
      (∀ u ∈ slots sb, T u ≠ some b) → Q b ((s.setBit b true).setBlock b fun _ => 0)) :
    wp (balloc sb) Q (fun e _ => OutOfSpace e) s := by
  simp only [balloc, wp_bind, wp_get]
  cases hfind : (List.range sb.size).find? fun b => !s.bitmap b with
  | none => exact .inl rfl
  | some b =>
    obtain ⟨hown, hdata, hnew⟩ := h.alloc hfind
    exact hQ b (hown.of_bitmap rfl) hdata hnew

theorem wp_bfree (h : Own sb s T (b :: flight)) (Q : Unit → State → Prop) :
    wp (bfree b) Q E s ↔ Q () (s.setBit b false) := by
  have hset := h.free.1
  simp [bfree, wp_bind, wp_get, wp_ite, hset]

end Rules

/-! ## Places after an update -/

section Target

variable {sb : Super} {s : State} {k b : Nat} {u : Slot}

theorem inode_of_valid (hv : (s.core i).valid = true) : s.inode i = (s.core i).din := if_pos hv

theorem nonzero_of_data (h : sb.data b) : nonzero b = some b := if_neg h.pos.ne'

theorem nonzero_eq_some : nonzero a = some b ↔ a = b ∧ b ≠ 0 := by
  unfold nonzero
  split
  · rename_i ha
    simp only [reduceCtorEq, false_iff, not_and, Decidable.not_not]
    rintro rfl
    exact ha
  · rename_i ha
    constructor
    · rintro ⟨⟩
      exact ⟨rfl, ha⟩
    · rintro ⟨rfl, _⟩
      rfl

/-- The inode a place belongs to. -/
def Slot.owner : Slot → Nat
  | .direct i _ | .indirect i | .entry i _ => i

/-- A place is read off the addresses of its inode and the contents of blocks. -/
theorem target_congr {s' : State} (hi : (s'.inode u.owner).addrs = (s.inode u.owner).addrs)
    (hb : s'.blocks = s.blocks) : s'.target u = s.target u := by
  cases u with
  | direct r k => exact congrArg nonzero (congrFun hi k)
  | indirect r => exact congrArg nonzero (congrFun hi ndirect)
  | entry r j =>
    have haddr : (s'.inode r).addrs ndirect = (s.inode r).addrs ndirect := congrFun hi ndirect
    simp only [State.target, State.word, haddr, hb]

@[simp] theorem target_setBit {v : Bool} : (s.setBit b v).target = s.target :=
  funext fun _ => target_congr rfl rfl

/-- Writing to a block that is no indirect block. -/
theorem target_setBlock {data : Nat → UInt8} (hb : ∀ i < sb.ninodes, s.target (.indirect i) ≠ some b)
    (hu : u ∈ slots sb) : (s.setBlock b data).target u = s.target u := by
  cases u with
  | direct i k => rfl
  | indirect i => rfl
  | entry i j =>
    have hi := (mem_slots_entry.mp hu).1
    have hinode : (s.setBlock b data).inode i = s.inode i := rfl
    simp only [State.target, State.word, hinode]
    by_cases hz : (s.inode i).addrs ndirect = 0
    · rw [if_pos hz, if_pos hz]
    · have hne : (s.inode i).addrs ndirect ≠ b := by
        rintro rfl
        exact hb i hi (if_neg hz)
      rw [if_neg hz, if_neg hz, State.setBlock_blocks, update_of_ne hne]

theorem inode_setDin_ne (hr : r ≠ i) : (s.setDin i d).inode r = s.inode r := by
  simp [State.inode, State.setDin, hr]

theorem inode_setDin (hv : (s.core i).valid = true) : (s.setDin i d).inode i = d := by
  simp [State.inode, State.setDin, hv]

theorem target_setDin_ne {d : Dinode} (hu : u.owner ≠ i) : (s.setDin i d).target u = s.target u :=
  target_congr (by rw [inode_setDin_ne hu]) rfl

theorem target_setAddr_direct (hv : (s.core i).valid = true) (hk : k < ndirect) :
    (s.setAddr i k b).target (.direct i k) = nonzero b ∧
    ∀ w, w ≠ .direct i k → (s.setAddr i k b).target w = s.target w := by
  have hin : (s.setAddr i k b).inode i =
      { (s.core i).din with addrs := update (s.core i).din.addrs k b } := inode_setDin hv
  have hnd : ndirect ≠ k := by omega
  refine ⟨by simp [State.target, hin], fun w hw => ?_⟩
  by_cases hwi : w.owner = i
  · cases w with
    | direct r k' =>
      obtain rfl : r = i := hwi
      have hk' : k' ≠ k := fun he => hw (by rw [he])
      simp [State.target, hin, hk', inode_of_valid hv]
    | indirect r =>
      obtain rfl : r = i := hwi
      simp [State.target, hin, hnd, inode_of_valid hv]
    | entry r j =>
      obtain rfl : r = i := hwi
      simp only [State.target, hin, update_of_ne hnd, inode_of_valid hv]
      rfl
  · exact target_setDin_ne hwi

/-- A change of the indirect entry, on which the words of the indirect block depend. -/
theorem target_setAddr_indirect (sb : Super) (hv : (s.core i).valid = true) :
    (s.setAddr i ndirect b).target (.indirect i) = nonzero b ∧
    (∀ j, (s.setAddr i ndirect b).target (.entry i j) = s.word b j) ∧
    ∀ w ∈ slots sb, w ≠ .indirect i → (∀ j, w ≠ .entry i j) →
      (s.setAddr i ndirect b).target w = s.target w := by
  have hin : (s.setAddr i ndirect b).inode i =
      { (s.core i).din with addrs := update (s.core i).din.addrs ndirect b } := inode_setDin hv
  refine ⟨by simp [State.target, hin], fun j => ?_, fun w hmem hw hwe => ?_⟩
  · simp only [State.target, hin, update_self]
    rfl
  · by_cases hwi : w.owner = i
    · cases w with
      | direct r k =>
        obtain rfl : r = i := hwi
        have hk : k ≠ ndirect := Nat.ne_of_lt (mem_slots_direct.mp hmem).2
        simp [State.target, hin, hk, inode_of_valid hv]
      | indirect r =>
        obtain rfl : r = i := hwi
        exact absurd rfl hw
      | entry r j =>
        obtain rfl : r = i := hwi
        exact absurd rfl (hwe j)
    · exact target_setDin_ne hwi

/-- A change of a word of the indirect block of inode `i`. -/
theorem target_setWord (hind : s.target (.indirect i) = some ind) (hb : b < 2 ^ 32)
    (honly : ∀ r < sb.ninodes, r ≠ i → s.target (.indirect r) ≠ some ind) :
    (s.setBlock ind (Words.set (s.blocks ind) j b)).target (.entry i j) = nonzero b ∧
    ∀ w ∈ slots sb, w ≠ .entry i j →
      (s.setBlock ind (Words.set (s.blocks ind) j b)).target w = s.target w := by
  have haddr : (s.inode i).addrs ndirect = ind ∧ ind ≠ 0 := nonzero_eq_some.mp hind
  have hin : ∀ r, (s.setBlock ind (Words.set (s.blocks ind) j b)).inode r = s.inode r := fun _ => rfl
  constructor
  · simp only [State.target, State.word, hin, haddr.1, if_neg haddr.2, State.setBlock_blocks,
      update_self, Words.get_set_self hb]
  · intro w hw hne
    cases w with
    | direct r k => rfl
    | indirect r => rfl
    | entry r j' =>
      by_cases hr : r = i
      · subst hr
        have hj : j' ≠ j := fun he => hne (by rw [he])
        simp only [State.target, State.word, hin, haddr.1, if_neg haddr.2, State.setBlock_blocks,
          update_self, Words.get_set_ne hj]
      · simp only [State.target, State.word, hin]
        by_cases hz : (s.inode r).addrs ndirect = 0
        · rw [if_pos hz, if_pos hz]
        · have hother : (s.inode r).addrs ndirect ≠ ind := by
            rintro he
            exact honly r (mem_slots_entry.mp hw).1 hr (he ▸ if_neg hz)
          rw [if_neg hz, if_neg hz, State.setBlock_blocks, update_of_ne hother]

end Target

/-! ## Mapping file blocks -/

/-- What `bmap` does to the state for inode `i`: the cached copy gets addresses, and no place
    loses its block. -/
structure Maps (sb : Super) (i : Nat) (s s' : State) : Prop where
  dinode : s'.dinode = s.dinode
  others : ∀ r, r ≠ i → s'.core r = s.core r
  copy : ∃ addrs, s'.core i = { s.core i with din := { (s.core i).din with addrs := addrs } }
  keeps : ∀ u ∈ slots sb, ∀ b, s.target u = some b → s'.target u = some b

section Maps

variable {sb : Super} {s s' s'' : State} {k b : Nat}

theorem Maps.refl (sb : Super) (i : Nat) (s : State) : Maps sb i s s :=
  ⟨rfl, fun _ _ => rfl, ⟨_, rfl⟩, fun _ _ _ h => h⟩

theorem Maps.trans (h : Maps sb i s s') (h' : Maps sb i s' s'') : Maps sb i s s'' where
  dinode := h'.dinode.trans h.dinode
  others := fun r hr => (h'.others r hr).trans (h.others r hr)
  copy := by
    obtain ⟨a, ha⟩ := h.copy
    obtain ⟨a', ha'⟩ := h'.copy
    exact ⟨a', by rw [ha', ha]⟩
  keeps := fun u hu b hb => h'.keeps u hu b (h.keeps u hu b hb)

theorem Maps.valid (h : Maps sb i s s') (hv : (s.core i).valid = true) : (s'.core i).valid = true := by
  obtain ⟨a, ha⟩ := h.copy
  rw [ha]
  exact hv

/-- Place `u` of inode `i` has block `b` afterwards: the one it had, with nothing changed, or a
    new one, which is clear unless it is an indirect block. -/
structure Allots (sb : Super) (i : Nat) (u : Slot) (b : Nat) (s s' : State) : Prop extends
    Maps sb i s s' where
  own : Own sb s' s'.target []
  self : s'.target u = some b
  same : s.target u ≠ none → s' = s
  other : ∀ w ∈ slots sb, w ≠ u → s'.target w = s.target w
  data : ∀ w ∈ slots sb, (∀ r, w ≠ .indirect r) → ∀ c, s.target w = some c → s'.blocks c = s.blocks c
  zero : s.target u = none → (∀ r, u ≠ .indirect r) → s'.blocks b = fun _ => 0

theorem Allots.refl (h : Own sb s s.target []) (hu : s.target u = some b) : Allots sb i u b s s :=
  ⟨.refl sb i s, h, hu, fun _ => rfl, fun _ _ _ => rfl, fun _ _ _ _ _ => rfl,
    fun hnone => absurd (hu.symm.trans hnone) nofun⟩

/-- A new block goes into an empty place. -/
theorem Allots.put (hown : Own sb s' s.target [b]) (hu : u ∈ slots sb)
    (hnone : s.target u = none) (hself : s'.target u = some b)
    (hother : ∀ w ∈ slots sb, w ≠ u → s'.target w = s.target w) (hdinode : s'.dinode = s.dinode)
    (hcore : ∀ r, r ≠ i → s'.core r = s.core r) (hcopy : ∃ addrs, s'.core i = { s.core i with din := { (s.core i).din with addrs := addrs } })
    (hdata : ∀ w ∈ slots sb, (∀ r, w ≠ .indirect r) → ∀ c, s.target w = some c →
      s'.blocks c = s.blocks c)
    (hzero : (∀ r, u ≠ .indirect r) → s'.blocks b = fun _ => 0) : Allots sb i u b s s' := by
  refine ⟨⟨hdinode, hcore, hcopy, fun w hw c hc => ?_⟩, hown.put hu hnone hself hother, hself,
    fun hsome => absurd hnone hsome, hother, hdata, fun _ => hzero⟩
  have hne : w ≠ u := by
    rintro rfl
    exact nomatch hnone.symm.trans hc
  rw [hother w hw hne, hc]

/-- A new block is cleared; no place refers to it yet. -/
theorem target_clear (hnew : ∀ u ∈ slots sb, s.target u ≠ some b) :
    ∀ u ∈ slots sb, ((s.setBit b true).setBlock b fun _ => 0).target u = s.target u := by
  intro u hu
  rw [target_setBlock (fun r hr => ?_) hu, target_setBit]
  rw [target_setBit]
  exact hnew _ (mem_slots_indirect.mpr hr)

/-- The block of an entry of `addrs`, which is place `u`; a new block changes no other place. -/
theorem wp_addrBlock (h : Own sb s s.target []) (hv : (s.core i).valid = true)
    (hu : u ∈ slots sb) (htarget : s.target u = nonzero ((s.inode i).addrs k))
    (hset : (s.inode i).addrs k = 0 → ∀ b, sb.data b → (∀ w ∈ slots sb, s.target w ≠ some b) → let s' := ((s.setBit b true).setBlock b fun _ => 0).setAddr i k b
      s'.target u = some b ∧ ∀ w ∈ slots sb, w ≠ u → s'.target w = s.target w) :
    wp (addrBlock sb i k) (fun b s' => Allots sb i u b s s') (fun e _ => OutOfSpace e) s := by
  rw [inode_of_valid hv] at htarget hset
  simp only [addrBlock, wp_bind, wp_get, wp_ite, wp_pure, wp_modify]
  refine ⟨fun hz => wp_balloc h _ fun b hown hdata hnew => ?_, fun hnz => ?_⟩
  · obtain ⟨hself, hother⟩ := hset hz b hdata hnew
    have hnone : s.target u = none := by
      rw [htarget, hz]
      rfl
    refine .put (hown.of_bitmap rfl) hu hnone hself hother rfl (fun r hr => ?_)
      ⟨update (s.core i).din.addrs k b, ?_⟩ (fun w hw _ c hc => ?_) fun _ => ?_
    · simp [State.setAddr, State.setDin, hr]
    · simp [State.setAddr, State.setDin]
    · have hcb : c ≠ b := fun he => hnew w hw (he ▸ hc)
      exact update_of_ne hcb _ _
    · exact update_self ..
  · exact .refl h (htarget.trans (if_neg hnz))

theorem wp_addrBlock_direct (h : Own sb s s.target []) (hv : (s.core i).valid = true)
    (hi : i < sb.ninodes) (hk : k < ndirect) :
    wp (addrBlock sb i k) (fun b s' => Allots sb i (.direct i k) b s s') (fun e _ => OutOfSpace e) s := by
  refine wp_addrBlock h hv (mem_slots_direct.mpr ⟨hi, hk⟩) rfl fun _ b hdata hnew => ?_
  have hv' : (((s.setBit b true).setBlock b fun _ => 0).core i).valid = true := hv
  obtain ⟨hself, hother⟩ := target_setAddr_direct (b := b) hv' hk
  rw [nonzero_of_data hdata] at hself
  exact ⟨hself, fun w hw hne => (hother w hne).trans (target_clear hnew w hw)⟩

/-- The indirect block; a new one has no entries. -/
theorem wp_addrBlock_indirect (h : Own sb s s.target []) (hv : (s.core i).valid = true)
    (hi : i < sb.ninodes) :
    wp (addrBlock sb i ndirect) (fun b s' => Allots sb i (.indirect i) b s s')
      (fun e _ => OutOfSpace e) s := by
  refine wp_addrBlock h hv (mem_slots_indirect.mpr hi) rfl fun hz b hdata hnew => ?_
  have hv' : (((s.setBit b true).setBlock b fun _ => 0).core i).valid = true := hv
  obtain ⟨hself, hwords, hother⟩ := target_setAddr_indirect sb (b := b) hv'
  rw [nonzero_of_data hdata] at hself
  refine ⟨hself, fun w hw hne => ?_⟩
  by_cases hentry : ∃ j, w = .entry i j
  · obtain ⟨j, rfl⟩ := hentry
    have hempty : s.target (.entry i j) = none := by simp [State.target, hz, State.word]
    rw [hwords, hempty]
    simp [State.word, Words.get_zero, nonzero]
  · rw [hother w hw hne fun j he => hentry ⟨j, he⟩, target_clear hnew w hw]

theorem wp_entryBlock (h : Own sb s s.target []) (hi : i < sb.ninodes) (hj : j < nindirect)
    (hind : s.target (.indirect i) = some ind) :
    wp (entryBlock sb ind j) (fun b s' => Allots sb i (.entry i j) b s s')
      (fun e _ => OutOfSpace e) s := by
  have hmem := mem_slots_indirect.mpr hi
  have haddr : (s.inode i).addrs ndirect = ind ∧ ind ≠ 0 := nonzero_eq_some.mp hind
  have htarget : s.target (.entry i j) = nonzero (Words.get (s.blocks ind) j) := by
    simp only [State.target, State.word, haddr.1, if_neg haddr.2]
  simp only [entryBlock, wp_bind, wp_get, wp_ite, wp_pure, wp_modify]
  refine ⟨fun hz => wp_balloc h _ fun b hown hdata hnew => ?_, fun hnz => ?_⟩
  · have hclear := target_clear hnew
    have honly : ∀ r < sb.ninodes, r ≠ i →
        ((s.setBit b true).setBlock b fun _ => 0).target (.indirect r) ≠ some ind := by
      intro r hr hne he
      rw [hclear _ (mem_slots_indirect.mpr hr)] at he
      exact hne (Slot.indirect.inj (h.unique (mem_slots_indirect.mpr hr) hmem he hind))
    have hlt : b < 2 ^ 32 := Nat.lt_trans hdata.2 sb.size_lt
    have hne : b ≠ ind := fun he => hnew _ hmem (he ▸ hind)
    obtain ⟨hself, hother⟩ := target_setWord (j := j) ((hclear _ hmem).trans hind) hlt honly
    rw [nonzero_of_data hdata] at hself
    refine .put (hown.of_bitmap rfl) (mem_slots_entry.mpr ⟨hi, hj⟩) (by rw [htarget, hz]; rfl) hself
      (fun w hw hwne => (hother w hw hwne).trans (hclear w hw)) rfl (fun _ _ => rfl) ⟨_, rfl⟩
      (fun w hw hwd c hc => ?_) fun _ => ?_
    · have hcb : c ≠ b := fun he => hnew w hw (he ▸ hc)
      have hci : c ≠ ind := by
        rintro rfl
        exact hwd i (h.unique hw hmem hc hind)
      exact (update_of_ne hci _ _).trans (update_of_ne hcb _ _)
    · exact (update_of_ne hne _ _).trans (update_self ..)
  · exact .refl h (htarget.trans (if_neg hnz))

theorem fileSlot_mem (hi : i < sb.ninodes) (hbn : bn < maxfile) : fileSlot i bn ∈ slots sb := by
  have hmax : maxfile = ndirect + nindirect := rfl
  unfold fileSlot
  split
  · rename_i hd
    exact mem_slots_direct.mpr ⟨hi, hd⟩
  · exact mem_slots_entry.mpr ⟨hi, by omega⟩

/-- `bmap` returns the block that the place of `bn` refers to afterwards; if there was one, nothing
    changes. -/
theorem wp_bmap (h : Own sb s s.target []) (hv : (s.core i).valid = true) (hi : i < sb.ninodes)
    (hbn : bn < maxfile) :
    wp (bmap sb i bn) (fun b s' => Own sb s' s'.target [] ∧ s'.target (fileSlot i bn) = some b ∧
      Maps sb i s s' ∧ (s.target (fileSlot i bn) ≠ none → s' = s)) (fun e _ => OutOfSpace e) s := by
  have hmax : maxfile = ndirect + nindirect := rfl
  simp only [bmap, wp_ite]
  refine ⟨fun hd => ?_, fun hd => ⟨fun hj => ?_, fun hj => absurd hbn (by omega)⟩⟩
  · rw [fileSlot, if_pos hd]
    exact wp_post (wp_addrBlock_direct h hv hi hd) fun _ _ ha => ⟨ha.own, ha.self, ha.toMaps, ha.same⟩
  · rw [fileSlot, if_neg hd, wp_bind]
    refine wp_post (wp_addrBlock_indirect h hv hi) fun ind s1 h1 => ?_
    refine wp_post (wp_entryBlock h1.own hi hj h1.self) fun b s2 h2 => ?_
    refine ⟨h2.own, h2.self, h1.trans h2.toMaps, fun hsome => ?_⟩
    -- An entry exists only if the indirect block does.
    have hsome' : s.target (.indirect i) ≠ none := by
      intro hnone
      refine hsome ?_
      have hz : (s.inode i).addrs ndirect = 0 := by
        by_contra hnz
        rw [State.target, nonzero, if_neg hnz] at hnone
        cases hnone
      simp [State.target, State.word, hz]
    obtain rfl := h1.same hsome'
    exact h2.same hsome

end Maps

end Xv6Paging.Blocks
