import Xv6Paging.Fs.Contents
import Xv6Paging.Fs.Log
import Xv6Paging.Lib.Ghost

/-! # What a write logs (`writei`, `bmap` and `balloc`)

    `filewrite` splits a write into chunks, each in a transaction of its own, so that a
    chunk logs no more than the `MAXOPBLOCKS` blocks which `begin_op` has reserved. Here the
    code of the block layer records the numbers of the blocks that it passes to `log_write`.
    Without the record it is the code of the block layer.

    A chunk of three blocks touches four blocks of the file if it does not start at a block
    boundary, but then the first of them is there already. So at most seven blocks are data
    or their bitmap blocks, and three more are the indirect block, its bitmap block, and the
    inode.
-/

namespace Xv6Paging.WriteLog

open List Wp Ghost Blocks

variable {b k ind j bn fuel off n : Nat} {src : Nat → UInt8} {s s' : State}

/-! ## Code with a record -/

/-- The block layer, with the blocks that have been passed to `log_write`. -/
structure Logging where
  fs : State
  logged : List Nat

abbrev L : Type → Type := EStateM Stop Logging

/-- The fields of the superblock that say where inodes and bitmap are. -/
structure Starts where
  inodestart : Nat
  bmapstart : Nat

/-- `BPB`. -/
def bpb : Nat := bsize * 8
/-- `IPB`. -/
def ipb : Nat := bsize / 64

/-- `BBLOCK(b, sb)`. -/
def Starts.bblock (st : Starts) (b : Nat) : Nat := b / bpb + st.bmapstart
/-- `IBLOCK(i, sb)`. -/
def Starts.iblock (st : Starts) (i : Nat) : Nat := i / ipb + st.inodestart

/-- Code that logs nothing. -/
def lift {α : Type} (x : B α) : L α := onPart Logging.fs (fun t s => { t with fs := s }) x

def logWrite (b : Nat) : L Unit := modify fun t => { t with logged := t.logged ++ [b] }

section Code

variable (sb : Super) (st : Starts)

/-- The bitmap block is logged, and the new block by `bzero`. -/
def balloc : L Nat := do
  let b ← lift (Blocks.balloc sb)
  logWrite (st.bblock b)
  logWrite b
  pure b

def addrBlock (i k : Nat) : L Nat := do
  let s ← lift get
  if (s.core i).din.addrs k = 0 then
    let b ← balloc sb st
    lift (modify fun s => s.setAddr i k b)
    pure b
  else
    pure ((s.core i).din.addrs k)

def entryBlock (ind j : Nat) : L Nat := do
  let s ← lift get
  if Words.get (s.blocks ind) j = 0 then
    let b ← balloc sb st
    lift (modify fun s => s.setBlock ind (Words.set (s.blocks ind) j b))
    logWrite ind
    pure b
  else
    pure (Words.get (s.blocks ind) j)

def bmap (i bn : Nat) : L Nat := do
  if bn < ndirect then
    addrBlock sb st i bn
  else if bn - ndirect < nindirect then
    let ind ← addrBlock sb st i ndirect
    entryBlock sb st ind (bn - ndirect)
  else
    throw (.panic "bmap: out of range")

def iupdate (i : Nat) : L Unit := do
  logWrite (st.iblock i)
  lift (Blocks.iupdate i)

def writeBlocks (i : Nat) : Nat → (Nat → UInt8) → Nat → Nat → L Nat
  | 0, _, off, _ => pure off
  | fuel + 1, src, off, n =>
    if n = 0 then
      pure off
    else do
      let b ← bmap sb st i (off / bsize)
      lift (modify fun s => s.setBlock b (copyIn (s.blocks b) src (off % bsize) (min n (bsize - off % bsize))))
      logWrite b
      writeBlocks i fuel (fun k => src (min n (bsize - off % bsize) + k))
        (off + min n (bsize - off % bsize)) (n - min n (bsize - off % bsize))

def writei (i : Nat) (src : Nat → UInt8) (off n : Nat) : L (Option Nat) := do
  let s ← lift get
  if (s.core i).din.type = .dev then
    pure none
  else if (s.core i).din.size < off ∨ 2 ^ 32 ≤ off + n then
    pure none
  else if maxfile * bsize < off + n then
    pure none
  else
    let off' ← writeBlocks sb st i n src off n
    if 0 < n ∧ (s.core i).din.size < off' then
      lift (modify fun s => s.setDin i { (s.core i).din with size := off' })
      iupdate st i
      pure (some n)
    else
      pure (some n)

end Code

/-! ## Without the record -/

section Erase

variable {sb : Super} {st : Starts} {i : Nat} {α : Type}

theorem erases_lift (x : B α) : Erases Logging.fs (lift x) x := erases_onPart (fun _ _ => rfl) x

theorem erases_logWrite (hf : Erases Logging.fs (f ()) z) : Erases Logging.fs (logWrite b >>= f) z := erases_record (fun _ => rfl) hf

theorem erases_balloc : Erases Logging.fs (balloc sb st) (Blocks.balloc sb) := by
  intro t Q E h
  simp only [balloc, lift, logWrite, wp_bind, wp_onPart, wp_modify, wp_pure]
  exact h

theorem erases_addrBlock : Erases Logging.fs (addrBlock sb st i k) (Blocks.addrBlock sb i k) :=
  erases_bind (erases_lift get) fun _ => erases_ite _
    (erases_bind erases_balloc fun b => erases_bind (erases_lift _) fun _ => erases_pure b) (erases_pure _)

theorem erases_entryBlock :
    Erases Logging.fs (entryBlock sb st ind j) (Blocks.entryBlock sb ind j) :=
  erases_bind (erases_lift get) fun _ => erases_ite _
    (erases_bind erases_balloc fun b => erases_bind (erases_lift _) fun _ =>
      erases_logWrite (erases_pure b)) (erases_pure _)

theorem erases_bmap : Erases Logging.fs (bmap sb st i bn) (Blocks.bmap sb i bn) :=
  erases_ite _ erases_addrBlock
    (erases_ite _ (erases_bind erases_addrBlock fun _ => erases_entryBlock) (erases_throw _))

theorem erases_writeBlocks :
    Erases Logging.fs (writeBlocks sb st i fuel src off n) (Blocks.writeBlocks sb i fuel src off n) := by
  induction fuel generalizing src off n with
  | zero => exact erases_pure off
  | succ fuel ih =>
    exact erases_ite _ (erases_pure off) (erases_bind erases_bmap fun b =>
      erases_bind (erases_lift _) fun _ => erases_logWrite ih)

theorem erases_iupdate : Erases Logging.fs (iupdate st i) (Blocks.iupdate i) := by
  intro t Q E h
  simp only [iupdate, lift, logWrite, wp_bind, wp_onPart, wp_modify]
  exact h

/-- The code with the record is the code of the block layer. -/
theorem erases_writei :
    Erases Logging.fs (writei sb st i src off n) (Blocks.writei sb i src off n) :=
  erases_bind (erases_lift get) fun _ => erases_ite _ (erases_pure none) (erases_ite _ (erases_pure none)
    (erases_ite _ (erases_pure none) (erases_bind erases_writeBlocks fun _ => erases_ite _
      (erases_bind (erases_lift _) fun _ => erases_bind erases_iupdate fun _ => erases_pure (some n))
      (erases_pure (some n)))))

end Erase

/-! ## Counting -/

/-- Does block `bn` of an inode have to be allocated? -/
def fresh (s : State) (i bn : Nat) : Nat := if s.target (fileSlot i bn) = none then 1 else 0

/-- Does the indirect block have to be allocated? -/
def freshIndirect (s : State) (i : Nat) : Nat := if s.target (.indirect i) = none then 1 else 0

/-- Between `t` and `t'` only the blocks of `A` and the indirect block of inode `i` are logged, and the
    indirect block stays. -/
structure Spends (i : Nat) (t t' : Logging) (A : List Nat) : Prop where
  covers : ∀ c ∈ t'.logged, c ∈ t.logged ∨ c ∈ A ∨ t'.fs.target (.indirect i) = some c
  keeps : ∀ c, t.fs.target (.indirect i) = some c → t'.fs.target (.indirect i) = some c

section Count

variable {sb : Super} {st : Starts} {i : Nat} {t t' t'' : Logging} {A A' : List Nat}

theorem Spends.refl (i : Nat) (t : Logging) : Spends i t t [] := ⟨fun _ hc => .inl hc, fun _ hc => hc⟩

theorem Spends.trans (h : Spends i t t' A) (h' : Spends i t' t'' A') : Spends i t t'' (A ++ A') := by
  refine ⟨fun c hc => ?_, fun c hc => h'.keeps c (h.keeps c hc)⟩
  rcases h'.covers c hc with hold | hnew | hind
  · rcases h.covers c hold with h1 | h2 | h3
    · exact .inl h1
    · exact .inr (.inl (mem_append_left _ h2))
    · exact .inr (.inr (h'.keeps c h3))
  · exact .inr (.inl (mem_append_right _ hnew))
  · exact .inr (.inr hind)

theorem addrBlock_logged :
    wp (addrBlock sb st i k) (fun b t' => t'.logged =
        if (t.fs.core i).din.addrs k = 0 then t.logged ++ [st.bblock b, b] else t.logged)
      (fun _ t' => t' = t) t := by
  simp only [addrBlock, balloc, Blocks.balloc, lift, logWrite, wp_bind, wp_onPart, wp_get, wp_ite, wp_modify,
    wp_pure]
  refine ⟨fun hz => ?_, fun hz => by rw [if_neg hz]⟩
  cases (List.range sb.size).find? fun b => !t.fs.bitmap b with
  | none => rfl
  | some b =>
    simp only [wp_bind, wp_set, wp_pure, if_pos hz]
    simp

theorem entryBlock_logged :
    wp (entryBlock sb st ind j) (fun b t' => t'.logged =
        if Words.get (t.fs.blocks ind) j = 0 then t.logged ++ [st.bblock b, b, ind] else t.logged)
      (fun _ t' => t' = t) t := by
  simp only [entryBlock, balloc, Blocks.balloc, lift, logWrite, wp_bind, wp_onPart, wp_get, wp_ite, wp_modify,
    wp_pure]
  refine ⟨fun hz => ?_, fun hz => by rw [if_neg hz]⟩
  cases (List.range sb.size).find? fun b => !t.fs.bitmap b with
  | none => rfl
  | some b =>
    simp only [wp_bind, wp_set, wp_pure, if_pos hz]
    simp

theorem fresh_mono (hm : Maps sb i s s') (hi : i < sb.ninodes) (hbn : bn < maxfile) :
    fresh s' i bn ≤ fresh s i bn := by
  unfold fresh
  cases ht : s.target (fileSlot i bn) with
  | none => split <;> simp
  | some b => simp [hm.keeps _ (fileSlot_mem hi hbn) b ht]

theorem freshIndirect_mono (hm : Maps sb i s s') (hi : i < sb.ninodes) :
    freshIndirect s' i ≤ freshIndirect s i := by
  unfold freshIndirect
  cases ht : s.target (.indirect i) with
  | none => split <;> simp
  | some b => simp [hm.keeps _ (mem_slots_indirect.mpr hi) b ht]

theorem nonzero_eq_none : nonzero a = none ↔ a = 0 := by
  unfold nonzero
  split <;> simp [*]

/-- A block that is allocated: besides the blocks `L` and an indirect block, its bitmap block is
    logged. -/
theorem Spends.of_allots {L M : List Nat} {Z : Prop} [Decidable Z]
    (ha : Allots sb i u b t.fs t'.fs) (hi : i < sb.ninodes) (hn : Z → 1 ≤ n)
    (hlog : t'.logged = if Z then t.logged ++ st.bblock b :: M else t.logged)
    (hM : ∀ c ∈ M, c ∈ L ∨ t'.fs.target (.indirect i) = some c) : ∃ A, A.length ≤ n ∧ Spends i t t' (L ++ A) := by
  have hkeeps := ha.keeps _ (mem_slots_indirect.mpr hi)
  by_cases hz : Z
  · rw [if_pos hz] at hlog
    refine ⟨[st.bblock b], hn hz, fun c hc => ?_, hkeeps⟩
    rw [hlog, mem_append, mem_cons] at hc
    rcases hc with hc | rfl | hc
    · exact .inl hc
    · exact .inr (.inl (by simp))
    · exact .inr ((hM c hc).imp_left (mem_append_left _))
  · rw [if_neg hz] at hlog
    exact ⟨[], Nat.zero_le n, fun c hc => .inl (hlog ▸ hc), hkeeps⟩

section Spends

variable (h : Own sb t.fs t.fs.target [])

include h

theorem addrBlock_direct_spends (hv : (t.fs.core i).valid = true) (hi : i < sb.ninodes) (hk : k < ndirect) :
    wp (addrBlock sb st i k) (fun b t' => ∃ A, A.length ≤ fresh t.fs i k ∧ Spends i t t' (b :: A))
      (fun _ t' => t' = t) t := by
  refine wp_post (wp_and addrBlock_logged
    (erases_addrBlock t _ _ (wp_addrBlock_direct h hv hi hk))) ?_
  rintro b t' ⟨hlog, ha⟩
  refine Spends.of_allots (L := [b]) ha hi (fun hz => ?_) hlog fun c hc => .inl hc
  have hnone : t.fs.target (fileSlot i k) = none := by
    rw [fileSlot, if_pos hk, State.target, inode_of_valid hv, nonzero_eq_none.mpr hz]
  simp [fresh, hnone]

theorem addrBlock_indirect_spends (hv : (t.fs.core i).valid = true) (hi : i < sb.ninodes) :
    wp (addrBlock sb st i ndirect) (fun _ t' => ∃ A, A.length ≤ freshIndirect t.fs i ∧ Spends i t t' A)
      (fun _ t' => t' = t) t := by
  refine wp_post (wp_and addrBlock_logged
    (erases_addrBlock t _ _ (wp_addrBlock_indirect h hv hi))) ?_
  rintro ind t' ⟨hlog, ha⟩
  refine Spends.of_allots (L := []) ha hi (fun hz => ?_) hlog fun c hc => .inr ?_
  · have hnone : t.fs.target (.indirect i) = none := by
      rw [State.target, inode_of_valid hv, nonzero_eq_none.mpr hz]
    simp [freshIndirect, hnone]
  · rw [mem_singleton.mp hc, ha.self]

/-- A block of the indirect block, which is logged too. -/
theorem entryBlock_spends (hi : i < sb.ninodes) (hj : j < nindirect) (hind : t.fs.target (.indirect i) = some ind) :
    wp (entryBlock sb st ind j) (fun b t' => ∃ A, A.length ≤ fresh t.fs i (ndirect + j) ∧
      Spends i t t' (b :: A)) (fun _ t' => t' = t) t := by
  refine wp_post (wp_and entryBlock_logged (erases_entryBlock t _ _ (wp_entryBlock h hi hj hind))) ?_
  rintro b t' ⟨hlog, ha⟩
  have haddr := nonzero_eq_some.mp hind
  refine Spends.of_allots (L := [b]) ha hi (fun hz => ?_) hlog fun c hc => ?_
  · have hnone : t.fs.target (fileSlot i (ndirect + j)) = none := by
      rw [fileSlot, if_neg (by omega), Nat.add_sub_cancel_left, State.target, State.word, haddr.1,
        if_neg haddr.2, nonzero_eq_none.mpr hz]
    simp [fresh, hnone]
  · rcases mem_cons.mp hc with rfl | hc
    · exact .inl (by simp)
    · exact .inr (ha.keeps _ (mem_slots_indirect.mpr hi) c (mem_singleton.mp hc ▸ hind))

/-- `bmap` logs its block and one block more for every allocation. -/
theorem bmap_spends (hv : (t.fs.core i).valid = true) (hi : i < sb.ninodes) (hbn : bn < maxfile) :
    wp (bmap sb st i bn)
      (fun b t' => ∃ A, A.length + freshIndirect t'.fs i ≤ fresh t.fs i bn + freshIndirect t.fs i ∧
        Spends i t t' (b :: A)) (fun _ t' => ∃ A, A.length ≤ freshIndirect t.fs i ∧ Spends i t t' A) t := by
  have hmax : maxfile = ndirect + nindirect := rfl
  have hstay : ∃ A, A.length ≤ freshIndirect t.fs i ∧ Spends i t t A := ⟨[], Nat.zero_le _, .refl i t⟩
  rw [bmap]
  by_cases hd : bn < ndirect
  · rw [if_pos hd]
    refine wp_mono (wp_and (addrBlock_direct_spends h hv hi hd)
      (erases_addrBlock t _ _ (wp_addrBlock_direct h hv hi hd))) ?_ ?_
    · rintro b t' ⟨⟨A, hA, hs⟩, ha⟩
      have := freshIndirect_mono ha.toMaps hi
      exact ⟨A, by omega, hs⟩
    · rintro e t' rfl
      exact hstay
  · obtain ⟨j, rfl⟩ : ∃ j, bn = ndirect + j := ⟨bn - ndirect, by omega⟩
    have hj : j < nindirect := by omega
    rw [if_neg hd, Nat.add_sub_cancel_left, if_pos hj, wp_bind]
    refine wp_mono (wp_and (addrBlock_indirect_spends h hv hi)
      (erases_addrBlock t _ _ (wp_addrBlock_indirect h hv hi))) ?_ ?_
    · rintro ind t₁ ⟨⟨A₁, hA₁, hs₁⟩, h₁⟩
      refine wp_mono (wp_and (entryBlock_spends h₁.own hi hj h₁.self)
        (erases_entryBlock t₁ _ _ (wp_entryBlock h₁.own hi hj h₁.self))) ?_ ?_
      · rintro b t₂ ⟨⟨A₂, hA₂, hs₂⟩, h₂⟩
        have hfresh := fresh_mono h₁.toMaps hi hbn
        have hzero : freshIndirect t₂.fs i = 0 := by
          simp [freshIndirect, h₂.keeps _ (mem_slots_indirect.mpr hi) ind h₁.self]
        refine ⟨A₁ ++ A₂, by rw [length_append]; omega, ?_, fun c hc => hs₂.keeps c (hs₁.keeps c hc)⟩
        intro c hc
        rcases (hs₁.trans hs₂).covers c hc with h1 | h2 | h3
        · exact .inl h1
        · refine .inr (.inl ?_)
          simp only [mem_append, mem_cons] at h2 ⊢
          tauto
        · exact .inr (.inr h3)
      · rintro e t' rfl
        exact ⟨A₁, hA₁, hs₁⟩
    · rintro e t' rfl
      exact hstay

end Spends

/-- One block for each turn of the loop of `writei`, and one for each block it allocates. -/
def cost (s : State) (i : Nat) : Nat → Nat → Nat → Nat
  | 0, _, _ => 0
  | fuel + 1, off, n =>
    if n = 0 then
      0
    else
      1 + fresh s i (off / bsize) +
        cost s i fuel (off + min n (bsize - off % bsize)) (n - min n (bsize - off % bsize))

theorem cost_mono (hm : Maps sb i s s') (hi : i < sb.ninodes) (hfit : off + n ≤ maxfile * bsize) :
    cost s' i fuel off n ≤ cost s i fuel off n := by
  induction fuel generalizing off n with
  | zero => exact le_rfl
  | succ fuel ih =>
    unfold cost
    split
    · exact le_rfl
    · have hle : min n (bsize - off % bsize) ≤ n := Nat.min_le_left _ _
      have hfresh : fresh s' i (off / bsize) ≤ fresh s i (off / bsize) :=
        fresh_mono hm hi (block_lt (by omega))
      have hrest := @ih (off + min n (bsize - off % bsize)) (n - min n (bsize - off % bsize)) (by omega)
      omega

/-- The loop of `writei`, also when it stops in the middle. -/
theorem writeBlocks_spends (h : Own sb t.fs t.fs.target []) (hv : (t.fs.core i).valid = true)
    (hi : i < sb.ninodes) (hfit : off + n ≤ maxfile * bsize) :
    wp (writeBlocks sb st i fuel src off n)
      (fun _ t' => ∃ A, A.length ≤ cost t.fs i fuel off n + freshIndirect t.fs i ∧ Spends i t t' A)
      (fun _ t' => ∃ A, A.length ≤ cost t.fs i fuel off n + freshIndirect t.fs i ∧ Spends i t t' A) t := by
  have hb : bsize = 512 := rfl
  induction fuel generalizing t src off n with
  | zero => exact ⟨[], Nat.zero_le _, .refl i t⟩
  | succ fuel ih =>
    rw [writeBlocks, wp_ite]
    refine ⟨fun _ => ⟨[], Nat.zero_le _, .refl i t⟩, fun hn => ?_⟩
    have hbn : off / bsize < maxfile := block_lt (by omega)
    have hcost : cost t.fs i (fuel + 1) off n = 1 + fresh t.fs i (off / bsize) +
        cost t.fs i fuel (off + min n (bsize - off % bsize)) (n - min n (bsize - off % bsize)) := by
      rw [cost, if_neg hn]
    rw [hcost, wp_bind]
    refine wp_mono (wp_and (bmap_spends h hv hi hbn) (erases_bmap t _ _ (wp_bmap h hv hi hbn))) ?_ ?_
    · rintro b t1 ⟨⟨A1, hA1, hs1⟩, h1, hb1, hm1, -⟩
      have hle : min n (bsize - off % bsize) ≤ n := Nat.min_le_left _ _
      generalize min n (bsize - off % bsize) = m at hle
      simp only [lift, logWrite, wp_bind, wp_onPart, wp_modify]
      have hdata : ∀ d, ∀ u ∈ slots sb, (t1.fs.setBlock b d).target u = t1.fs.target u := fun d =>
        h1.target_setData hi hbn hb1
      generalize hd : copyIn (t1.fs.blocks b) src (off % bsize) m = data
      have hm2 : Maps sb i t.fs (t1.fs.setBlock b data) :=
        hm1.trans ⟨rfl, fun _ _ => rfl, ⟨_, rfl⟩, fun u hu c hc => (hdata data u hu).trans hc⟩
      have hs2 : Spends i t ⟨t1.fs.setBlock b data, t1.logged ++ [b]⟩ (b :: A1) := by
        refine ⟨fun c hc => ?_, hs1.keeps⟩
        rcases mem_append.mp hc with hc | hc
        · exact hs1.covers c hc
        · exact .inr (.inl (by simp [mem_singleton.mp hc]))
      have hrest : cost (t1.fs.setBlock b data) i fuel (off + m) (n - m) ≤
          cost t.fs i fuel (off + m) (n - m) := cost_mono hm2 hi (by omega)
      have hind : freshIndirect (t1.fs.setBlock b data) i = freshIndirect t1.fs i := rfl
      have hfinish : ∀ t', (∃ A, A.length ≤ cost (t1.fs.setBlock b data) i fuel (off + m) (n - m) +
            freshIndirect (t1.fs.setBlock b data) i ∧
            Spends i ⟨t1.fs.setBlock b data, t1.logged ++ [b]⟩ t' A) →
          ∃ A, A.length ≤ 1 + fresh t.fs i (off / bsize) + cost t.fs i fuel (off + m) (n - m) +
            freshIndirect t.fs i ∧ Spends i t t' A := by
        rintro t' ⟨A, hA, hs⟩
        refine ⟨b :: A1 ++ A, ?_, hs2.trans hs⟩
        rw [cons_append, length_cons, length_append]
        omega
      have h2 : Own sb (t1.fs.setBlock b data) (t1.fs.setBlock b data).target [] :=
        (h1.congr (hdata data)).of_bitmap rfl
      exact wp_mono (ih (t := ⟨t1.fs.setBlock b data, t1.logged ++ [b]⟩) h2 (hm2.valid hv) (by omega))
        (fun _ t' => hfinish t') fun _ t' => hfinish t'
    · rintro e t' ⟨A, hA, hs⟩
      exact ⟨A, by omega, hs⟩

/-! ## The bound -/

theorem cost_zero : cost s i fuel off 0 = 0 := by
  cases fuel with
  | zero => rfl
  | succ fuel => rw [cost, if_pos rfl]

/-- From a block boundary on, two blocks for each block of the file. -/
theorem cost_aligned (hoff : off % bsize = 0) :
    cost s i fuel off n ≤ 2 * ((n + (bsize - 1)) / bsize) := by
  have hb : bsize = 512 := rfl
  induction fuel generalizing off n with
  | zero => exact Nat.zero_le _
  | succ fuel ih =>
    unfold cost
    split
    · exact Nat.zero_le _
    · have hfresh : fresh s i (off / bsize) ≤ 1 := by
        unfold fresh
        split <;> decide
      by_cases hlast : n ≤ bsize - off % bsize
      · rw [Nat.min_eq_left hlast, Nat.sub_self, cost_zero]
        rw [hb] at *
        omega
      · rw [Nat.min_eq_right (by omega)]
        have hrest := @ih (off + (bsize - off % bsize)) (n - (bsize - off % bsize)) (by rw [hb] at *; omega)
        rw [hb] at *
        omega

/-- `filewrite` writes at most this much in a transaction. -/
def filewriteMax : Nat := (Log.maxopblocks - 1 - 1 - 2) / 2 * 512

/-- A chunk of `filewrite` in a file without holes. -/
theorem cost_chunk (hn : n ≤ filewriteMax)
    (hfilled : off % bsize ≠ 0 → s.target (fileSlot i (off / bsize)) ≠ none) :
    cost s i fuel off n ≤ 7 := by
  have hb : bsize = 512 := rfl
  have hmax : filewriteMax = 1536 := rfl
  by_cases hoff : off % bsize = 0
  · have hall : cost s i fuel off n ≤ 2 * ((n + (bsize - 1)) / bsize) := cost_aligned hoff
    rw [hb] at *
    omega
  · cases fuel with
    | zero => exact Nat.zero_le _
    | succ fuel =>
      unfold cost
      split
      · exact Nat.zero_le _
      · -- The first block is there, and the others start at a block boundary.
        have hfresh : fresh s i (off / bsize) = 0 := if_neg (hfilled hoff)
        rw [hfresh]
        by_cases hlast : n ≤ bsize - off % bsize
        · rw [Nat.min_eq_left hlast, Nat.sub_self, cost_zero]
          omega
        · rw [Nat.min_eq_right (by omega)]
          have hrest : cost s i fuel (off + (bsize - off % bsize)) (n - (bsize - off % bsize)) ≤
              2 * ((n - (bsize - off % bsize) + (bsize - 1)) / bsize) :=
            cost_aligned (by rw [hb] at *; omega)
          rw [hb] at *
          omega

/-- The blocks that have been logged are few. -/
theorem Spends.card {logged : List Nat} (h : Spends i ⟨s, []⟩ t' A)
    (hlog : ∀ c ∈ logged, c ∈ t'.logged ∨ c = x) : logged.toFinset.card ≤ A.length + 2 := by
  have hsub : logged.toFinset ⊆ (A ++ [x, (t'.fs.target (.indirect i)).getD 0]).toFinset := by
    intro c hc
    rw [mem_toFinset] at hc ⊢
    rcases hlog c hc with hc | rfl
    · rcases h.covers c hc with h1 | h2 | h3
      · exact nomatch h1
      · exact mem_append_left _ h2
      · simp [h3]
    · simp
  have hcard := Finset.card_le_card hsub
  have hlen := toFinset_card_le (A ++ [x, (t'.fs.target (.indirect i)).getD 0])
  rw [length_append] at hlen
  simp only [length_cons, length_nil] at hlen
  omega

/-- A chunk of `filewrite` logs no more blocks than `begin_op` has reserved, however many bitmap blocks
    there are. -/
theorem filewrite_chunk_fits {s : State} {off n : Nat} {src : Nat → UInt8} (h : Inv sb s)
    (hi : i < sb.ninodes) (hv : (s.core i).valid = true) (hoff : off ≤ (s.inode i).size)
    (hn : n ≤ filewriteMax) (hfit : off + n ≤ maxfile * bsize) :
    wp (writei sb st i src off n) (fun _ t' => t'.logged.toFinset.card ≤ Log.maxopblocks)
      (fun _ t' => t'.logged.toFinset.card ≤ Log.maxopblocks) ⟨s, []⟩ := by
  have hten : Log.maxopblocks = 10 := rfl
  have hcost : cost s i n off n ≤ 7 := by
    refine cost_chunk hn fun hoff' => ?_
    have hlt : off / bsize * bsize < off := by
      have := Nat.div_add_mod off bsize
      have := Nat.mul_comm (off / bsize) bsize
      omega
    rw [h.inode_eq] at hoff
    have hblock := h.filled i hi (off / bsize * bsize) (by omega)
    rwa [Nat.mul_div_cancel _ (by decide)] at hblock
  have hone : freshIndirect s i ≤ 1 := by
    unfold freshIndirect
    split <;> decide
  simp only [writei, lift, wp_bind, wp_onPart, wp_get, wp_ite, wp_pure]
  refine ⟨fun _ => Nat.zero_le _, fun _ => ⟨fun _ => Nat.zero_le _, fun _ => ⟨fun _ => Nat.zero_le _, fun _ => ?_⟩⟩⟩
  refine wp_mono (writeBlocks_spends (t := ⟨s, []⟩) h.own hv hi hfit) ?_ ?_
  · rintro off' t' ⟨A, hA, hs⟩
    refine ⟨fun _ => ?_, fun _ => ?_⟩
    · simp only [iupdate, Blocks.iupdate, lift, logWrite, wp_bind, wp_onPart, wp_modify]
      have hcard : (t'.logged ++ [st.iblock i]).toFinset.card ≤ A.length + 2 :=
        hs.card fun c hc => by simpa using hc
      simp only at *
      omega
    · have hcard : t'.logged.toFinset.card ≤ A.length + 2 := hs.card (x := 0) fun c hc => .inl hc
      simp only at *
      omega
  · rintro e t' ⟨A, hA, hs⟩
    have hcard : t'.logged.toFinset.card ≤ A.length + 2 := hs.card (x := 0) fun c hc => .inl hc
    simp only at *
    omega

end Count

/-- A chunk that starts in the middle of the first block of a file. -/
theorem filewrite_chunk_fits_smallFile :
    wp (writei smallSuper ⟨2, 3⟩ 2 (fun _ => 1) 500 filewriteMax)
      (fun _ t' => t'.logged.toFinset.card ≤ Log.maxopblocks)
      (fun _ t' => t'.logged.toFinset.card ≤ Log.maxopblocks) ⟨smallFile, []⟩ :=
  filewrite_chunk_fits smallFile_inv (by decide) smallFile_inode.1
    (by rw [smallFile_inode.2.2]; decide) le_rfl (by decide)

end Xv6Paging.WriteLog
