import Xv6Paging.Fs.Inodes

/-! # Files are byte arrays (`readi` and `writei`)

    The contents of an inode are read off its blocks, byte by byte. Blocks that `bmap`
    allocates are zero, and a byte without a block counts as zero, so that mapping blocks
    changes no byte of any file; what `writei` copies changes the bytes of its range only.

    `readi` and `writei` then are what they are for: reading and overwriting a part of
    an array.
-/

namespace Xv6Paging.Blocks

open List Wp Function

variable {bn fuel n off r x : Nat}

/-! ## Bytes -/

/-- Byte `x` of an inode; zero where there is no block. -/
def State.byte (s : State) (i x : Nat) : UInt8 :=
  match s.target (fileSlot i (x / bsize)) with
  | none => 0
  | some b => s.blocks b (x % bsize)

/-- The bytes of an inode below its size. -/
def State.contents (s : State) (i : Nat) : List UInt8 := (List.range (s.inode i).size).map (s.byte i)

/-- An array with `n` bytes of `src` copied to `off`. -/
def overwrite (old : List UInt8) (src : Nat → UInt8) (off n : Nat) : List UInt8 :=
  old.take off ++ (List.range n).map src ++ old.drop (off + n)

/-- Every file has the same bytes. -/
def SameBytes (sb : Super) (s s' : State) : Prop :=
  ∀ r < sb.ninodes, ∀ x < maxfile * bsize, s'.byte r x = s.byte r x

section Bytes

variable {sb : Super} {s s' s'' : State} {i k b : Nat}

theorem byte_of_target (h : s.target (fileSlot i (x / bsize)) = some b) :
    s.byte i x = s.blocks b (x % bsize) := by
  rw [State.byte, h]

theorem byte_of_none (h : s.target (fileSlot i (x / bsize)) = none) : s.byte i x = 0 := by
  rw [State.byte, h]

theorem SameBytes.trans (h : SameBytes sb s s') (h' : SameBytes sb s' s'') : SameBytes sb s s'' :=
  fun r hr x hx => (h' r hr x hx).trans (h r hr x hx)

/-- A place of file data keeps its block with its contents, or gets a block of zeros. -/
theorem SameBytes.of_slots (h : ∀ u ∈ slots sb, (∀ r, u ≠ .indirect r) →
      (s'.target u = s.target u ∧ ∀ c, s.target u = some c → s'.blocks c = s.blocks c) ∨
      (s.target u = none ∧ ∃ c, s'.target u = some c ∧ s'.blocks c = fun _ => 0)) :
    SameBytes sb s s' := by
  intro r hr x hx
  have hdata : ∀ q, fileSlot r (x / bsize) ≠ .indirect q := by
    intro q
    unfold fileSlot
    split <;> exact nofun
  rcases h _ (fileSlot_mem hr (block_lt hx)) hdata with ⟨ht, hblk⟩ | ⟨hnone, c, ht, hzero⟩
  · unfold State.byte
    rw [ht]
    split
    · rfl
    · rename_i c hc
      rw [hblk c hc]
  · rw [byte_of_target ht, byte_of_none hnone, hzero]

/-! ## Mapping blocks -/

theorem bmap_of_target (hv : (s.core i).valid = true) (hbn : bn < maxfile)
    (h : s.target (fileSlot i bn) = some b) : bmap sb i bn s = .ok b s := by
  have hmax : maxfile = ndirect + nindirect := rfl
  have hin := inode_of_valid hv
  refine eq_of_wp_iff (y := pure b) fun Q E => ?_
  by_cases hd : bn < ndirect
  · rw [fileSlot, if_pos hd, State.target, hin, nonzero_eq_some] at h
    rw [bmap, if_pos hd, addrBlock, wp_bind, wp_get, if_neg (by omega), h.1]
  · rw [fileSlot, if_neg hd, State.target, hin, State.word] at h
    split at h
    · cases h
    · rename_i hind
      rw [nonzero_eq_some] at h
      rw [bmap, if_neg hd, if_pos (by omega), wp_bind, addrBlock, wp_bind, wp_get, if_neg hind, wp_pure,
        entryBlock, wp_bind, wp_get, if_neg (by omega), h.1]

theorem Allots.sameBytes (h : Allots sb i u b s s') : SameBytes sb s s' := by
  refine .of_slots fun w hw hdata => ?_
  by_cases hnew : w = u ∧ s.target u = none
  · obtain ⟨rfl, hnone⟩ := hnew
    exact .inr ⟨hnone, b, h.self, h.zero hnone hdata⟩
  · refine .inl ⟨?_, h.data w hw hdata⟩
    by_cases hwu : w = u
    · rw [h.same fun hnone => hnew ⟨hwu, hnone⟩]
    · exact h.other w hw hwu

theorem bmap_bytes (h : Own sb s s.target []) (hv : (s.core i).valid = true) (hi : i < sb.ninodes)
    (hbn : bn < maxfile) :
    wp (bmap sb i bn) (fun _ s' => SameBytes sb s s') (fun e _ => OutOfSpace e) s := by
  have hmax : maxfile = ndirect + nindirect := rfl
  simp only [bmap, wp_ite]
  refine ⟨fun hd => ?_, fun hd => ⟨fun hj => ?_, fun hj => absurd hbn (by omega)⟩⟩
  · exact wp_post (wp_addrBlock_direct h hv hi hd) fun _ _ ha => ha.sameBytes
  · rw [wp_bind]
    refine wp_post (wp_addrBlock_indirect h hv hi) fun ind s1 h1 => ?_
    exact wp_post (wp_entryBlock h1.own hi hj h1.self) fun _ _ h2 => h1.sameBytes.trans h2.sameBytes

end Bytes

/-! ## Reading -/

section Read

variable {sb : Super} {s : State} {i : Nat}

/-- The loop of `readi` returns the bytes of blocks that exist. -/
theorem readBlocks_eq (hv : (s.core i).valid = true) (hfit : off + n ≤ maxfile * bsize)
    (hfuel : n ≤ fuel)
    (hall : ∀ x, off ≤ x → x < off + n → s.target (fileSlot i (x / bsize)) ≠ none) :
    readBlocks sb i fuel off n s = .ok ((List.range n).map fun k => s.byte i (off + k)) s := by
  have hb : bsize = 512 := rfl
  induction fuel generalizing off n with
  | zero =>
    obtain rfl : n = 0 := by omega
    rfl
  | succ fuel ih =>
    rw [readBlocks]
    by_cases hn : n = 0
    · subst hn
      rfl
    rw [if_neg hn]
    obtain ⟨b, hbt⟩ := Option.ne_none_iff_exists'.mp (hall off le_rfl (by omega))
    rw [bind_ok (bmap_of_target hv (block_lt (by omega)) hbt), bind_get]
    have hm : min n (bsize - off % bsize) ≤ bsize - off % bsize := Nat.min_le_right _ _
    have hle : min n (bsize - off % bsize) ≤ n := Nat.min_le_left _ _
    have hpos : 0 < min n (bsize - off % bsize) := by
      rw [hb]
      omega
    generalize min n (bsize - off % bsize) = m at hm hle hpos
    rw [bind_ok (ih (by omega) (by omega) fun x h1 h2 => hall x (by omega) (by omega))]
    refine congrArg (fun l => EStateM.Result.ok l s) ?_
    -- The bytes of this block, and then those of the blocks behind it.
    have hchunk : ∀ k < m, s.blocks b (off % bsize + k) = s.byte i (off + k) := by
      intro k hk
      rw [byte_of_target (b := b)]
      · congr 1
        rw [hb] at *
        omega
      · rwa [chunk_block hm (by omega) (by omega)]
    obtain ⟨r, rfl⟩ : ∃ r, n = m + r := ⟨n - m, by omega⟩
    rw [Nat.add_sub_cancel_left, range_add, map_append, map_map]
    congr 1
    · exact map_congr_left fun k hk => hchunk k (mem_range.mp hk)
    · exact map_congr_left fun k _ => by rw [comp_apply, Nat.add_assoc]

/-- `readi` returns a part of the contents, and changes nothing. -/
theorem readi_eq (h : Inv sb s) (hv : (s.core i).valid = true) (hi : i < sb.ninodes)
    (hdev : (s.inode i).type ≠ .dev) :
    readi sb i off n s = .ok (if (s.inode i).size < off ∨ 2 ^ 32 ≤ off + n then none
      else some (((s.contents i).drop off).take n)) s := by
  rw [inode_of_valid hv] at *
  rw [readi, bind_get, if_neg hdev]
  split
  · rfl
  · rename_i hok
    have hsize : (s.core i).din.size = (s.dinode i).size := by rw [(h.synced i hv).1]
    have hsmall := h.small i hi
    rw [bind_ok (readBlocks_eq hv (by omega) (by omega) fun x _ h2 => h.filled i hi x (by omega))]
    refine congrArg (fun l => EStateM.Result.ok (some l) s) ?_
    rw [State.contents, inode_of_valid hv]
    refine ext_getElem (by simp) fun k h1 h2 => ?_
    simp

end Read

/-! ## Writing -/

/-- Bytes `off` to `off + n` of inode `i` are those of `src`, and all others are as before. -/
def Overwritten (sb : Super) (i : Nat) (src : Nat → UInt8) (off n : Nat) (s s' : State) : Prop :=
  ∀ r < sb.ninodes, ∀ x < maxfile * bsize,
    s'.byte r x = if r = i ∧ off ≤ x ∧ x < off + n then src (x - off) else s.byte r x

section Write

variable {sb : Super} {s s' : State} {i b : Nat} {src : Nat → UInt8}

theorem fileSlot_inj (h : fileSlot r a = fileSlot i c) : r = i ∧ a = c := by
  unfold fileSlot at h
  split at h <;> split at h <;> simp at h <;> omega

/-- Bytes are read off places and blocks. -/
theorem byte_congr (ht : s'.target = s.target) (hb : s'.blocks = s.blocks) : s'.byte = s.byte := by
  funext r x
  rw [State.byte, State.byte, ht, hb]

theorem byte_setBlock {data : Nat → UInt8} (h : Own sb s s.target []) (hi : i < sb.ninodes)
    (hbn : bn < maxfile) (hb : s.target (fileSlot i bn) = some b) (hr : r < sb.ninodes)
    (hx : x < maxfile * bsize) :
    (s.setBlock b data).byte r x = if r = i ∧ x / bsize = bn then data (x % bsize) else s.byte r x := by
  have hmem := fileSlot_mem hr (block_lt hx)
  have ht : (s.setBlock b data).target (fileSlot r (x / bsize)) = s.target (fileSlot r (x / bsize)) :=
    h.target_setData hi hbn hb _ hmem
  by_cases hsame : r = i ∧ x / bsize = bn
  · obtain ⟨rfl, rfl⟩ := hsame
    rw [if_pos ⟨rfl, rfl⟩, byte_of_target (ht.trans hb), State.setBlock_blocks, update_self]
  · rw [if_neg hsame, State.byte, State.byte, ht]
    split
    · rfl
    · rename_i c hc
      have hcb : c ≠ b := by
        rintro rfl
        exact hsame (fileSlot_inj (h.unique hmem (fileSlot_mem hi hbn) hc hb))
      rw [State.setBlock_blocks, update_of_ne hcb]

/-- One chunk is copied into its block. -/
theorem copyIn_chunk {blk : Nat → UInt8} (hx : x / bsize = off / bsize) :
    copyIn blk src (off % bsize) m (x % bsize) =
      if off ≤ x ∧ x < off + m then src (x - off) else blk (x % bsize) := by
  unfold copyIn bsize at *
  by_cases hin : off ≤ x ∧ x < off + m
  · rw [if_pos hin, if_pos (by omega)]
    congr 1
    omega
  · rw [if_neg hin, if_neg (by omega)]

theorem writeBlocks_bytes (h : Own sb s s.target []) (hv : (s.core i).valid = true)
    (hi : i < sb.ninodes) (hfit : off + n ≤ maxfile * bsize) (hfuel : n ≤ fuel) :
    wp (writeBlocks sb i fuel src off n) (fun _ s' => Overwritten sb i src off n s s')
      (fun e _ => OutOfSpace e) s := by
  have hb : bsize = 512 := rfl
  induction fuel generalizing s src off n with
  | zero =>
    intro r _ x _
    rw [if_neg (by omega)]
  | succ fuel ih =>
    rw [writeBlocks, wp_ite]
    refine ⟨fun hn r _ x _ => by rw [if_neg (by omega)], fun hn => ?_⟩
    have hbn : off / bsize < maxfile := block_lt (by omega)
    rw [wp_bind]
    refine wp_post (wp_and (wp_bmap h hv hi hbn) (bmap_bytes h hv hi hbn)) ?_
    rintro b s1 ⟨⟨h1, hb1, hm1, -⟩, hsame⟩
    rw [wp_bind, wp_modify]
    have hm : min n (bsize - off % bsize) ≤ bsize - off % bsize := Nat.min_le_right _ _
    have hle : min n (bsize - off % bsize) ≤ n := Nat.min_le_left _ _
    have hpos : 0 < min n (bsize - off % bsize) := by
      rw [hb]
      omega
    generalize min n (bsize - off % bsize) = m at hm hle hpos
    have hdata : ∀ d, ∀ u ∈ slots sb, (s1.setBlock b d).target u = s1.target u := fun d =>
      h1.target_setData hi hbn hb1
    refine wp_post (ih ((h1.congr (hdata _)).of_bitmap rfl) (hm1.valid hv) (by omega) (by omega)) ?_
    intro _ s' hrest r hr x hx
    rw [hrest r hr x hx, byte_setBlock h1 hi hbn hb1 hr hx]
    by_cases hri : r = i
    · subst hri
      simp only [true_and]
      by_cases hlater : off + m ≤ x ∧ x < off + m + (n - m)
      · rw [if_pos hlater, if_pos (by omega)]
        congr 1
        omega
      · rw [if_neg hlater]
        by_cases hbk : x / bsize = off / bsize
        · rw [if_pos hbk, copyIn_chunk hbk]
          by_cases hnow : off ≤ x ∧ x < off + m
          · rw [if_pos hnow, if_pos (by omega)]
          · rw [if_neg hnow, if_neg (by omega), ← hsame r hr x hx, byte_of_target (hbk ▸ hb1)]
        · have hnow : ¬ (off ≤ x ∧ x < off + m) := fun hin => hbk (chunk_block hm hin.1 hin.2)
          rw [if_neg hbk, if_neg (by omega), hsame r hr x hx]
    · simp only [hri, false_and, if_false]
      exact hsame r hr x hx

/-- What `writei` leaves: all has been written, and the size of the file is up to date. -/
structure Written (sb : Super) (i : Nat) (src : Nat → UInt8) (off n : Nat) (s s' : State) : Prop where
  bytes : Overwritten sb i src off n s s'
  valid : (s'.core i).valid = true
  type : (s'.inode i).type = (s.inode i).type
  size : (s'.inode i).size = max (s.inode i).size (off + n)
  others : ∀ r, r ≠ i → (s'.inode r).size = (s.inode r).size

theorem writei_written (h : Inv sb s) (hv : (s.core i).valid = true) (hi : i < sb.ninodes)
    (hdev : (s.inode i).type ≠ .dev) (hoff : off ≤ (s.inode i).size) (hfit : off + n ≤ maxfile * bsize) :
    wp (writei sb i src off n) (fun r s' => r = some n ∧ Written sb i src off n s s')
      (fun e _ => OutOfSpace e) s := by
  have hbig : maxfile * bsize < 2 ^ 32 := by decide
  rw [inode_of_valid hv] at hdev hoff
  rw [writei, wp_bind, wp_get, if_neg hdev, if_neg (by omega), if_neg (by omega), wp_bind]
  refine wp_post (wp_and (wp_writeBlocks h.own hv hi hfit le_rfl)
    (writeBlocks_bytes h.own hv hi hfit le_rfl)) ?_
  rintro off' s' ⟨⟨rfl, hown, hm, -, -⟩, hbytes⟩
  obtain ⟨addrs, hcopy⟩ := hm.copy
  have hv' := hm.valid hv
  have hothers : ∀ r, r ≠ i → s'.inode r = s.inode r := by
    intro r hr
    rw [State.inode, State.inode, hm.others r hr, hm.dinode]
  rw [wp_ite]
  refine ⟨fun hgrow => ?_, fun hno => ?_⟩
  · simp only [wp_bind, wp_modify, iupdate, wp_pure]
    refine ⟨trivial, ?_⟩
    have hstored : ∀ d, (s'.setDin i d).setDinode i ((s'.setDin i d).core i).din =
        (s'.setDin i d).setDinode i d := by
      intro d
      simp [State.setDin]
    rw [hstored]
    have hvd : ∀ d, (((s'.setDin i d).setDinode i d).core i).valid = true := by
      intro d
      simp [State.setDin, hv']
    have hind : ∀ d, ((s'.setDin i d).setDinode i d).inode i = d := by
      intro d
      rw [inode_of_valid (hvd d)]
      simp [State.setDin]
    refine ⟨fun r hr x hx => ?_, hvd _, ?_, ?_, fun r hr => ?_⟩
    · have hsame := byte_congr (target_write (d := { (s'.core i).din with size := off + n })
        { s'.core i with din := _ } hv' rfl fun _ => rfl) rfl
      exact (congrFun₂ hsame r x).trans (hbytes r hr x hx)
    · rw [hind, inode_of_valid hv, hcopy]
    · rw [hind, inode_of_valid hv]
      show off + n = _
      omega
    · rw [← hothers r hr]
      simp [State.inode, State.setDin, hr]
  · rw [wp_pure]
    refine ⟨rfl, hbytes, hv', ?_, ?_, fun r hr => by rw [hothers r hr]⟩
    · rw [inode_of_valid hv', inode_of_valid hv, hcopy]
    · rw [inode_of_valid hv', inode_of_valid hv, hcopy]
      show (s.core i).din.size = _
      omega

theorem getElem?_overwrite {old : List UInt8} (hoff : off ≤ old.length) :
    (overwrite old src off n)[x]? = if off ≤ x ∧ x < off + n then some (src (x - off)) else old[x]? := by
  unfold overwrite
  have hlen : (old.take off).length = off := by simp [hoff]
  by_cases h1 : x < off
  · rw [if_neg (by omega), append_assoc, getElem?_append_left (by omega), getElem?_take_of_lt h1]
  · by_cases h2 : x < off + n
    · rw [if_pos ⟨by omega, h2⟩, getElem?_append_left (by simp; omega),
        getElem?_append_right (by omega), hlen, getElem?_map, getElem?_range (by omega)]
      rfl
    · rw [if_neg (by omega), getElem?_append_right (by simp; omega), getElem?_drop]
      congr 1
      simp
      omega

/-- The contents of the inode that has been written to. -/
theorem Written.contents (hw : Written sb i src off n s s') (h : Inv sb s) (hi : i < sb.ninodes)
    (hoff : off ≤ (s.inode i).size) (hfit : off + n ≤ maxfile * bsize) :
    s'.contents i = overwrite (s.contents i) src off n := by
  have hsmall := h.small i hi
  rw [← h.inode_eq i] at hsmall
  have hlen : (s.contents i).length = (s.inode i).size := by simp [State.contents]
  refine ext_getElem? fun x => ?_
  rw [getElem?_overwrite (by omega)]
  simp only [State.contents, getElem?_map, hw.size]
  by_cases hx : x < max (s.inode i).size (off + n)
  · rw [getElem?_range hx, Option.map_some, hw.bytes i hi x (by omega)]
    by_cases hin : off ≤ x ∧ x < off + n
    · simp [hin]
    · rw [if_neg hin, if_neg (by omega), getElem?_range (by omega), Option.map_some]
  · rw [getElem?_eq_none (by simp; omega), if_neg (by omega), getElem?_eq_none (by simp; omega)]
    rfl

theorem Written.contents_ne (hw : Written sb i src off n s s') (h : Inv sb s) (hr : r < sb.ninodes)
    (hne : r ≠ i) : s'.contents r = s.contents r := by
  have hsmall := h.small r hr
  rw [← h.inode_eq r] at hsmall
  rw [State.contents, State.contents, hw.others r hne]
  refine map_congr_left fun x hx => ?_
  have hlt := mem_range.mp hx
  rw [hw.bytes r hr x (by omega), if_neg fun hin => hne hin.1]

/-- A file behaves as an array of bytes: `writei` overwrites a part of it, `readi` returns parts
    of what is then there, and other files keep their contents. -/
theorem file_byteArray (h : Inv sb s) (hi : i < sb.ninodes) (hv : (s.core i).valid = true)
    (hfile : (s.inode i).type = .file) (hoff : off ≤ (s.inode i).size) (hfit : off + n ≤ maxfile * bsize) :
    wp (writei sb i src off n) (fun r s' => r = some n ∧
      (s'.inode i).size = max (s.inode i).size (off + n) ∧
      (∀ off' n', readi sb i off' n' s' =
        .ok (if (s'.inode i).size < off' ∨ 2 ^ 32 ≤ off' + n' then none
          else some (((overwrite (s.contents i) src off n).drop off').take n')) s') ∧
      ∀ r < sb.ninodes, r ≠ i → s'.contents r = s.contents r) (fun e _ => OutOfSpace e) s := by
  have hdev : (s.inode i).type ≠ .dev := by
    rw [hfile]
    exact nofun
  refine wp_post (wp_and (writei_written h hv hi hdev hoff hfit) (writei_inv h hv hi)) ?_
  rintro r s' ⟨⟨hr, hw⟩, hinv⟩
  refine ⟨hr, hw.size, fun off' n' => ?_, fun r hr hne => hw.contents_ne h hr hne⟩
  rw [readi_eq hinv hw.valid hi (by rwa [hw.type]), hw.contents h hi hoff hfit]

end Write

/-! ## A small file -/

/-- Inode 2 is made and gets 700 bytes. -/
def smallFileOps : List BlockOp := [.ialloc .file, .writei 2 (fun k => UInt8.ofNat k) 0 700]

def smallFile : State := Run.final (Run.run (BlockOp.exec smallSuper) smallFileOps) smallImage

theorem smallFile_inv : Inv smallSuper smallFile := by
  have hops : Run.Along (BlockOp.exec smallSuper) (BlockOp.Promised smallSuper) smallFileOps smallImage := by
    decide +kernel
  have hrun := Run.wp_invariant (fun _ _ hs hop => exec_inv hs hop) smallImage_wellFormed.inv hops
  exact Run.final_of_wp hrun (by decide +kernel)

theorem smallFile_inode : (smallFile.core 2).valid = true ∧ (smallFile.inode 2).type = .file ∧
    (smallFile.inode 2).size = 700 := by
  decide +kernel

attribute [irreducible] smallFile

/-- Overwriting the last 200 bytes of the file, and 800 behind them. -/
theorem file_byteArray_smallFile :
    wp (writei smallSuper 2 (fun _ => 1) 500 1000) (fun r s' => r = some 1000 ∧
      (s'.inode 2).size = max (smallFile.inode 2).size (500 + 1000) ∧
      (∀ off' n', readi smallSuper 2 off' n' s' =
        .ok (if (s'.inode 2).size < off' ∨ 2 ^ 32 ≤ off' + n' then none
          else some (((overwrite (smallFile.contents 2) (fun _ => 1) 500 1000).drop off').take n')) s') ∧
      ∀ r < smallSuper.ninodes, r ≠ 2 → s'.contents r = smallFile.contents r)
      (fun e _ => OutOfSpace e) smallFile :=
  file_byteArray smallFile_inv (by decide) smallFile_inode.1 smallFile_inode.2.1
    (by rw [smallFile_inode.2.2]; decide) (by decide)

end Xv6Paging.Blocks
