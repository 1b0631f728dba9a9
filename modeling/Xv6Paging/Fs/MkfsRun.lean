import Xv6Paging.Fs.MkfsImage

/-! # Whole runs of `mkfs`

    The calls of `main` keep the invariant as long as the inodes stay in their area, and the
    image that results is what the kernel expects, but for the size of the root directory:
    it is rounded up to a block that exists only if the last block of the directory is
    partly filled. With more files the inodes run over the bitmap and the data blocks, and
    only their number is known.
-/

namespace Xv6Paging.Mkfs

open List Wp Function
open Blocks (ndirect nindirect Slot slots fileSlot nonzero mem_slots_direct mem_slots_indirect mem_slots_entry)
open Bio (fssize)
open Dirs (ninodes rootino dirsiz)

/-! ## Whole calls -/

/-- An inode that was never written. -/
def Dinode.zero : Dinode := ⟨0, 0, 0, 0, 0, fun _ => 0⟩

/-- Between two calls all inodes are in the image. -/
structure Books (s : State) (sz : Nat → Nat) : Prop where
  inv : Inv s s.view sz
  size : ∀ i < ninodes, (s.dinode i).size.toNat = sz i
  made : ∀ i, 0 < i → i < s.freeinode → fileType (s.dinode i).type.toNat ≠ .free
  rest : ∀ i < ninodes, i = 0 ∨ s.freeinode ≤ i → s.dinode i = .zero
  pos : 0 < s.freeinode
  le : s.freeinode ≤ ninodes

section Calls

variable {s : State} {sz : Nat → Nat} {i : Nat}

theorem small_lt : maxfile * bsize < 2 ^ 32 := by decide

theorem Books.sz_rest (h : Books s sz) (hi : i < ninodes) (hrest : s.freeinode ≤ i) : sz i = 0 := by
  rw [← h.size i hi, h.rest i hi (.inr hrest)]
  rfl

/-- An inode of the image is replaced by one with the same addresses as the one in memory. -/
theorem Inv.putInode {ip din : Dinode} (h : Inv s (s.edit i din) sz) (hi : i < ninodes) (haddrs : ip.addrs = din.addrs) :
    Inv (s.putInode i ip) (s.putInode i ip).view sz := by
  have hlt := iblock_lt hi
  have hmap : bmapstart + 1 = nmeta := rfl
  refine ⟨⟨h.fresh.sectors, h.fresh.low, fun b hb => ?_⟩, h.high, ?_, h.count, h.small⟩
  · have hlow := h.fresh.low
    have hb' : s.freeblock ≤ b := hb
    rw [State.putInode, State.put_disk, update_of_ne (by omega)]
    exact h.fresh.zeros b hb'
  · refine h.layout.congr (fun u _ => ?_) fun _ _ => Iff.rfl
    rw [target_putInode hi haddrs]

/-- `iappend` keeps the books, or there is no room for so many bytes. -/
theorem wp_iappend {p : List UInt8} (h : Books s sz) (hpos : 0 < i) (hi : i < s.freeinode) :
    wp (iappend i p) (fun _ s' => s'.freeinode = s.freeinode ∧ Books s' (update sz i (sz i + p.length)))
      (fun _ _ => ¬ Room (update sz i (sz i + p.length))) s := by
  have hlt : i < ninodes := hi.trans_le h.le
  have hinv : Inv s (s.edit i (s.dinode i)) sz :=
    ⟨h.inv.fresh, h.inv.high, h.inv.layout.congr (fun u _ => by rw [target_edit hlt]) fun _ _ => Iff.rfl, h.inv.count,
      h.inv.small⟩
  rw [iappend, wp_bind, wp_rinode h.inv.fresh.sectors hlt, h.size i hlt, wp_bind]
  refine wp_post (wp_appendBlocks hlt hinv le_rfl) ?_
  rintro ⟨off, din⟩ s1 ⟨hoff, hstep, hinv1⟩
  obtain rfl : off = sz i + p.length := hoff
  show wp (winode i _) _ _ s1
  rw [wp_winode hstep.fresh.sectors hlt]
  have hsize : (UInt32.ofNat (sz i + p.length)).toNat = sz i + p.length := by
    have := hinv1.small i hlt
    rw [update_self] at this
    exact UInt32.toNat_ofNat_of_lt' (Nat.lt_of_le_of_lt this small_lt)
  have hother : ∀ r < ninodes, r ≠ i → (s1.putInode i { din with size := .ofNat (sz i + p.length) }).dinode r = s.dinode r :=
    fun r hr hri => (dinode_putInode_ne _ hri).trans (hstep.dinodes r hr)
  refine ⟨hstep.freeinode, hinv1.putInode hlt rfl, fun r hr => ?_, fun r hr hr' => ?_, fun r hr hr' => ?_,
    hstep.freeinode ▸ h.pos, hstep.freeinode ▸ h.le⟩
  · by_cases hri : r = i
    · subst hri
      rw [dinode_putInode, update_self, hsize]
    · rw [hother r hr hri, update_of_ne hri, h.size r hr]
  · have hold : r < s.freeinode := hstep.freeinode ▸ hr'
    by_cases hri : r = i
    · have htype : din.type = (s.dinode i).type := by
        have := hstep.fields
        exact (Dinode.mk.inj this).1
      rw [hri, dinode_putInode, htype]
      exact h.made i hpos hi
    · rw [hother r (hold.trans_le h.le) hri]
      exact h.made r hr hold
  · have hold : r = 0 ∨ s.freeinode ≤ r := hstep.freeinode ▸ hr'
    rw [hother r hr (by omega)]
    exact h.rest r hr hold

/-- The next inode. -/
theorem wp_ialloc {type : UInt16} (h : Books s sz) (hfree : s.freeinode < ninodes)
    (htype : fileType type.toNat ≠ .free) :
    wp (ialloc type) (fun i s' => i = s.freeinode ∧ s'.freeinode = s.freeinode + 1 ∧ Books s' sz) noStop s := by
  have hzero := h.rest s.freeinode hfree (.inr le_rfl)
  have hinv : Inv { s with freeinode := s.freeinode + 1 }
      (State.edit { s with freeinode := s.freeinode + 1 } s.freeinode (s.dinode s.freeinode)) sz :=
    ⟨⟨h.inv.fresh.sectors, h.inv.fresh.low, h.inv.fresh.zeros⟩, h.inv.high,
      h.inv.layout.congr (fun u _ => congrFun (target_edit (s := s) hfree) u) fun _ _ => Iff.rfl, h.inv.count,
      h.inv.small⟩
  simp only [ialloc, wp_bind, wp_get, wp_set]
  refine (wp_winode (by exact h.inv.fresh.sectors) hfree).mpr ?_
  rw [wp_pure]
  have hother : ∀ r, r ≠ s.freeinode → (State.putInode { s with freeinode := s.freeinode + 1 } s.freeinode
      ⟨type, 0, 0, 1, 0, fun _ => 0⟩).dinode r = s.dinode r := fun r hr => dinode_putInode_ne _ hr
  refine ⟨rfl, rfl, hinv.putInode hfree (by rw [hzero]; rfl), fun r hr => ?_, fun r hr hr' => ?_, fun r hr hr' => ?_,
    Nat.succ_pos _, hfree⟩
  · by_cases hri : r = s.freeinode
    · subst hri
      rw [dinode_putInode, h.sz_rest hfree le_rfl]
      rfl
    · rw [hother r hri, h.size r hr]
  · by_cases hri : r = s.freeinode
    · subst hri
      rw [dinode_putInode]
      exact htype
    · have hlt : r < s.freeinode + 1 := hr'
      rw [hother r hri]
      exact h.made r hr (by omega)
  · have hge : r = 0 ∨ s.freeinode + 1 ≤ r := hr'
    have hpos := h.pos
    rw [hother r (by omega)]
    exact h.rest r hr (by omega)

theorem Books.copy_nil {bytes : List UInt8} (h : Books s sz) (hnil : bytes = []) :
    s.freeinode = s.freeinode ∧ Books s (update sz i (sz i + bytes.length)) := by
  subst hnil
  rw [length_nil, Nat.add_zero, update_eq_self]
  exact ⟨rfl, h⟩

/-- A file is copied in pieces of one block. -/
theorem wp_copyFile {fuel : Nat} {bytes : List UInt8} (h : Books s sz) (hpos : 0 < i) (hi : i < s.freeinode)
    (hlen : bytes.length ≤ fuel) :
    wp (copyFile i fuel bytes)
      (fun _ s' => s'.freeinode = s.freeinode ∧ Books s' (update sz i (sz i + bytes.length)))
      (fun _ _ => ¬ Room (update sz i (sz i + bytes.length))) s := by
  have hlt : i < ninodes := hi.trans_le h.le
  induction fuel generalizing s sz bytes with
  | zero => exact h.copy_nil (length_eq_zero_iff.mp (Nat.le_zero.mp hlen))
  | succ fuel ih =>
    rw [copyFile]
    by_cases hnil : bytes = []
    · rw [if_pos hnil]
      exact h.copy_nil hnil
    · rw [if_neg hnil, wp_bind]
      have hpos' : 0 < bytes.length := length_pos_iff.mpr hnil
      have hb : bsize = 512 := rfl
      have hsum : (bytes.take bsize).length + (bytes.drop bsize).length = bytes.length := by
        rw [length_take, length_drop]
        omega
      refine wp_mono (wp_iappend h hpos hi) ?_ ?_
      · rintro ⟨⟩ s1 ⟨hfree1, h1⟩
        have hnext := @ih s1 (update sz i (sz i + (bytes.take bsize).length)) (bytes.drop bsize) h1
          (hfree1 ▸ hi) (by rw [length_drop]; omega)
        rw [update_self, update_idem, Nat.add_assoc, hsum] at hnext
        refine wp_post hnext ?_
        rintro ⟨⟩ s2 ⟨hfree2, h2⟩
        exact ⟨hfree2.trans hfree1, h2⟩
      · intro _ _ hfull hroom
        exact hfull (hroom.of_update hlt (by omega))

theorem length_dirent (inum : Nat) (name : List UInt8) : (dirent inum name).length = 16 := by
  have hd : dirsiz = 14 := rfl
  simp only [dirent, length_append, length_cons, length_nil, length_take, length_replicate, hd]
  omega

/-- The sizes when the files have been added, the first of them in inode `k`. -/
def sizesFrom (sz : Nat → Nat) (k : Nat) : List File → Nat → Nat
  | [] => sz
  | f :: files =>
    sizesFrom (update (update sz rootino (sz rootino + 16)) k (f.content.getD []).length) (k + 1) files

/-- A file has a name without a slash and can be opened. -/
def File.Ok (f : File) : Prop := 47 ∉ f.name ∧ f.content ≠ none

theorem le_sizesFrom {files : List File} {k : Nat} (hk : rootino < k) (hrest : ∀ r < ninodes, k ≤ r → sz r = 0)
    (hr : i < ninodes) : sz i ≤ sizesFrom sz k files i := by
  induction files generalizing sz k with
  | nil => exact le_rfl
  | cons f files ih =>
    refine Nat.le_trans ?_ (ih (Nat.lt_succ_of_lt hk) fun r hr' hkr => ?_)
    · by_cases hik : i = k
      · rw [hrest i hr (by omega)]
        exact Nat.zero_le _
      · rw [update_of_ne hik]
        by_cases hroot : i = rootino
        · rw [hroot, update_self]
          exact Nat.le_add_right _ _
        · rw [update_of_ne hroot]
    · rw [update_of_ne (by omega), update_of_ne (by omega)]
      exact hrest r hr' (by omega)

theorem sizesFrom_root {files : List File} (hk : rootino < k) :
    sizesFrom sz k files rootino = sz rootino + 16 * files.length := by
  induction files generalizing sz k with
  | nil => rfl
  | cons f files ih =>
    rw [sizesFrom, ih (Nat.lt_succ_of_lt hk), update_of_ne hk.ne, update_self,
      length_cons]
    omega

/-- The loop over the files: an inode, an entry in the root directory and the bytes for each. -/
theorem wp_addFiles {files : List File} (h : Books s sz) (hroot : rootino < s.freeinode)
    (hfiles : s.freeinode + files.length ≤ ninodes) :
    wp (addFiles rootino files) (fun _ s' => s'.freeinode = s.freeinode + files.length ∧
      Books s' (sizesFrom sz s.freeinode files))
      (fun _ _ => ¬ ((∀ f ∈ files, f.Ok) ∧ Room (sizesFrom sz s.freeinode files))) s := by
  induction files generalizing s sz with
  | nil => exact ⟨rfl, h⟩
  | cons f files ih =>
    rw [length_cons] at hfiles
    have hfree : s.freeinode < ninodes := by omega
    rw [addFiles, wp_ite]
    refine ⟨fun hslash hok => ?_, fun hslash => ?_⟩
    · exact (hok.1 f mem_cons_self).1 hslash
    · cases hcontent : f.content with
      | none => exact fun hok => (hok.1 f mem_cons_self).2 hcontent
      | some bytes =>
        have hrest : ∀ r < ninodes, s.freeinode ≤ r → sz r = 0 := fun r hr hle => h.sz_rest hr hle
        have hkzero : update sz rootino (sz rootino + 16) s.freeinode = 0 := by
          rw [update_of_ne hroot.ne', h.sz_rest hfree le_rfl]
        -- The sizes after this file.
        set sz1 := update (update sz rootino (sz rootino + 16)) s.freeinode bytes.length with hsz1
        have hnext : sizesFrom sz s.freeinode (f :: files) = sizesFrom sz1 (s.freeinode + 1) files := by
          rw [sizesFrom, hcontent]
          rfl
        have hle1 : ∀ r < ninodes, sz1 r ≤ sizesFrom sz1 (s.freeinode + 1) files r := by
          intro r hr
          refine le_sizesFrom (Nat.lt_succ_of_lt hroot) (fun r' hr' hle => ?_) hr
          rw [hsz1, update_of_ne (by omega), update_of_ne (by omega)]
          exact hrest r' hr' (by omega)
        have hle0 : ∀ r < ninodes, update sz rootino (sz rootino + 16) r ≤ sz1 r := by
          intro r hr
          by_cases hrk : r = s.freeinode
          · rw [hrk, hkzero]
            exact Nat.zero_le _
          · rw [hsz1, update_of_ne hrk]
        rw [hnext]
        show wp (ialloc 2 >>= _) _ _ s
        rw [wp_bind]
        refine wp_mono (wp_ialloc h hfree (by decide)) ?_ fun _ _ hf => hf.elim
        rintro _ s1 ⟨rfl, hfree1, h1⟩
        rw [wp_bind]
        refine wp_mono (wp_iappend h1 (by decide) (by omega)) ?_ ?_
        · rintro ⟨⟩ s2 ⟨hfree2, h2⟩
          rw [length_dirent] at h2
          have hcopy := @wp_copyFile s2 _ s.freeinode bytes.length bytes h2 h.pos
            (by rw [hfree2, hfree1]; exact Nat.lt_succ_self _) le_rfl
          rw [hkzero, Nat.zero_add] at hcopy
          rw [wp_bind]
          refine wp_mono hcopy ?_ ?_
          · rintro ⟨⟩ s3 ⟨hfree3, h3⟩
            have hfree : s3.freeinode = s.freeinode + 1 := by omega
            have := @ih s3 sz1 h3 (by omega) (by omega)
            rw [hfree] at this
            refine wp_mono this ?_ ?_
            · rintro ⟨⟩ s4 ⟨hfree4, h4⟩
              exact ⟨by rw [hfree4, length_cons]; omega, h4⟩
            · intro _ _ hbad hok
              exact hbad ⟨fun g hg => hok.1 g (mem_cons_of_mem _ hg), hok.2⟩
          · exact fun _ _ hfull hok => hfull (hok.2.mono hle1)
        · intro _ _ hfull hok
          rw [length_dirent] at hfull
          exact hfull ((hok.2.mono hle1).mono hle0)

end Calls

/-! ## The bitmap -/

theorem testBit_mark (buf : Nat → UInt8) (i b : Nat) :
    (mark buf i (b / 8)).toNat.testBit (b % 8) = (decide (b = i) || (buf (b / 8)).toNat.testBit (b % 8)) := by
  unfold mark
  by_cases hbyte : b / 8 = i / 8
  · have hlt : 1 <<< (i % 8) < 2 ^ 8 := by
      rw [Nat.one_shiftLeft]
      exact Nat.pow_lt_pow_right (by decide) (Nat.mod_lt _ (by decide))
    have hbit : i % 8 = b % 8 ↔ b = i := by omega
    rw [hbyte, update_self, UInt8.toNat_or, Nat.testBit_or, UInt8.toNat_ofNat_of_lt' hlt, Nat.one_shiftLeft,
      Nat.testBit_two_pow, decide_eq_decide.mpr hbit, Bool.or_comm]
  · have hne : b ≠ i := fun h => hbyte (h ▸ rfl)
    rw [update_of_ne hbyte, decide_eq_false hne, Bool.false_or]

theorem testBit_marks (used b : Nat) :
    ((List.range used).foldl mark (fun _ => 0) (b / 8)).toNat.testBit (b % 8) = decide (b < used) := by
  induction used with
  | zero => simp
  | succ n ih =>
    rw [range_succ, foldl_append, foldl_cons, foldl_nil, testBit_mark, ih]
    have hiff : b < n + 1 ↔ b = n ∨ b < n := by omega
    simp only [hiff, Bool.decide_or]

theorem view_putBitmap (s : State) (buf : Nat → UInt8) :
    (s.put bmapstart buf).view = { s.view with bitmap := fun b => (buf (b / 8)).toNat.testBit (b % 8) } := by
  have hmap : bmapstart + 1 = nmeta := rfl
  have hblocks : (fun c => if c < nmeta then fun _ => 0 else update s.disk bmapstart buf c) =
      fun c => if c < nmeta then fun _ => 0 else s.disk c := by
    funext c
    exact ite_congr rfl (fun _ => rfl) fun hc => update_of_ne (by omega) ..
  have hdinode : (fun c => if c < ninodes then ((s.put bmapstart buf).dinode c).kernel else .zero) =
      fun c => if c < ninodes then (s.dinode c).kernel else .zero := by
    funext c
    refine ite_congr rfl (fun hc => ?_) fun _ => rfl
    rw [State.dinode, State.put_disk, update_of_ne (iblock_lt hc).ne]
    rfl
  simp only [State.view, hblocks, hdinode, State.put_disk, update_self]

/-! ## The program -/

/-- The image at the end. -/
structure Finished (s : State) (sz : Nat → Nat) : Prop where
  le : s.freeinode ≤ ninodes
  high : s.freeblock ≤ fssize
  low : nmeta ≤ s.freeblock
  layout : Layout s.view (Used sz) s.freeblock
  bitmap : ∀ b, s.view.bitmap b = decide (b < s.freeblock)
  size : ∀ i < ninodes, (s.view.dinode i).size = if i = rootino then (sz i / bsize + 1) * bsize else sz i
  small : ∀ i < ninodes, sz i ≤ maxfile * bsize
  made : ∀ i, 0 < i → i < s.freeinode → (s.view.dinode i).type ≠ .free
  rest : ∀ i < ninodes, i = 0 ∨ s.freeinode ≤ i → s.view.dinode i = Dinode.zero.kernel

theorem wp_zeroSectors {n i : Nat} {E : Exit → State → Prop} (hi : i + n ≤ fssize) :
    wp (zeroSectors n i) (fun _ s' => s' = ⟨fun _ _ => 0, i + n, 1, nmeta⟩) E ⟨fun _ _ => 0, i, 1, nmeta⟩ := by
  induction n generalizing i with
  | zero => rfl
  | succ n ih =>
    have hmax : max i (i + 1) = i + 1 := Nat.max_eq_right (Nat.le_succ i)
    simp only [zeroSectors, wp_bind, wsect, wp_modify, sector_eq (by omega : i ≤ fssize), hmax, update_eq_self]
    have := @ih (i + 1) (by omega)
    rwa [Nat.add_assoc, Nat.add_comm 1 n] at this

-- A thousand turns of the loop are not to be unfolded.
attribute [local irreducible] zeroSectors

/-- The books of an image of zeros with a superblock. -/
theorem books_start (buf : Nat → UInt8) : Books (State.put ⟨fun _ _ => 0, fssize, 1, nmeta⟩ 1 buf) fun _ => 0 := by
  have hdinode : ∀ i, (State.put ⟨fun _ _ => 0, fssize, 1, nmeta⟩ 1 buf).dinode i = .zero := by
    intro i
    have hne : iblock i ≠ 1 := Nat.ne_of_gt (Nat.lt_of_lt_of_le (by decide) (Nat.le_add_left inodestart _))
    rw [State.dinode, State.put_disk, update_of_ne hne]
    simp only [Words.get_zero]
    rfl
  have htarget : ∀ u ∈ slots super, (State.put ⟨fun _ _ => 0, fssize, 1, nmeta⟩ 1 buf).view.target u = none := by
    intro u hu
    have hinode : (State.put ⟨fun _ _ => 0, fssize, 1, nmeta⟩ 1 buf).view.inode u.owner =
        if u.owner < ninodes then Dinode.zero.kernel else .zero := by
      simp [Blocks.State.inode, State.view, hdinode]
    refine Blocks.target_of_no_addrs (fun k hk => ?_) hu rfl
    rw [hinode]
    split_ifs
    · rw [kernel_addrs _ hk]
      rfl
    · rfl
  have hused : ∀ u, ¬ Used (fun _ => 0) u := by
    intro u
    cases u <;> exact Nat.not_lt_zero _
  have hneed : need 0 = 0 := by decide
  have htotal : total (fun _ => 0) = 0 := Finset.sum_eq_zero fun _ _ => hneed
  have hhigh : nmeta ≤ fssize := by decide
  have hpos : 1 < nmeta := by decide
  have hle : 1 ≤ ninodes := by decide
  refine ⟨⟨⟨rfl, le_rfl, fun b hb => ?_⟩, hhigh, ⟨fun u hu => ?_, fun u hu b hb => ?_, fun u hu w hw b hb => ?_,
    fun b hlo hhi => absurd hlo (not_le.mpr hhi)⟩, by rw [htotal]; rfl, fun _ _ => Nat.zero_le _⟩,
    fun i _ => by rw [hdinode]; rfl, fun i hpos hi => absurd hi (not_lt.mpr hpos), fun i _ _ => hdinode i,
    Nat.one_pos, hle⟩
  · have hne : b ≠ 1 := Nat.ne_of_gt (hpos.trans_le hb)
    rw [State.put_disk, update_of_ne hne]
  · rw [htarget u hu]
    simp [hused u]
  · rw [htarget u hu] at hb
    cases hb
  · rw [htarget u hu] at hb
    cases hb

/-- The sizes after `mkfs` has made the root directory with its two entries. -/
def rootSizes : Nat → Nat := update (fun _ => 0) rootino 32

/-- All files can be opened, and there is room for them. -/
def Fits (files : List File) : Prop := (∀ f ∈ files, f.Ok) ∧ Room (sizesFrom rootSizes 2 files)

section Main

variable {s : State} {sz : Nat → Nat}

/-- Fixing the size of the root directory and writing the bitmap. -/
theorem wp_finish (h : Books s sz) (hroot : rootino < s.freeinode) :
    wp (do
      let din ← rinode rootino
      winode rootino { din with size := .ofNat ((din.size.toNat / bsize + 1) * bsize) }
      let s ← get
      balloc s.freeblock) (fun _ s' => s'.freeinode = s.freeinode ∧ Finished s' sz) noStop s := by
  have hi : rootino < ninodes := by decide
  have hsmall := h.inv.small rootino hi
  have hhigh := h.inv.high
  have hb : bsize = 512 := rfl
  have hmax : maxfile = 140 := rfl
  have hsize : fssize = 1000 := rfl
  have hused : ¬ bsize * 8 ≤ s.freeblock := by omega
  rw [wp_bind, wp_rinode h.inv.fresh.sectors hi, wp_bind, wp_winode h.inv.fresh.sectors hi, wp_bind, wp_get]
  set ip : Dinode := { s.dinode rootino with size := .ofNat (((s.dinode rootino).size.toNat / bsize + 1) * bsize) } with hip
  have hround : ip.size.toNat = (sz rootino / bsize + 1) * bsize := by
    show (UInt32.ofNat _).toNat = _
    rw [h.size rootino hi]
    refine UInt32.toNat_ofNat_of_lt' ?_
    have h32 : UInt32.size = 2 ^ 32 := rfl
    rw [hb, hmax] at hsmall
    rw [hb, h32]
    omega
  have htarget : (s.putInode rootino ip).view.target = s.view.target := by
    rw [target_putInode hi (show ip.addrs = (s.dinode rootino).addrs from rfl), target_edit hi]
  show wp (balloc s.freeblock) _ _ _
  rw [balloc, if_neg hused, wp_wsect (by exact h.inv.fresh.sectors) (by decide)]
  have hview := view_putBitmap (s.putInode rootino ip) ((List.range s.freeblock).foldl mark fun _ => 0)
  have hdinode : ∀ i, ((s.putInode rootino ip).put bmapstart ((List.range s.freeblock).foldl mark fun _ => 0)).view.dinode i =
      if i = rootino then ip.kernel else s.view.dinode i := by
    intro i
    rw [hview, view_putInode ip hi]
    show update _ _ _ _ = _
    rw [update_apply]
  refine ⟨rfl, h.le, hhigh, h.inv.fresh.low, ?_, fun b => ?_, fun i hi' => ?_, h.inv.small, fun i hpos hi' => ?_,
    fun i hi' hrest => ?_⟩
  · refine h.inv.layout.congr (fun u _ => ?_) fun _ _ => Iff.rfl
    rw [← htarget, hview]
    exact Blocks.target_congr rfl rfl
  · rw [hview]
    exact testBit_marks s.freeblock b
  · rw [hdinode]
    by_cases hir : i = rootino
    · rw [if_pos hir, if_pos hir, hir]
      exact hround
    · rw [if_neg hir, if_neg hir, ← h.size i hi']
      simp only [State.view, if_pos hi']
      rfl
  · rw [hdinode]
    by_cases hir : i = rootino
    · rw [if_pos hir]
      exact h.made rootino Nat.one_pos hroot
    · rw [if_neg hir]
      simp only [State.view, if_pos (Nat.lt_of_lt_of_le hi' h.le)]
      exact h.made i hpos hi'
  · have hne : i ≠ rootino := by
      have hrest' : i = 0 ∨ s.freeinode ≤ i := hrest
      have : rootino = 1 := rfl
      omega
    rw [hdinode, if_neg hne]
    simp only [State.view, if_pos hi']
    rw [h.rest i hi' hrest]

/-- `main` finishes the image, or the files do not fit. -/
theorem wp_main {files : List File} (hn : files.length + 2 ≤ ninodes) :
    wp (main files) (fun _ s => s.freeinode = files.length + 2 ∧ Finished s (sizesFrom rootSizes 2 files))
      (fun _ _ => ¬ Fits files) start := by
  have hroot : rootino = 1 := rfl
  have hle : ∀ r < ninodes, rootSizes r ≤ sizesFrom rootSizes 2 files r := by
    intro r hr
    refine le_sizesFrom (by decide) (fun r' hr' h2 => ?_) hr
    exact update_of_ne (by omega) _ _
  have hle' : ∀ r < ninodes, update (fun _ => 0) rootino 16 r ≤ rootSizes r := by
    intro r _
    by_cases hr : r = rootino
    · rw [hr, rootSizes, update_self, update_self]
      decide
    · rw [rootSizes, update_of_ne hr, update_of_ne hr]
  rw [main, wp_bind]
  have hzero : 0 + fssize ≤ fssize := by rw [Nat.zero_add]
  refine wp_post (@wp_zeroSectors fssize 0 _ hzero) ?_
  rintro ⟨⟩ _ rfl
  rw [Nat.zero_add, wp_bind, wp_wsect rfl (by decide), wp_bind]
  refine wp_mono (wp_ialloc (books_start _) (by decide) (by decide)) ?_ fun _ _ h => h.elim
  rintro _ s₁ ⟨rfl, hfree₁, h₁⟩
  have hfree₁ : s₁.freeinode = 2 := hfree₁
  rw [if_neg (by simp [hroot]), wp_bind]
  refine wp_mono (wp_iappend (i := 1) h₁ (by decide) (by omega)) ?_ ?_
  · rintro ⟨⟩ s₂ ⟨hfree₂, h₂⟩
    rw [length_dirent] at h₂
    rw [wp_bind]
    refine wp_mono (wp_iappend (i := 1) h₂ (by decide) (by omega)) ?_ ?_
    · rintro ⟨⟩ s₃ ⟨hfree₃, h₃⟩
      rw [length_dirent, update_self, update_idem] at h₃
      have hfree : s₃.freeinode = 2 := by omega
      rw [wp_bind]
      have hadd := @wp_addFiles s₃ _ files h₃ (by omega) (by omega)
      rw [hfree] at hadd
      refine wp_post hadd ?_
      rintro ⟨⟩ s₄ ⟨hfree₄, h₄⟩
      refine wp_mono (wp_finish h₄ (by omega)) ?_ fun _ _ h => h.elim
      rintro ⟨⟩ s₅ ⟨hfree₅, h₅⟩
      exact ⟨by omega, h₅⟩
    · intro _ _ hfull hfits
      rw [length_dirent, update_self, update_idem] at hfull
      exact hfull (hfits.2.mono hle)
  · intro _ _ hfull hfits
    rw [length_dirent] at hfull
    exact hfull ((hfits.2.mono hle).mono hle')

end Main

/-! ## The number of inodes

    Whatever is in the image, `ialloc` counts up and nothing else changes the counter.
-/

/-- The counter of inodes stays. -/
def SameInodes (s s' : State) : Prop := s'.freeinode = s.freeinode

instance : Std.Refl SameInodes := ⟨fun _ => rfl⟩

instance : IsTrans State SameInodes := ⟨fun _ _ _ h h' => h'.trans h⟩

def KeepsInodes {A : Type} (x : M A) : Prop := Keeps SameInodes (fun _ => True) x

theorem keepsInodes_rsect (b : Nat) : KeepsInodes (rsect b) :=
  keeps_bind keeps_get fun _ => keeps_ite _ (keeps_pure _) (keeps_throw trivial)

theorem keepsInodes_wsect (b : Nat) (buf : Nat → UInt8) : KeepsInodes (wsect b buf) := keeps_modify fun _ => rfl

theorem keepsInodes_winode (i : Nat) (ip : Dinode) : KeepsInodes (winode i ip) :=
  keeps_bind (keepsInodes_rsect _) fun _ => keepsInodes_wsect _ _

theorem keepsInodes_rinode (i : Nat) : KeepsInodes (rinode i) :=
  keeps_bind (keepsInodes_rsect _) fun _ => keeps_pure _

theorem keepsInodes_nextBlock : KeepsInodes nextBlock := fun _ => rfl

theorem keepsInodes_addrOf (din : Dinode) (k : Nat) : KeepsInodes (addrOf din k) :=
  keeps_ite _ (keeps_bind keepsInodes_nextBlock fun _ => keeps_pure _) (keeps_pure _)

theorem keepsInodes_entryOf (ind j : Nat) : KeepsInodes (entryOf ind j) := by
  refine keeps_bind (keepsInodes_rsect _) fun _ => keeps_ite _ ?_ (keeps_pure _)
  exact keeps_bind keepsInodes_nextBlock fun _ => keeps_bind (keepsInodes_wsect _ _) fun _ => keeps_pure _

theorem keepsInodes_blockOf (din : Dinode) (fbn : Nat) : KeepsInodes (blockOf din fbn) := by
  refine keeps_ite _ (keeps_bind (keepsInodes_addrOf _ _) fun _ => keeps_pure _) ?_
  exact keeps_bind (keepsInodes_addrOf _ _) fun _ => keeps_bind (keepsInodes_entryOf _ _) fun _ => keeps_pure _

theorem keepsInodes_appendBlocks (fuel : Nat) (p : List UInt8) (off : Nat) (din : Dinode) :
    KeepsInodes (appendBlocks fuel p off din) := by
  induction fuel generalizing p off din with
  | zero => exact keeps_pure _
  | succ fuel ih =>
    refine keeps_ite _ (keeps_pure _) (keeps_ite _ (keeps_throw trivial) ?_)
    refine keeps_bind (keepsInodes_blockOf _ _) fun r => keeps_bind (keepsInodes_rsect _) fun _ => ?_
    exact keeps_bind (keepsInodes_wsect _ _) fun _ => ih _ _ _

theorem keepsInodes_iappend (i : Nat) (p : List UInt8) : KeepsInodes (iappend i p) := by
  refine keeps_bind (keepsInodes_rinode _) fun _ => ?_
  exact keeps_bind (keepsInodes_appendBlocks _ _ _ _) fun _ => keepsInodes_winode _ _

theorem keepsInodes_copyFile (i fuel : Nat) (bytes : List UInt8) : KeepsInodes (copyFile i fuel bytes) := by
  induction fuel generalizing bytes with
  | zero => exact keeps_pure _
  | succ fuel ih => exact keeps_ite _ (keeps_pure _) (keeps_bind (keepsInodes_iappend _ _) fun _ => ih _)

theorem wp_ialloc_count (type : UInt16) (s : State) :
    wp (ialloc type) (fun i s' => i = s.freeinode ∧ s'.freeinode = s.freeinode + 1) anyStop s := by
  simp only [ialloc, wp_bind, wp_get, wp_set, wp_pure]
  exact wp_mono (keepsInodes_winode _ _ _) (fun _ _ h => ⟨trivial, h⟩) fun _ _ _ => trivial

theorem wp_addFiles_count (root : Nat) (files : List File) (s : State) :
    wp (addFiles root files) (fun _ s' => s'.freeinode = s.freeinode + files.length) anyStop s := by
  induction files generalizing s with
  | nil => rfl
  | cons f files ih =>
    rw [addFiles, wp_ite]
    refine ⟨fun _ => trivial, fun _ => ?_⟩
    cases f.content with
    | none => trivial
    | some bytes =>
      show wp (ialloc 2 >>= _) _ _ s
      rw [wp_bind]
      refine wp_post (wp_ialloc_count 2 s) ?_
      rintro i s1 ⟨-, h1⟩
      rw [wp_bind]
      refine wp_mono (keepsInodes_iappend _ _ s1) ?_ fun _ _ _ => trivial
      intro _ s2 h2
      rw [wp_bind]
      refine wp_mono (keepsInodes_copyFile _ _ _ s2) ?_ fun _ _ _ => trivial
      intro _ s3 h3
      refine wp_post (ih s3) fun _ s4 h4 => ?_
      rw [h4, h3, h2, h1, length_cons]
      omega

theorem wp_main_count (files : List File) :
    wp (main files) (fun _ s => s.freeinode = files.length + 2) anyStop start := by
  have hzero : 0 + fssize ≤ fssize := by rw [Nat.zero_add]
  rw [main, wp_bind]
  refine wp_post (@wp_zeroSectors fssize 0 _ hzero) ?_
  rintro ⟨⟩ s0 hs0
  rw [wp_bind]
  refine wp_mono (keepsInodes_wsect _ _ s0) ?_ fun _ _ _ => trivial
  intro _ s1 h1
  rw [wp_bind]
  refine wp_post (wp_ialloc_count 1 s1) ?_
  rintro root s2 ⟨-, h2⟩
  rw [wp_ite]
  refine ⟨fun _ => trivial, fun _ => ?_⟩
  rw [wp_bind]
  refine wp_mono (keepsInodes_iappend _ _ s2) ?_ fun _ _ _ => trivial
  intro _ s3 h3
  rw [wp_bind]
  refine wp_mono (keepsInodes_iappend _ _ s3) ?_ fun _ _ _ => trivial
  intro _ s4 h4
  rw [wp_bind]
  refine wp_post (wp_addFiles_count _ files s4) fun _ s5 h5 => ?_
  have hrest : KeepsInodes (do
      let din ← rinode root
      winode root { din with size := .ofNat ((din.size.toNat / bsize + 1) * bsize) }
      let s ← get
      balloc s.freeblock) := by
    refine keeps_bind (keepsInodes_rinode _) fun _ => keeps_bind (keepsInodes_winode _ _) fun _ => ?_
    exact keeps_bind keeps_get fun _ => keeps_ite _ (keeps_throw trivial) (keepsInodes_wsect _ _)
  refine wp_mono (hrest s5) (fun _ s6 h6 => ?_) fun _ _ _ => trivial
  have hfree : s0.freeinode = 1 := by rw [hs0]
  rw [h6, h5, h4, h3, h2, h1, hfree]
  omega

/-! ## The image is well formed -/

section Image

variable {s : State} {sz : Nat → Nat}

theorem iblock_area (hi : i < ninodes) : inodestart ≤ iblock i ∧ iblock i < bmapstart :=
  ⟨Nat.le_add_left _ _, iblock_lt hi⟩

/-- The rounded size of the root directory reaches into the block after the last if the last one is
    full. -/
theorem Finished.filled_iff (h : Finished s sz) (hroot : rootino < s.freeinode) (hroom : sz rootino < maxfile * bsize) :
    (∀ i, 0 < i → i < s.freeinode → ∀ bn, bn * bsize < (s.view.dinode i).size →
      ∃ b, s.view.target (fileSlot i bn) = some b) ↔ ¬ bsize ∣ sz rootino := by
  have hb : bsize = 512 := rfl
  have hmax : maxfile = 140 := rfl
  have hhas : ∀ i < ninodes, ∀ bn < maxfile, (∃ b, s.view.target (fileSlot i bn) = some b) ↔ bn * bsize < sz i := by
    intro i hi bn hbn
    rw [← Option.ne_none_iff_exists', h.layout.used _ (Blocks.fileSlot_mem hi hbn), used_fileSlot]
  have hri : rootino < ninodes := hroot.trans_le h.le
  constructor
  · intro hfilled hdvd
    have hsize := h.size rootino hri
    rw [if_pos rfl] at hsize
    obtain ⟨k, hk⟩ := hdvd
    have hk' : k < maxfile := by
      rw [hk, hb, hmax] at hroom
      omega
    have := hfilled rootino Nat.one_pos hroot k (by rw [hsize, hk, hb]; omega)
    rw [hhas rootino hri k hk', hk, Nat.mul_comm] at this
    exact lt_irrefl _ this
  · intro hdvd i hpos hi bn hbn
    have hlt : i < ninodes := hi.trans_le h.le
    have hsmall := h.small i hlt
    rw [h.size i hlt] at hbn
    have hbn' : bn * bsize < sz i := by
      by_cases hir : i = rootino
      · subst hir
        rw [if_pos rfl] at hbn
        rw [hb] at hbn hdvd ⊢
        omega
      · rw [if_neg hir] at hbn
        exact hbn
    refine (hhas i hlt bn ?_).mpr hbn'
    rw [hb, hmax] at hsmall
    rw [hb] at hbn'
    omega

theorem Finished.wellFormed_iff (h : Finished s sz) (hroot : rootino < s.freeinode)
    (hroom : sz rootino < maxfile * bsize) : WellFormed s ↔ ¬ bsize ∣ sz rootino := by
  rw [← h.filled_iff hroot hroom]
  refine ⟨fun hw => hw.filled, fun hfilled => ⟨fun i _ hi => ?_, fun b hlo hhi => ?_, fun b _ => ?_, hfilled⟩⟩
  · have hlt : i < ninodes := hi.trans_le h.le
    exact ⟨hlt, iblock_area hlt⟩
  · obtain ⟨u, hu, htu⟩ := h.layout.all b hlo hhi
    refine ⟨hhi.trans_le h.high, u, ⟨hu, htu⟩, ?_⟩
    rintro w ⟨hw, htw⟩
    exact h.layout.once w hw u hu b htw htu
  · rw [h.bitmap b]
    exact decide_eq_true_iff

/-- The kernel can start from a well-formed image. -/
theorem Finished.kernel (h : Finished s sz) (hw : WellFormed s)
    (hroom : sz rootino < maxfile * bsize) : Blocks.WellFormed super s.view := by
  have hb : bsize = 512 := rfl
  have hmax : maxfile = 140 := rfl
  have hmeta : super.nmeta = nmeta := by decide
  have hinode : ∀ i, s.view.inode i = s.view.dinode i := fun i => by simp [Blocks.State.inode, State.view]
  have hor : ∀ i, (0 < i ∧ i < s.freeinode) ∨ i = 0 ∨ s.freeinode ≤ i := by
    intro i
    omega
  refine ⟨⟨fun u hu b hub => ?_, h.layout.once, fun b hlt => ?_, fun i hi bn hbn => ?_, hinode⟩, fun _ => rfl,
    fun i hi htype => ?_, fun i hi => ?_⟩
  · have := h.layout.inside u hu b hub
    exact ⟨hmeta ▸ this.1, Nat.lt_of_lt_of_le this.2 h.high⟩
  · rw [h.bitmap b, decide_eq_true_iff, hmeta]
    constructor
    · intro hused
      by_cases hlow : b < nmeta
      · exact .inl hlow
      · exact .inr (h.layout.all b (not_lt.mp hlow) hused)
    · rintro (hlow | ⟨u, hu, hub⟩)
      · exact hlow.trans_le h.low
      · exact (h.layout.inside u hu b hub).2
  · rw [hinode] at hbn
    rcases hor i with ⟨hpos, hmade⟩ | hrest
    · exact hw.filled i hpos hmade bn hbn
    · rw [h.rest i hi hrest] at hbn
      exact absurd hbn (Nat.not_lt_zero _)
  · rcases hor i with ⟨hpos, hmade⟩ | hrest
    · exact absurd htype (h.made i hpos hmade)
    · rw [h.rest i hi hrest]
      exact ⟨fun k hk => (kernel_addrs .zero hk).trans rfl, rfl⟩
  · rw [h.size i hi]
    split_ifs with hir
    · rw [hir, hb, hmax]
      rw [hb, hmax] at hroom
      omega
    · exact h.small i hi

end Image

/-- `mkfs` makes a well-formed image, with which the kernel can start, exactly if there are inodes for
    the files and the root directory does not end at the end of a block. -/
theorem image_wellFormed_iff (files : List File) (s : State) (hmkfs : main files start = .ok () s) :
    (WellFormed s ↔ files.length + 2 ≤ ninodes ∧ ¬ 32 ∣ files.length + 2) ∧
      (WellFormed s → Blocks.WellFormed super s.view) := by
  have hcount := (wp_of_ok hmkfs).mp (wp_main_count files)
  by_cases hn : files.length + 2 ≤ ninodes
  · obtain ⟨hfree, hfin⟩ := (wp_of_ok hmkfs).mp (wp_main hn)
    have hsize : sizesFrom rootSizes 2 files rootino = 32 + 16 * files.length := by
      rw [sizesFrom_root (by decide), rootSizes, update_self]
    have hroot : rootino < s.freeinode := by
      have : rootino = 1 := rfl
      omega
    have hroom : sizesFrom rootSizes 2 files rootino < maxfile * bsize := by
      have hb : bsize = 512 := rfl
      have hmax : maxfile = 140 := rfl
      have hin : ninodes = 200 := rfl
      rw [hsize, hb, hmax]
      omega
    refine ⟨?_, fun hw => hfin.kernel hw hroom⟩
    rw [hfin.wellFormed_iff hroot hroom, hsize]
    have hb : bsize = 512 := rfl
    rw [hb]
    omega
  · have hbad : ¬ WellFormed s := by
      intro hw
      have := (hw.inodes (files.length + 1) (Nat.succ_pos _) (by omega)).1
      omega
    exact ⟨⟨fun hw => absurd hw hbad, fun h => absurd h.1 hn⟩, fun hw => absurd hw hbad⟩

instance : DecidablePred File.Ok := fun _ => inferInstanceAs (Decidable (_ ∧ _))

instance (files : List File) : Decidable (Fits files) := inferInstanceAs (Decidable (_ ∧ _ ∧ _))

/-- Files that fit are written. -/
theorem main_returns (files : List File) (hn : files.length + 2 ≤ ninodes) (hfits : Fits files) :
    ∃ s, main files start = .ok () s ∧ s.freeinode = files.length + 2 ∧ Finished s (sizesFrom rootSizes 2 files) := by
  have h := wp_noStop_iff.mp (wp_mono (wp_main hn) (fun _ _ hq => hq) fun _ _ he => he hfits)
  obtain ⟨⟨⟩, s, hs, hq⟩ := h
  exact ⟨s, hs, hq⟩

/-- One file, `README`, with the contents `hi`. -/
def sampleFiles : List File := [⟨[82, 69, 65, 68, 77, 69], some [104, 105]⟩]

theorem image_wellFormed_iff_sampleFiles : ∃ s, main sampleFiles start = .ok () s ∧
    (WellFormed s ↔ sampleFiles.length + 2 ≤ ninodes ∧ ¬ 32 ∣ sampleFiles.length + 2) ∧
      (WellFormed s → Blocks.WellFormed super s.view) := by
  obtain ⟨s, hs, -⟩ := main_returns sampleFiles (by decide) (by decide +kernel)
  exact ⟨s, hs, image_wellFormed_iff sampleFiles s hs⟩

/-- Thirty empty files, which with `.` and `..` fill a block of the root directory. -/
def thirtyFiles : List File := List.replicate 30 ⟨[97], some []⟩

/-- `mkfs` gives the root directory two blocks, of which only the first exists. -/
theorem root_reaches_past_its_blocks : ∃ s, main thirtyFiles start = .ok () s ∧
    (s.view.dinode rootino).size = 2 * bsize ∧ s.view.target (fileSlot rootino 1) = none ∧ ¬ WellFormed s := by
  obtain ⟨s, hs, hfree, hfin⟩ := main_returns thirtyFiles (by decide) (by decide +kernel)
  have hsize : sizesFrom rootSizes 2 thirtyFiles rootino = bsize := by
    rw [sizesFrom_root (by decide)]
    rfl
  have hnone : s.view.target (fileSlot rootino 1) = none := by
    by_contra hne
    have := (hfin.layout.used _ (Blocks.fileSlot_mem (by decide) (by decide))).mp hne
    rw [used_fileSlot, hsize, Nat.one_mul] at this
    exact lt_irrefl _ this
  have hroot : (s.view.dinode rootino).size = 2 * bsize := by
    rw [hfin.size rootino (by decide), if_pos rfl, hsize]
    rfl
  refine ⟨s, hs, hroot, hnone, fun hw => ?_⟩
  obtain ⟨b, hb⟩ := hw.filled rootino Nat.one_pos (by rw [hfree]; decide) 1 (by rw [hroot]; decide)
  rw [hnone] at hb
  exact nomatch hb

/-- On an image whose root directory does not end with a block, the kernel keeps blocks and the bitmap
    in agreement whatever it does, and frees no free block. -/
theorem kernel_on_image (files : List File) (s : State) (ops : List Blocks.BlockOp)
    (hmkfs : main files start = .ok () s) (hn : files.length + 2 ≤ ninodes) (hend : ¬ 32 ∣ files.length + 2)
    (hops : Run.Along (Blocks.BlockOp.exec super) (Blocks.BlockOp.Promised super) ops s.view) :
    wp (Run.run (Blocks.BlockOp.exec super) ops) (fun _ s' => Blocks.BlocksOk super s')
      (fun e _ => e ≠ .panic "freeing free block") s.view := by
  obtain ⟨hfree, hfin⟩ := (wp_of_ok hmkfs).mp (wp_main hn)
  have hsize : sizesFrom rootSizes 2 files rootino = 32 + 16 * files.length := sizesFrom_root (by decide)
  have hroom : sizesFrom rootSizes 2 files rootino < maxfile * bsize := by
    rw [hsize]
    simp only [maxfile, bsize, ninodes] at hn ⊢
    omega
  have hw : WellFormed s := by
    rw [hfin.wellFormed_iff (by rw [hfree, rootino]; omega) hroom, hsize, bsize]
    omega
  have hrun := Run.wp_invariant (fun _ _ h hop => Blocks.exec_inv h hop) (hfin.kernel hw hroom).inv hops
  refine wp_mono hrun (fun _ _ h => h.blocksOk) ?_
  rintro e _ hstop rfl
  simp [Blocks.CallStop, Blocks.OutOfSpace] at hstop

/-- A second file is made and gets 700 bytes. -/
theorem kernel_on_image_sampleFiles : ∃ s outs s', main sampleFiles start = .ok () s ∧
    Run.run (Blocks.BlockOp.exec super) [.ialloc .file, .writei 3 (fun _ => 1) 0 700] s.view = .ok outs s' ∧
    Blocks.BlocksOk super s' := by
  have hreturns : Run.returns
      (Run.run (Blocks.BlockOp.exec super) [.ialloc .file, .writei 3 (fun _ => 1) 0 700])
      (Run.final (main sampleFiles) start).view = true := by
    decide +kernel
  obtain ⟨s, hs, -⟩ := main_returns sampleFiles (by decide) (by decide +kernel)
  rw [Run.final, hs] at hreturns
  obtain ⟨outs, hrun⟩ := Run.exists_of_returns hreturns
  refine ⟨s, outs, _, hs, hrun, (wp_of_ok hrun).mp (kernel_on_image sampleFiles s _ hs (by decide)
    (by decide) (.of_forall ?_))⟩
  simp [Blocks.BlockOp.Promised, super, ninodes]

end Xv6Paging.Mkfs
