import Xv6Paging.Fs.Mkfs

/-! # Blocks in the image that `mkfs` makes

    The invariant of `mkfs` is that of an allocator that only counts up: the blocks handed
    out so far are the ones below `freeblock`, every one of them has one place in an inode
    or an indirect block, and the places that have a block are exactly those below the
    size of their file. While `iappend` runs, the inode it appends to is in memory and the
    one in the image is out of date; the kernel's view of a cached inode describes this.
-/

namespace Xv6Paging.Mkfs

open Wp Function
open Blocks (ndirect nindirect Slot slots fileSlot nonzero mem_slots_direct mem_slots_indirect mem_slots_entry)
open Bio (fssize)
open Dirs (ninodes rootino dirsiz)

variable {bn i m : Nat} {Q : (Nat → UInt8) → State → Prop} {buf : Nat → UInt8} {ip : Dinode}

/-! ## Words of an inode -/

theorem word_lt (din : Dinode) (k : Nat) : din.word k < 2 ^ 32 := by
  match k with
  | 0 =>
    have := din.type.toNat_lt
    have := din.major.toNat_lt
    simp only [Dinode.word]
    omega
  | 1 =>
    have := din.minor.toNat_lt
    have := din.nlink.toNat_lt
    simp only [Dinode.word]
    omega
  | 2 => exact din.size.toNat_lt
  | j + 3 => exact (din.addrs _).toNat_lt

/-- An inode is read from sixteen words. -/
theorem ofWords_congr (h : ∀ k < 16, f k = g k) : Dinode.ofWords f = Dinode.ofWords g := by
  have haddrs : ∀ j : Fin (ndirect + 1), f (j + 3) = g (j + 3) := by
    intro j
    have hlt : (j : Nat) < 13 := j.isLt
    exact h _ (by omega)
  unfold Dinode.ofWords
  rw [h 0 (by decide), h 1 (by decide), h 2 (by decide)]
  simp only [haddrs]

theorem ofWords_word (din : Dinode) : Dinode.ofWords din.word = din := by
  have htype := din.type.toNat_lt
  have hmajor := din.major.toNat_lt
  have hminor := din.minor.toNat_lt
  have hnlink := din.nlink.toNat_lt
  have hhalf : ∀ {x : UInt16} {n : Nat}, n % 2 ^ 16 = x.toNat → UInt16.ofNat n = x :=
    fun h => UInt16.toNat_inj.mp (UInt16.toNat_ofNat'.trans h)
  ext1
  · exact hhalf (by simp only [Dinode.word]; omega)
  · exact hhalf (by simp only [Dinode.word]; omega)
  · exact hhalf (by simp only [Dinode.word]; omega)
  · exact hhalf (by simp only [Dinode.word]; omega)
  · simp [Dinode.ofWords, Dinode.word]
  · funext j
    simp [Dinode.ofWords, Dinode.word]

/-! ## Sectors -/

/-- Write a sector of the image. -/
@[simps -fullyApplied]
def State.put (s : State) (b : Nat) (buf : Nat → UInt8) : State := { s with disk := update s.disk b buf }

/-- Write an inode. -/
def State.putInode (s : State) (i : Nat) (ip : Dinode) : State :=
  s.put (iblock i) (Words.fill (s.disk (iblock i)) (i % ipb * 16) 16 ip.word)

theorem sector_eq {sec : Nat} (h : sec ≤ fssize) : sector sec = sec := by
  have hsize : fssize = 1000 := rfl
  have hb : bsize = 512 := rfl
  rw [sector, hb]
  omega

theorem iblock_lt (hi : i < ninodes) : iblock i < bmapstart := by
  have hn : ninodes = 200 := rfl
  have hstart : inodestart = 32 := rfl
  have hmap : bmapstart = 58 := rfl
  have hipb : ipb = 8 := rfl
  rw [iblock, hipb]
  omega

section Sectors

variable {s : State} {A : Type} {b : Nat} {E : Exit → State → Prop}

theorem wp_rsect (hs : s.sectors = fssize) (hb : b < fssize) :
    wp (rsect b) Q E s ↔ Q (s.disk b) s := by
  simp only [rsect, wp_bind, wp_get, wp_ite, wp_pure, sector_eq hb.le, hs]
  exact ⟨fun h => h.1 hb, fun h => ⟨fun _ => h, fun hn => absurd hb hn⟩⟩

theorem wp_rsect_end (hs : s.sectors = fssize) :
    wp (rsect fssize) Q E s ↔ E (.failed "read") s := by
  simp only [rsect, wp_bind, wp_get, wp_ite, wp_throw, sector_eq le_rfl, hs]
  exact ⟨fun h => h.2 (lt_irrefl _), fun h => ⟨fun hn => absurd hn (lt_irrefl _), fun _ => h⟩⟩

theorem wp_wsect {Q : Unit → State → Prop} (hs : s.sectors = fssize) (hb : b < fssize) :
    wp (wsect b buf) Q E s ↔ Q () (s.put b buf) := by
  have hmax : max s.sectors (b + 1) = s.sectors := by omega
  simp only [wsect, wp_modify, sector_eq hb.le, hmax]
  rfl

theorem iblock_lt_fssize (hi : i < ninodes) : iblock i < fssize :=
  Nat.lt_trans (iblock_lt hi) (by decide)

theorem wp_rinode {Q : Dinode → State → Prop} (hs : s.sectors = fssize) (hi : i < ninodes) :
    wp (rinode i) Q E s ↔ Q (s.dinode i) s := by
  rw [rinode, wp_bind, wp_rsect hs (iblock_lt_fssize hi)]
  rfl

theorem wp_winode {Q : Unit → State → Prop} (hs : s.sectors = fssize) (hi : i < ninodes) :
    wp (winode i ip) Q E s ↔ Q () (s.putInode i ip) := by
  rw [winode, wp_bind, wp_rsect hs (iblock_lt_fssize hi), wp_wsect hs (iblock_lt_fssize hi)]
  rfl

theorem dinode_putInode (s : State) (i : Nat) (ip : Dinode) : (s.putInode i ip).dinode i = ip := by
  unfold State.dinode State.putInode
  rw [State.put_disk, update_self]
  rw [ofWords_congr fun k hk => Words.get_fill hk (word_lt ip k), ofWords_word]

theorem dinode_putInode_ne (ip : Dinode) (hr : r ≠ i) : (s.putInode i ip).dinode r = s.dinode r := by
  unfold State.dinode State.putInode
  rw [State.put_disk]
  by_cases hblock : iblock r = iblock i
  · rw [hblock, update_self]
    refine ofWords_congr fun k hk => Words.get_fill_out ?_
    -- Inodes of one block differ in their place in it.
    have hipb : ipb = 8 := rfl
    rw [iblock, iblock, hipb] at hblock
    rw [hipb]
    omega
  · rw [update_of_ne hblock]

theorem dinode_put (hb : nmeta ≤ b) (hi : i < ninodes) : (s.put b buf).dinode i = s.dinode i := by
  have hlt := iblock_lt hi
  have hmap : bmapstart + 1 = nmeta := rfl
  unfold State.dinode
  rw [State.put_disk, update_of_ne (by omega)]

theorem view_put (hb : nmeta ≤ b) : (s.put b buf).view = s.view.setBlock b buf := by
  have hmap : bmapstart ≠ b := Nat.ne_of_lt hb
  have hblocks : (fun c => if c < nmeta then fun _ => 0 else update s.disk b buf c) =
      update (fun c => if c < nmeta then fun _ => 0 else s.disk c) b buf := by
    funext c
    by_cases hc : c = b
    · subst hc
      rw [if_neg (not_lt.mpr hb), update_self, update_self]
    · rw [update_of_ne hc, update_of_ne hc]
  have hdinode : ∀ c, (if c < ninodes then ((s.put b buf).dinode c).kernel else .zero) =
      if c < ninodes then (s.dinode c).kernel else .zero := by
    intro c
    exact ite_congr rfl (fun hc => by rw [dinode_put hb hc]) fun _ => rfl
  simp only [State.view, State.put_disk, update_of_ne hmap, hblocks, hdinode]
  rfl

theorem view_putInode (ip : Dinode) (hi : i < ninodes) : (s.putInode i ip).view = s.view.setDinode i ip.kernel := by
  have hlt := iblock_lt hi
  have hmap : bmapstart + 1 = nmeta := rfl
  have hblocks : (fun c => if c < nmeta then fun _ => 0 else (s.putInode i ip).disk c) =
      fun c => if c < nmeta then fun _ => 0 else s.disk c := by
    funext c
    exact ite_congr rfl (fun _ => rfl) fun hc => update_of_ne (by omega) ..
  have hdinode : (fun c => if c < ninodes then ((s.putInode i ip).dinode c).kernel else .zero) =
      update (fun c => if c < ninodes then (s.dinode c).kernel else .zero) i ip.kernel := by
    funext c
    by_cases hc : c = i
    · subst hc
      rw [if_pos hi, update_self, dinode_putInode]
    · rw [update_of_ne hc, dinode_putInode_ne ip hc]
  have hbitmap : (s.putInode i ip).disk bmapstart = s.disk bmapstart := by
    rw [State.putInode, State.put_disk, update_of_ne (by omega)]
  simp only [State.view, hblocks, hdinode, hbitmap]
  rfl

end Sectors

/-! ## An inode in memory -/

/-- The image with inode `i` as it is in memory. -/
def State.edit (s : State) (i : Nat) (din : Dinode) : Blocks.State := s.view.setCore i ⟨1, true, din.kernel⟩

section Edit

variable {s : State} {k b : Nat} {din : Dinode}

theorem edit_put (hb : nmeta ≤ b) : (s.put b buf).edit i din = (s.edit i din).setBlock b buf := by
  rw [State.edit, view_put hb]
  rfl

theorem kernel_setAddr (hk : k ≤ ndirect) (hb : b < 2 ^ 32) :
    (din.setAddr k b).kernel = { din.kernel with addrs := update din.kernel.addrs k b } := by
  have haddrs : (din.setAddr k b).kernel.addrs = update din.kernel.addrs k b := by
    funext c
    simp only [Dinode.kernel, Dinode.setAddr]
    by_cases hc : c = k
    · subst hc
      have hofNat : (⟨c, Nat.lt_succ_of_le hk⟩ : Fin (ndirect + 1)) = Fin.ofNat _ c :=
        Fin.ext (Nat.mod_eq_of_lt (Nat.lt_succ_of_le hk)).symm
      rw [dif_pos (Nat.lt_succ_of_le hk), update_self, hofNat, update_self]
      exact UInt32.toNat_ofNat_of_lt' hb
    · rw [update_of_ne hc]
      by_cases hlt : c < ndirect + 1
      · have hne : (⟨c, hlt⟩ : Fin (ndirect + 1)) ≠ Fin.ofNat _ k := by
          intro he
          have := congrArg Fin.val he
          rw [Fin.val_ofNat, Nat.mod_eq_of_lt (Nat.lt_succ_of_le hk)] at this
          exact hc this
        rw [dif_pos hlt, dif_pos hlt, update_of_ne hne]
      · rw [dif_neg hlt, dif_neg hlt]
  rw [← haddrs]
  rfl

theorem edit_setAddr (hk : k ≤ ndirect) (hb : b < 2 ^ 32) :
    s.edit i (din.setAddr k b) = (s.edit i din).setAddr i k b := by
  simp [State.edit, kernel_setAddr hk hb, Blocks.State.setAddr, Blocks.State.setDin, Blocks.State.setCore]

theorem inode_edit (s : State) (i : Nat) (din : Dinode) : (s.edit i din).inode i = din.kernel := by
  simp [Blocks.State.inode, State.edit]

theorem core_edit (s : State) (i : Nat) (din : Dinode) : ((s.edit i din).core i).valid = true := by
  simp [State.edit]

theorem kernel_addrs (din : Dinode) (hk : k ≤ ndirect) : din.kernel.addrs k = (din.addrs (Fin.ofNat _ k)).toNat := by
  have hofNat : (⟨k, Nat.lt_succ_of_le hk⟩ : Fin (ndirect + 1)) = Fin.ofNat _ k :=
    Fin.ext (Nat.mod_eq_of_lt (Nat.lt_succ_of_le hk)).symm
  simp only [Dinode.kernel]
  rw [dif_pos (Nat.lt_succ_of_le hk), hofNat]

theorem target_edit (hi : i < ninodes) : (s.edit i (s.dinode i)).target = s.view.target := by
  have hview : s.view.inode i = (s.dinode i).kernel := by
    simp [Blocks.State.inode, State.view, hi]
  funext u
  refine Blocks.target_congr ?_ rfl
  by_cases hu : u.owner = i
  · rw [hu, inode_edit, hview]
  · simp [Blocks.State.inode, State.edit, hu]

/-- Nor does writing it back. -/
theorem target_putInode (hi : i < ninodes) (haddrs : ip.addrs = din.addrs) :
    (s.putInode i ip).view.target = (s.edit i din).target := by
  have hkernel : ip.kernel.addrs = din.kernel.addrs := by
    simp only [Dinode.kernel, haddrs]
  funext u
  rw [view_putInode ip hi]
  refine Blocks.target_congr ?_ rfl
  by_cases hu : u.owner = i
  · rw [hu, inode_edit, ← hkernel]
    simp [Blocks.State.inode, State.view]
  · simp [Blocks.State.inode, State.edit, State.view, hu]

end Edit

/-! ## Blocks and their places -/

/-- The places in `P` have a block, no other place has one, and the blocks are those handed out. -/
structure Layout (t : Blocks.State) (P : Slot → Prop) (fb : Nat) : Prop where
  used : ∀ u ∈ slots super, t.target u ≠ none ↔ P u
  inside : ∀ u ∈ slots super, ∀ b, t.target u = some b → nmeta ≤ b ∧ b < fb
  once : ∀ u ∈ slots super, ∀ w ∈ slots super, ∀ b, t.target u = some b → t.target w = some b → u = w
  all : ∀ b, nmeta ≤ b → b < fb → ∃ u ∈ slots super, t.target u = some b

section Layout

variable {t t' : Blocks.State} {P P' : Slot → Prop} {fb : Nat} {u : Slot}

theorem Layout.congr (h : Layout t P fb) (ht : ∀ u ∈ slots super, t'.target u = t.target u)
    (hP : ∀ u ∈ slots super, P' u ↔ P u) : Layout t' P' fb where
  used := fun u hu => by rw [ht u hu, h.used u hu, hP u hu]
  inside := fun u hu b hb => h.inside u hu b (ht u hu ▸ hb)
  once := fun u hu w hw b hb hb' => h.once u hu w hw b (ht u hu ▸ hb) (ht w hw ▸ hb')
  all := fun b hlo hhi => by
    obtain ⟨u, hu, hb⟩ := h.all b hlo hhi
    exact ⟨u, hu, (ht u hu).trans hb⟩

/-- A place gets the next block. -/
theorem Layout.next (h : Layout t P fb) (hfb : nmeta ≤ fb) (hu : u ∈ slots super) (hold : t.target u = none)
    (hnew : t'.target u = some fb) (hother : ∀ w ∈ slots super, w ≠ u → t'.target w = t.target w) :
    Layout t' (fun w => P w ∨ w = u) (fb + 1) where
  used := fun w hw => by
    by_cases hwu : w = u
    · subst hwu
      simp [hnew]
    · rw [hother w hw hwu, h.used w hw]
      simp [hwu]
  inside := fun w hw b hb => by
    by_cases hwu : w = u
    · subst hwu
      obtain rfl := Option.some.inj (hnew.symm.trans hb)
      exact ⟨hfb, Nat.lt_succ_self _⟩
    · have := h.inside w hw b (hother w hw hwu ▸ hb)
      exact ⟨this.1, Nat.lt_succ_of_lt this.2⟩
  once := fun w hw v hv b hb hb' => by
    -- No place had the next block before.
    have hfresh : ∀ x ∈ slots super, x ≠ u → t'.target x ≠ some fb := by
      intro x hx hxu hxb
      have := h.inside x hx fb (hother x hx hxu ▸ hxb)
      omega
    by_cases hwu : w = u <;> by_cases hvu : v = u
    · rw [hwu, hvu]
    · subst hwu
      obtain rfl := Option.some.inj (hnew.symm.trans hb)
      exact absurd hb' (hfresh v hv hvu)
    · subst hvu
      obtain rfl := Option.some.inj (hnew.symm.trans hb')
      exact absurd hb (hfresh w hw hwu)
    · exact h.once w hw v hv b (hother w hw hwu ▸ hb) (hother v hv hvu ▸ hb')
  all := fun b hlo hhi => by
    by_cases hb : b = fb
    · exact ⟨u, hu, hb ▸ hnew⟩
    · obtain ⟨w, hw, htw⟩ := h.all b hlo (by omega)
      by_cases hwu : w = u
      · rw [hwu, hold] at htw
        exact nomatch htw
      · exact ⟨w, hw, (hother w hw hwu).trans htw⟩

end Layout

/-! ## Sizes -/

/-- The places that a file of size `sz i` needs. -/
def Used (sz : Nat → Nat) : Slot → Prop
  | .direct i k => k * bsize < sz i
  | .indirect i => ndirect * bsize < sz i
  | .entry i j => (ndirect + j) * bsize < sz i

/-- The number of blocks of a file of size `n`. -/
def need (n : Nat) : Nat := (n + bsize - 1) / bsize + if ndirect * bsize < n then 1 else 0

def total (sz : Nat → Nat) : Nat := ∑ i ∈ Finset.range ninodes, need (sz i)

/-- Files of these sizes fit on the disk. -/
def Room (sz : Nat → Nat) : Prop := nmeta + total sz ≤ fssize ∧ ∀ i < ninodes, sz i ≤ maxfile * bsize

section Sizes

variable {sz sz' : Nat → Nat}

theorem used_fileSlot : Used sz (fileSlot i bn) ↔ bn * bsize < sz i := by
  unfold fileSlot
  by_cases hd : bn < ndirect
  · rw [if_pos hd]
    exact Iff.rfl
  · rw [if_neg hd, Used, Nat.add_sub_cancel' (not_lt.mp hd)]

theorem need_mono (h : a ≤ b) : need a ≤ need b := by
  have hb : bsize = 512 := rfl
  have hd : ndirect = 12 := rfl
  have hdiv : (a + bsize - 1) / bsize ≤ (b + bsize - 1) / bsize := Nat.div_le_div_right (by omega)
  unfold need
  split_ifs <;> omega

theorem total_mono (h : ∀ i < ninodes, sz i ≤ sz' i) : total sz ≤ total sz' :=
  Finset.sum_le_sum fun i hi => need_mono (h i (Finset.mem_range.mp hi))

theorem Room.mono (hroom : Room sz') (h : ∀ i < ninodes, sz i ≤ sz' i) : Room sz :=
  ⟨Nat.le_trans (Nat.add_le_add_left (total_mono h) _) hroom.1, fun i hi => Nat.le_trans (h i hi) (hroom.2 i hi)⟩

theorem total_update (hi : i < ninodes) : total (update sz i m) + need (sz i) = total sz + need m := by
  have hmem : i ∈ Finset.range ninodes := Finset.mem_range.mpr hi
  have hupd : ∀ j, need (update sz i m j) = update (fun j => need (sz j)) i (need m) j := by
    intro j
    by_cases hj : j = i
    · subst hj
      rw [update_self, update_self]
    · rw [update_of_ne hj, update_of_ne hj]
  unfold total
  rw [Finset.sum_congr rfl fun j _ => hupd j, Finset.sum_update_of_mem hmem,
    Finset.sum_eq_add_sum_sdiff_singleton_of_mem hmem fun j => need (sz j)]
  omega

/-- Appending within a block needs a block if the old size is at its start, and an indirect block
    if it is the first block after the direct ones. -/
theorem need_grow {off : Nat} (hlt : off < m) (hm : m ≤ (off / bsize + 1) * bsize) :
    need m = need off + (if off / bsize * bsize < off then 0 else 1) +
      if ndirect ≤ off / bsize ∧ ¬ ndirect * bsize < off then 1 else 0 := by
  have hb : bsize = 512 := rfl
  have hd : ndirect = 12 := rfl
  unfold need
  rw [hb] at hm ⊢
  rw [hd]
  split_ifs <;> omega

/-- The places needed then. -/
theorem used_grow (hlt : sz i < m) (hm : m ≤ (sz i / bsize + 1) * bsize) (hu : u ∈ slots super) :
    Used (update sz i m) u ↔
      Used sz u ∨ u = fileSlot i (sz i / bsize) ∨ (ndirect ≤ sz i / bsize ∧ u = .indirect i) := by
  have hb : bsize = 512 := rfl
  have hd : ndirect = 12 := rfl
  have hiff : ∀ k, k * bsize < m ↔ k * bsize < sz i ∨ k = sz i / bsize := by
    intro k
    rw [hb] at hm ⊢
    omega
  cases u with
  | direct r k =>
    have hk := (mem_slots_direct.mp hu).2
    have hslot : Slot.direct r k = fileSlot i (sz i / bsize) ↔ r = i ∧ k = sz i / bsize := by
      unfold fileSlot
      split_ifs <;> simp
      omega
    by_cases hr : r = i
    · subst hr
      simpa [Used, hslot] using hiff k
    · simp [Used, hr, hslot]
  | indirect r =>
    have hslot : Slot.indirect r ≠ fileSlot i (sz i / bsize) := by
      unfold fileSlot
      split_ifs <;> exact nofun
    by_cases hr : r = i
    · subst hr
      have hiff' : ndirect * bsize < m ↔ ndirect * bsize < sz r ∨ ndirect ≤ sz r / bsize := by
        rw [hb] at hm ⊢
        omega
      simp [Used, hslot, hiff']
    · simp [Used, hr, hslot]
  | entry r j =>
    have hslot : Slot.entry r j = fileSlot i (sz i / bsize) ↔ r = i ∧ ndirect + j = sz i / bsize := by
      unfold fileSlot
      split_ifs <;> simp <;> omega
    by_cases hr : r = i
    · subst hr
      simpa [Used, hslot] using hiff (ndirect + j)
    · simp [Used, hr, hslot]

end Sizes

/-! ## Allocating blocks -/

/-- The place of `addrs[k]`. -/
def addrSlot (i k : Nat) : Slot := if k < ndirect then .direct i k else .indirect i

theorem addrSlot_mem (hi : i < ninodes) : addrSlot i k ∈ slots super := by
  unfold addrSlot
  split_ifs with hk
  · exact mem_slots_direct.mpr ⟨hi, hk⟩
  · exact mem_slots_indirect.mpr hi

section Alloc

variable {s : State} {t : Blocks.State} {P : Slot → Prop} {k b : Nat} {din : Dinode}

/-- A place of `addrs` gets a zeroed block, in which there are no entries. -/
theorem target_newAddr (hv : (t.core i).valid = true) (hk : k ≤ ndirect) (hold : t.target (addrSlot i k) = none)
    (hz : t.blocks b = fun _ => 0) :
    (t.setAddr i k b).target (addrSlot i k) = nonzero b ∧
      ∀ w ∈ slots super, w ≠ addrSlot i k → (t.setAddr i k b).target w = t.target w := by
  unfold addrSlot at hold ⊢
  split_ifs at hold ⊢ with hd
  · obtain ⟨hnew, hother⟩ := Blocks.target_setAddr_direct (b := b) hv hd
    exact ⟨hnew, fun w _ hw => hother w hw⟩
  · obtain rfl : k = ndirect := by omega
    obtain ⟨hnew, hentry, hother⟩ := Blocks.target_setAddr_indirect (b := b) super hv
    refine ⟨hnew, fun w hw hne => ?_⟩
    by_cases hwe : ∃ j, w = .entry i j
    · obtain ⟨j, rfl⟩ := hwe
      have hzero : (t.inode i).addrs ndirect = 0 := by
        by_contra hnz
        rw [Blocks.State.target, nonzero, if_neg hnz] at hold
        cases hold
      rw [hentry, Blocks.State.word, hz, Words.get_zero, Blocks.State.target, Blocks.State.word, if_pos hzero]
      simp [nonzero]
    · exact hother w hw hne fun j hj => hwe ⟨j, hj⟩

/-- The image is complete, and the blocks that were not handed out are zero. -/
structure Fresh (s : State) : Prop where
  sectors : s.sectors = fssize
  low : nmeta ≤ s.freeblock
  zeros : ∀ b, s.freeblock ≤ b → s.disk b = fun _ => 0

/-- What the loop of `iappend` does: it changes data blocks and the addresses of its inode. -/
structure Step (s s' : State) (din din' : Dinode) : Prop where
  fresh : Fresh s'
  freeinode : s'.freeinode = s.freeinode
  dinodes : ∀ r < ninodes, s'.dinode r = s.dinode r
  fields : din' = { din with addrs := din'.addrs }

theorem Step.refl (h : Fresh s) (din : Dinode) : Step s s din din := ⟨h, rfl, fun _ _ => rfl, rfl⟩

theorem Step.trans {s' s'' : State} {din' din'' : Dinode} (h : Step s s' din din') (h' : Step s' s'' din' din'') :
    Step s s'' din din'' where
  fresh := h'.fresh
  freeinode := h'.freeinode.trans h.freeinode
  dinodes := fun r hr => (h'.dinodes r hr).trans (h.dinodes r hr)
  fields := by
    rw [h'.fields, h.fields]

/-- A place that had a block keeps it; one that had none has been given the next block, `x`. -/
def Given (s s' : State) (used : Prop) (x : Nat) : Prop :=
  (used → s'.freeblock = s.freeblock) ∧ (¬ used → s'.freeblock = s.freeblock + 1 ∧ x = s.freeblock)

/-- Place `u` has block `x` now, whether it had one before or not. -/
structure Handed (s s' : State) (i : Nat) (din din' : Dinode) (P : Slot → Prop) (u : Slot) (x : Nat) : Prop where
  step : Step s s' din din'
  layout : Layout (s'.edit i din') (fun w => P w ∨ w = u) s'.freeblock
  target : (s'.edit i din').target u = some x
  given : Given s s' (P u) x

section Handed

variable {s' : State} {din' : Dinode} {u : Slot} {x : Nat}

theorem Handed.old (hs : Fresh s) (hL : Layout (s.edit i din) P s.freeblock) (hu : u ∈ slots super)
    (hx : (s.edit i din).target u = some x) : Handed s s i din din P u x := by
  have hP : P u := by
    rw [← hL.used u hu, hx]
    rintro ⟨⟩
  refine ⟨.refl hs din, hL.congr (fun _ _ => rfl) fun w _ => ?_, hx, fun _ => rfl, fun h => absurd hP h⟩
  constructor
  · rintro (h | rfl)
    · exact h
    · exact hP
  · exact .inl

theorem Handed.new (hs : Fresh s) (hL : Layout (s.edit i din) P s.freeblock) (hu : u ∈ slots super)
    (hold : (s.edit i din).target u = none) (hstep : Step s s' din din') (hfb : s'.freeblock = s.freeblock + 1)
    (hnew : (s'.edit i din').target u = some s.freeblock)
    (hother : ∀ w ∈ slots super, w ≠ u → (s'.edit i din').target w = (s.edit i din).target w) :
    Handed s s' i din din' P u s.freeblock := by
  have hP : ¬ P u := by
    rw [← hL.used u hu, hold]
    exact not_not.mpr rfl
  exact ⟨hstep, hfb ▸ hL.next hs.low hu hold hnew hother, hnew, fun h => absurd h hP, fun _ => ⟨hfb, rfl⟩⟩

theorem Handed.count [Decidable q] (h : Handed s s' i din din' P u x) (hq : P u ↔ q) :
    s'.freeblock = s.freeblock + if q then 0 else 1 := by
  split_ifs with hyes
  · exact h.given.1 (hq.mpr hyes)
  · exact (h.given.2 (mt hq.mp hyes)).1

theorem Handed.high (h : Handed s s' i din din' P u x) (hhigh : s.freeblock ≤ fssize) :
    s'.freeblock ≤ fssize ∨ x = fssize := by
  by_cases hP : P u
  · exact .inl (h.given.1 hP ▸ hhigh)
  · have := h.given.2 hP
    omega

end Handed

theorem fssize_lt : fssize < 2 ^ 32 := by decide

theorem nonzero_of_low (h : nmeta ≤ b) : nonzero b = some b :=
  if_neg (Nat.ne_of_gt (Nat.lt_of_lt_of_le (by decide) h))

theorem target_addrSlot (hk : k ≤ ndirect) :
    (s.edit i din).target (addrSlot i k) = nonzero (din.addrs (Fin.ofNat _ k)).toNat := by
  rw [← kernel_addrs din hk, ← inode_edit s i din]
  unfold addrSlot
  split_ifs with hd
  · rfl
  · obtain rfl : k = ndirect := by omega
    rfl

/-- An address of the inode in memory: a new block is taken for it if there is none. -/
theorem wp_addrOf (hi : i < ninodes) (hk : k ≤ ndirect) (hs : Fresh s) (hhigh : s.freeblock ≤ fssize)
    (hL : Layout (s.edit i din) P s.freeblock) :
    wp (addrOf din k) (fun din' s' =>
      Handed s s' i din din' P (addrSlot i k) (din'.addrs (Fin.ofNat _ k)).toNat) noStop s := by
  have hmem := addrSlot_mem (k := k) hi
  unfold addrOf
  by_cases hzero : din.addrs (Fin.ofNat _ k) = 0
  · rw [if_pos hzero]
    have hnone : (s.edit i din).target (addrSlot i k) = none := by
      rw [target_addrSlot hk, hzero]
      rfl
    have hblank : (s.edit i din).blocks s.freeblock = fun _ => 0 := by
      show (if s.freeblock < nmeta then fun _ => 0 else s.disk s.freeblock) = _
      rw [if_neg (not_lt.mpr hs.low), hs.zeros _ le_rfl]
    have hlt : s.freeblock < 2 ^ 32 := hhigh.trans_lt fssize_lt
    have haddr : ((din.setAddr k s.freeblock).addrs (Fin.ofNat _ k)).toNat = s.freeblock := by
      simp only [Dinode.setAddr, update_self]
      exact UInt32.toNat_ofNat_of_lt' hlt
    obtain ⟨hnew, hother⟩ := target_newAddr (core_edit s i din) hk hnone hblank
    rw [nonzero_of_low hs.low, ← edit_setAddr hk hlt] at hnew
    rw [← edit_setAddr hk hlt] at hother
    simp only [nextBlock, wp_bind, wp_get, wp_set, wp_pure]
    rw [haddr]
    exact .new hs hL hmem hnone ⟨⟨hs.sectors, Nat.le_succ_of_le hs.low,
      fun b hb => hs.zeros b (Nat.le_of_succ_le hb)⟩, rfl, fun _ _ => rfl, rfl⟩ rfl hnew hother
  · rw [if_neg hzero, wp_pure]
    have hnz : (din.addrs (Fin.ofNat _ k)).toNat ≠ 0 := fun h => hzero (UInt32.toNat_inj.mp h)
    exact .old hs hL hmem ((target_addrSlot hk).trans (if_neg hnz))

/-- An entry of the indirect block, which is on the disk. -/
theorem wp_entryOf {ind j : Nat} (hi : i < ninodes) (hj : j < nindirect) (hs : Fresh s) (hhigh : s.freeblock ≤ fssize)
    (hL : Layout (s.edit i din) P s.freeblock) (hind : (s.edit i din).target (.indirect i) = some ind)
    (hlt : ind < fssize) :
    wp (entryOf ind j) (fun x s' => Handed s s' i din din P (.entry i j) x) noStop s := by
  have hmem : Slot.entry i j ∈ slots super := mem_slots_entry.mpr ⟨hi, hj⟩
  have hmeta := hL.inside _ (mem_slots_indirect.mpr hi) ind hind
  have hblocks : (s.edit i din).blocks ind = s.disk ind := by
    show (if ind < nmeta then fun _ => 0 else s.disk ind) = _
    rw [if_neg (not_lt.mpr hmeta.1)]
  have htarget : (s.edit i din).target (.entry i j) = nonzero (Words.get (s.disk ind) j) := by
    obtain ⟨haddr, hne⟩ := Blocks.nonzero_eq_some.mp hind
    rw [Blocks.State.target, haddr, Blocks.State.word, if_neg hne, hblocks]
  rw [entryOf, wp_bind, wp_rsect hs.sectors hlt, wp_ite]
  refine ⟨fun hzero => ?_, fun hnz => .old hs hL hmem (htarget.trans (if_neg hnz))⟩
  have hnone : (s.edit i din).target (.entry i j) = none := by
    rw [htarget, hzero]
    rfl
  have hb : s.freeblock < 2 ^ 32 := hhigh.trans_lt fssize_lt
  have honly : ∀ r < super.ninodes, r ≠ i → (s.edit i din).target (.indirect r) ≠ some ind := by
    intro r hr hne hr'
    have := hL.once _ (mem_slots_indirect.mpr hr) _ (mem_slots_indirect.mpr hi) ind hr' hind
    exact hne (Slot.indirect.inj this)
  obtain ⟨hnew, hother⟩ := Blocks.target_setWord (j := j) hind hb honly
  rw [nonzero_of_low hs.low] at hnew
  rw [hblocks] at hnew hother
  simp only [nextBlock, wp_bind, wp_get, wp_set, wp_pure]
  rw [Words.get_set_self hb]
  refine (wp_wsect (by exact hs.sectors) hlt).mpr ?_
  have hedit : (State.put { s with freeblock := s.freeblock + 1 } ind (Words.set (s.disk ind) j s.freeblock)).edit i din =
      (s.edit i din).setBlock ind (Words.set (s.disk ind) j s.freeblock) := edit_put hmeta.1
  rw [← hedit] at hnew hother
  refine .new hs hL hmem hnone ⟨⟨hs.sectors, Nat.le_succ_of_le hs.low, fun b hb' => ?_⟩, rfl,
    fun r hr => dinode_put hmeta.1 hr, rfl⟩ rfl hnew hother
  have hle : s.freeblock + 1 ≤ b := hb'
  rw [State.put_disk, update_of_ne (by omega)]
  exact hs.zeros b (by omega)

/-- `iappend` finds the block of the next byte, or there is no room for the indirect block. -/
theorem wp_blockOf {sz : Nat → Nat} (hi : i < ninodes) (hfbn : sz i / bsize < maxfile)
    (hlt : sz i < m) (hm : m ≤ (sz i / bsize + 1) * bsize) (hs : Fresh s)
    (hhigh : s.freeblock ≤ fssize) (hL : Layout (s.edit i din) (Used sz) s.freeblock) :
    wp (blockOf din (sz i / bsize)) (fun r s' => Step s s' din r.2 ∧
      Layout (s'.edit i r.2) (Used (update sz i m)) s'.freeblock ∧
      (s'.edit i r.2).target (fileSlot i (sz i / bsize)) = some r.1 ∧
      s'.freeblock + need (sz i) = s.freeblock + need m ∧ (s'.freeblock ≤ fssize ∨ r.1 = fssize))
      (fun _ _ => fssize + need (sz i) < s.freeblock + need m) s := by
  have hneed := need_grow hlt hm
  have hused : ∀ u ∈ slots super, _ := fun u hu => used_grow hlt hm (u := u) hu
  have hP : Used sz (fileSlot i (sz i / bsize)) ↔ sz i / bsize * bsize < sz i := used_fileSlot
  rw [blockOf, wp_ite]
  refine ⟨fun hd => ?_, fun hd => ?_⟩
  · -- A direct block.
    have hslot : fileSlot i (sz i / bsize) = addrSlot i (sz i / bsize) := by
      rw [fileSlot, addrSlot, if_pos hd, if_pos hd]
    have hno : ¬ (ndirect ≤ sz i / bsize ∧ ¬ ndirect * bsize < sz i) := fun h => absurd h.1 (not_le.mpr hd)
    rw [if_neg hno] at hneed
    rw [hslot] at hP
    rw [wp_bind]
    refine wp_mono (wp_addrOf hi hd.le hs hhigh hL) ?_ fun _ _ h => h.elim
    intro din' s' h
    rw [wp_pure]
    refine ⟨h.step, h.layout.congr (fun _ _ => rfl) fun u hu => ?_, hslot ▸ h.target, ?_, h.high hhigh⟩
    · rw [hused u hu, hslot]
      simp [not_le.mpr hd]
    · have := h.count hP
      omega
  · -- An entry of the indirect block.
    have hd' : ndirect ≤ sz i / bsize := not_lt.mp hd
    have hmax : maxfile = ndirect + nindirect := rfl
    have hind : addrSlot i ndirect = .indirect i := if_neg (lt_irrefl _)
    have hslot : fileSlot i (sz i / bsize) = .entry i (sz i / bsize - ndirect) := if_neg hd
    rw [wp_bind]
    refine wp_mono (wp_addrOf hi le_rfl hs hhigh hL) ?_ fun _ _ h => h.elim
    intro din' s1 h1
    rw [hind] at h1
    have hcount : s1.freeblock = s.freeblock + if ndirect * bsize < sz i then 0 else 1 := h1.count Iff.rfl
    have hneed' : ¬ ndirect * bsize < sz i → ¬ sz i / bsize * bsize < sz i := by
      intro h h'
      exact h (Nat.lt_of_le_of_lt (Nat.mul_le_mul_right _ hd') h')
    simp only [hd', true_and] at hneed
    set ind := (din'.addrs (Fin.ofNat _ ndirect)).toNat with hinddef
    have hinside := h1.layout.inside _ (mem_slots_indirect.mpr hi) ind h1.target
    by_cases hfull : ind < fssize
    · have hhigh1 : s1.freeblock ≤ fssize := (h1.high hhigh).resolve_right hfull.ne
      rw [wp_bind]
      refine wp_mono (wp_entryOf hi (by omega) h1.step.fresh hhigh1 h1.layout h1.target hfull) ?_ fun _ _ h => h.elim
      intro x s2 h2
      rw [← hslot] at h2
      have hP1 : (Used sz (fileSlot i (sz i / bsize)) ∨ fileSlot i (sz i / bsize) = .indirect i) ↔
          sz i / bsize * bsize < sz i := by
        rw [hP, hslot]
        simp
      rw [wp_pure]
      refine ⟨h1.step.trans h2.step, h2.layout.congr (fun _ _ => rfl) fun u hu => ?_, h2.target, ?_, h2.high hhigh1⟩
      · rw [hused u hu]
        simp only [hd', true_and]
        rw [or_assoc, @or_comm (u = .indirect i)]
      · have := h2.count hP1
        split_ifs at * <;> omega
    · -- The indirect block is new and beyond the end of the image.
      have heq : ind = fssize := by
        have := h1.high hhigh
        omega
      have hnew : ¬ ndirect * bsize < sz i := by
        intro h
        rw [if_pos h] at hcount
        omega
      rw [wp_bind, entryOf, wp_bind, heq, wp_rsect_end h1.step.fresh.sectors]
      rw [if_neg (hneed' hnew), if_pos hnew] at hneed
      rw [if_neg hnew] at hcount
      omega

end Alloc

/-! ## Appending -/

/-- The image agrees with the sizes `sz`. -/
structure Inv (s : State) (t : Blocks.State) (sz : Nat → Nat) : Prop where
  fresh : Fresh s
  high : s.freeblock ≤ fssize
  layout : Layout t (Used sz) s.freeblock
  count : s.freeblock = nmeta + total sz
  small : ∀ i < ninodes, sz i ≤ maxfile * bsize

section Append

variable {s : State} {sz : Nat → Nat} {din : Dinode}

/-- Less is needed on the way. -/
theorem Room.of_update (hi : i < ninodes) (h : Room (update sz i n)) (hmn : m ≤ n) : Room (update sz i m) := by
  refine h.mono fun r _ => ?_
  by_cases hr : r = i
  · subst hr
    rw [update_self, update_self]
    exact hmn
  · rw [update_of_ne hr, update_of_ne hr]

/-- Data is written to a block that is not an indirect block. -/
theorem Layout.write {P : Slot → Prop} {fb x : Nat} (h : Layout t P fb)
    (hi : i < ninodes) (hbn : bn < maxfile) (hx : t.target (fileSlot i bn) = some x) :
    Layout (t.setBlock x buf) P fb := by
  refine h.congr (fun u hu => Blocks.target_setBlock (fun r hr hind => ?_) hu) fun _ _ => Iff.rfl
  have hmem : fileSlot i bn ∈ slots super := Blocks.fileSlot_mem hi hbn
  have := h.once _ (mem_slots_indirect.mpr hr) _ hmem x hind hx
  unfold fileSlot at this
  split_ifs at this

theorem Inv.append_nil (h : Inv s (s.edit i din) sz) (hp : p = []) :
    sz i = sz i + p.length ∧ Step s s din din ∧ Inv s (s.edit i din) (update sz i (sz i + p.length)) := by
  subst hp
  refine ⟨rfl, .refl h.fresh din, ?_⟩
  rw [List.length_nil, Nat.add_zero, update_eq_self]
  exact h

/-- The loop of `iappend`. -/
theorem wp_appendBlocks {fuel : Nat} {p : List UInt8} (hi : i < ninodes) (h : Inv s (s.edit i din) sz)
    (hp : p.length ≤ fuel) :
    wp (appendBlocks fuel p (sz i) din) (fun r s' => r.1 = sz i + p.length ∧ Step s s' din r.2 ∧
      Inv s' (s'.edit i r.2) (update sz i (sz i + p.length)))
      (fun _ _ => ¬ Room (update sz i (sz i + p.length))) s := by
  induction fuel generalizing s sz p din with
  | zero => exact h.append_nil (List.length_eq_zero_iff.mp (Nat.le_zero.mp hp))
  | succ fuel ih =>
    have hb : bsize = 512 := rfl
    have hmul : sz i / bsize * bsize ≤ sz i := Nat.div_mul_le_self _ _
    have hmul' : sz i < (sz i / bsize + 1) * bsize := by
      rw [hb]
      omega
    rw [appendBlocks]
    by_cases hnil : p = []
    · rw [if_pos hnil]
      exact h.append_nil hnil
    rw [if_neg hnil]
    have hpos : 0 < p.length := List.length_pos_iff.mpr hnil
    rw [wp_ite]
    refine ⟨fun hbig hroom => ?_, fun hfbn => ?_⟩
    · have := hroom.2 i hi
      rw [update_self] at this
      have : maxfile * bsize ≤ sz i / bsize * bsize := Nat.mul_le_mul_right _ hbig
      omega
    · have hfbn' : sz i / bsize < maxfile := not_le.mp hfbn
      set n1 := min p.length ((sz i / bsize + 1) * bsize - sz i) with hn1
      have hn1pos : 0 < n1 := by omega
      have hn1le : n1 ≤ p.length := Nat.min_le_left _ _
      have hmle : sz i + n1 ≤ (sz i / bsize + 1) * bsize := by omega
      have hstep : sz i + n1 ≤ sz i + p.length := by omega
      have htotal : total (update sz i (sz i + n1)) + _ = _ := total_update hi
      rw [wp_bind]
      refine wp_mono (wp_blockOf hi hfbn' (by omega) hmle h.fresh h.high h.layout) ?_ ?_
      · rintro ⟨x, din1⟩ s1 ⟨hstep1, hL1, hx, hcount, hroom1⟩
        have hmem : fileSlot i (sz i / bsize) ∈ slots super := Blocks.fileSlot_mem hi hfbn'
        have hinside := hL1.inside _ hmem x hx
        have hcount1 : s1.freeblock = nmeta + total (update sz i (sz i + n1)) := by
          have := h.count
          omega
        by_cases hlt : x < fssize
        · have hhigh1 : s1.freeblock ≤ fssize := by omega
          show wp (rsect x >>= _) _ _ s1
          rw [wp_bind, wp_rsect hstep1.fresh.sectors hlt, wp_bind, wp_wsect hstep1.fresh.sectors hlt]
          set s2 := s1.put x (Blocks.copyIn (s1.disk x) (fun k => p.getD k 0) (sz i - sz i / bsize * bsize) n1) with hs2
          have hfresh2 : Fresh s2 := by
            refine ⟨hstep1.fresh.sectors, hstep1.fresh.low, fun b hb' => ?_⟩
            have hne : b ≠ x := Nat.ne_of_gt (hinside.2.trans_le hb')
            rw [hs2, State.put_disk, update_of_ne hne]
            exact hstep1.fresh.zeros b hb'
          have hstep2 : Step s s2 din din1 :=
            ⟨hfresh2, hstep1.freeinode, fun r hr => (dinode_put hinside.1 hr).trans (hstep1.dinodes r hr), hstep1.fields⟩
          have hsmall1 : ∀ r < ninodes, update sz i (sz i + n1) r ≤ maxfile * bsize := by
            intro r hr
            by_cases hri : r = i
            · subst hri
              rw [update_self]
              exact hmle.trans (Nat.mul_le_mul_right _ hfbn')
            · rw [update_of_ne hri]
              exact h.small r hr
          have hinv2 : Inv s2 (s2.edit i din1) (update sz i (sz i + n1)) := by
            refine ⟨hfresh2, hhigh1, ?_, hcount1, hsmall1⟩
            rw [hs2, edit_put hinside.1]
            exact hL1.write hi hfbn' hx
          have hnext := @ih s2 (update sz i (sz i + n1)) din1 (p.drop n1) hinv2
          rw [update_self, update_idem, List.length_drop, Nat.add_assoc,
            Nat.add_sub_cancel' hn1le] at hnext
          refine wp_post (hnext (by omega)) ?_
          rintro ⟨off, din2⟩ s3 ⟨hoff, hstep3, hinv3⟩
          exact ⟨hoff, hstep2.trans hstep3, hinv3⟩
        · have heq : x = fssize := by omega
          subst heq
          show wp (rsect fssize >>= _) _ _ s1
          rw [wp_bind, wp_rsect_end hstep1.fresh.sectors]
          intro hroom
          have := (hroom.of_update hi hstep).1
          omega
      · intro _ _ hfull hroom
        have := (hroom.of_update hi hstep).1
        have := h.count
        omega

end Append

end Xv6Paging.Mkfs
