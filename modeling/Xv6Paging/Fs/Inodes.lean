import Xv6Paging.Fs.Blocks

/-! # Who owns which block

    Runs of `ialloc`, `iget`, `iput`, `readi`, `writei` and `itrunc` on any inodes. After
    each of them the bitmap has exactly the metadata and the blocks that some inode
    refers to, no block is referred to twice, and a file has a block for each of its
    bytes. `bfree` is only called for blocks in use.
-/

namespace Xv6Paging.Blocks

open List Wp Holders Function

variable {b fuel k n off x : Nat} {src : Nat → UInt8} {u : Slot} {d : Dinode}

/-! ## Reading and writing -/

section Loops

variable {sb : Super} {s : State} {i : Nat}

theorem Own.target_setData {bn : Nat} {data : Nat → UInt8} (h : Own sb s s.target [])
    (hi : i < sb.ninodes) (hbn : bn < maxfile) (hb : s.target (fileSlot i bn) = some b) :
    ∀ u ∈ slots sb, (s.setBlock b data).target u = s.target u := by
  intro u hu
  refine target_setBlock (fun r hr he => ?_) hu
  have hsame := h.unique (fileSlot_mem hi hbn) (mem_slots_indirect.mpr hr) hb he
  unfold fileSlot at hsame
  split at hsame
  · exact nomatch hsame
  · exact nomatch hsame

/-- Bytes of one chunk lie in one block. -/
theorem chunk_block (hm : m ≤ bsize - off % bsize) (h1 : off ≤ x) (h2 : x < off + m) :
    x / bsize = off / bsize := by
  unfold bsize at *
  omega

/-- The loop of `writei`: all blocks that it touches are there afterwards, and no inode loses one. -/
theorem wp_writeBlocks (h : Own sb s s.target []) (hv : (s.core i).valid = true)
    (hi : i < sb.ninodes) (hfit : off + n ≤ maxfile * bsize) (hfuel : n ≤ fuel) :
    wp (writeBlocks sb i fuel src off n) (fun off' s' => off' = off + n ∧ Own sb s' s'.target [] ∧
      Maps sb i s s' ∧ (∀ x, off ≤ x → x < off + n → s'.target (fileSlot i (x / bsize)) ≠ none) ∧
      ((∀ x, off ≤ x → x < off + n → s.target (fileSlot i (x / bsize)) ≠ none) → s'.core = s.core))
      (fun e _ => OutOfSpace e) s := by
  have hb : bsize = 512 := rfl
  have hmax : maxfile = 140 := rfl
  induction fuel generalizing s src off n with
  | zero =>
    have hn : n = 0 := by omega
    subst hn
    refine ⟨rfl, h, Maps.refl sb i s, fun x h1 h2 => absurd h2 (by omega), fun _ => rfl⟩
  | succ fuel ih =>
    unfold writeBlocks
    rw [wp_ite]
    refine ⟨fun hn => ?_, fun hn => ?_⟩
    · subst hn
      exact ⟨rfl, h, Maps.refl sb i s, fun x h1 h2 => absurd h2 (by omega), fun _ => rfl⟩
    · have hbn : off / bsize < maxfile := by
        rw [hb, hmax] at *
        omega
      rw [wp_bind]
      refine wp_post (wp_bmap h hv hi hbn) ?_
      rintro b s₁ ⟨h₁, hb₁, hm₁, hsame₁⟩
      have hdata : ∀ d, ∀ u ∈ slots sb, (s₁.setBlock b d).target u = s₁.target u := fun d =>
        h₁.target_setData hi hbn hb₁
      rw [wp_bind, wp_modify]
      -- The state after the first chunk, of `m` bytes.
      have hm : min n (bsize - off % bsize) ≤ bsize - off % bsize := Nat.min_le_right _ _
      have hpos : 0 < min n (bsize - off % bsize) := by
        rw [hb]
        omega
      have hle : min n (bsize - off % bsize) ≤ n := Nat.min_le_left _ _
      generalize hmdef : min n (bsize - off % bsize) = m at hm hpos hle
      generalize hd : copyIn (s₁.blocks b) src (off % bsize) m = data
      have h₂ : Own sb (s₁.setBlock b data) (s₁.setBlock b data).target [] :=
        (h₁.congr (hdata data)).of_bitmap rfl
      have hm₂ : Maps sb i s (s₁.setBlock b data) :=
        hm₁.trans ⟨rfl, fun _ _ => rfl, ⟨_, rfl⟩, fun u hu c hc => (hdata data u hu).trans hc⟩
      refine wp_post (ih h₂ (hm₂.valid hv) (by omega) (by omega)) ?_
      rintro off' s' ⟨hoff, hown, hmaps, htouched, hcore⟩
      refine ⟨by omega, hown, hm₂.trans hmaps, fun x h1 h2 => ?_, fun hall => ?_⟩
      · by_cases hx : x < off + m
        · rw [chunk_block hm h1 hx]
          have hu := fileSlot_mem hi hbn
          have : s'.target (fileSlot i (off / bsize)) = some b :=
            hmaps.keeps _ hu b ((hdata data _ hu).trans hb₁)
          rw [this]
          exact nofun
        · exact htouched x (by omega) (by omega)
      · have hfirst : s₁ = s := hsame₁ (hall off le_rfl (by omega))
        subst hfirst
        refine hcore fun x h1 h2 => ?_
        have hxbn : x / bsize < maxfile := by
          rw [hb, hmax] at *
          omega
        rw [hdata data _ (fileSlot_mem hi hxbn)]
        exact hall x (by omega) (by omega)

/-- The loop of `readi` within a file allocates nothing. -/
theorem wp_readBlocks (h : Own sb s s.target []) (hv : (s.core i).valid = true)
    (hi : i < sb.ninodes) (hfit : off + n ≤ maxfile * bsize)
    (hall : ∀ x, off ≤ x → x < off + n → s.target (fileSlot i (x / bsize)) ≠ none) :
    wp (readBlocks sb i fuel off n) (fun _ s' => s' = s) (fun e _ => OutOfSpace e) s := by
  have hb : bsize = 512 := rfl
  have hmax : maxfile = 140 := rfl
  induction fuel generalizing off n with
  | zero => rfl
  | succ fuel ih =>
    unfold readBlocks
    rw [wp_ite]
    refine ⟨fun _ => rfl, fun hn => ?_⟩
    have hbn : off / bsize < maxfile := by
      rw [hb, hmax] at *
      omega
    rw [wp_bind]
    refine wp_post (wp_bmap h hv hi hbn) ?_
    rintro b s1 ⟨_, _, _, hsame⟩
    obtain rfl := hsame (hall off le_rfl (by omega))
    have hle : min n (bsize - off % bsize) ≤ n := Nat.min_le_left _ _
    simp only [wp_bind, wp_get, wp_pure]
    exact ih (by omega) fun x h1 h2 => hall x (by omega) (by omega)

end Loops

/-! ## Truncation -/

section Trunc

variable {sb : Super} {s s' s'' : State} {i : Nat} {T : Slot → Option Nat}

/-- What `itrunc` does to the state up to its `iupdate`: the cached copy of inode `i` loses
    addresses. -/
structure Loses (sb : Super) (i : Nat) (s s' : State) : Prop where
  dinode : s'.dinode = s.dinode
  blocks : s'.blocks = s.blocks
  others : ∀ r, r ≠ i → s'.core r = s.core r
  copy : ∃ addrs, s'.core i = { s.core i with din := { (s.core i).din with addrs := addrs } }

theorem Loses.refl (sb : Super) (i : Nat) (s : State) : Loses sb i s s :=
  ⟨rfl, rfl, fun _ _ => rfl, ⟨_, rfl⟩⟩

theorem Loses.trans (h : Loses sb i s s') (h' : Loses sb i s' s'') : Loses sb i s s'' where
  dinode := h'.dinode.trans h.dinode
  blocks := h'.blocks.trans h.blocks
  others := fun r hr => (h'.others r hr).trans (h.others r hr)
  copy := by
    obtain ⟨a, ha⟩ := h.copy
    obtain ⟨a', ha'⟩ := h'.copy
    exact ⟨a', by rw [ha', ha]⟩

theorem Loses.valid (h : Loses sb i s s') (hv : (s.core i).valid = true) : (s'.core i).valid = true := by
  obtain ⟨a, ha⟩ := h.copy
  rw [ha]
  exact hv

theorem loses_setAddr : Loses sb i s ((s.setBit b v).setAddr i k 0) := by
  refine ⟨rfl, rfl, fun r hr => ?_, ⟨update (s.core i).din.addrs k 0, ?_⟩⟩
  · simp [State.setAddr, State.setDin, hr]
  · simp [State.setAddr, State.setDin]

theorem addrs_setAddr : ((s.setAddr i k b).core i).din.addrs k' =
    if k' = k then b else (s.core i).din.addrs k' := by
  simp [State.setAddr, State.setDin, update_apply]

/-- The loop over the direct blocks in `itrunc`. -/
theorem wp_freeDirect {ks : List Nat} (h : Own sb s s.target []) (hv : (s.core i).valid = true)
    (hi : i < sb.ninodes) (hks : ∀ k ∈ ks, k < ndirect) :
    wp (freeDirect i ks) (fun _ s' => Own sb s' s'.target [] ∧ Loses sb i s s' ∧
      ∀ k, (s'.core i).din.addrs k = if k ∈ ks then 0 else (s.core i).din.addrs k) noStop s := by
  induction ks generalizing s with
  | nil => exact ⟨h, Loses.refl sb i s, fun _ => rfl⟩
  | cons k ks ih =>
    have hk := hks k mem_cons_self
    have hks' : ∀ k' ∈ ks, k' < ndirect := fun k' hk' => hks k' (mem_cons_of_mem k hk')
    have hu : Slot.direct i k ∈ slots sb := mem_slots_direct.mpr ⟨hi, hk⟩
    simp only [freeDirect, wp_bind, wp_get, wp_ite, wp_modify]
    refine ⟨fun hz => ?_, fun hnz => ?_⟩
    · refine wp_post (ih h hv hks') ?_
      rintro _ s' ⟨hown, hl, ha⟩
      refine ⟨hown, hl, fun k' => ?_⟩
      rw [ha k']
      by_cases hkk : k' = k
      · subst hkk
        simp [hz]
      · simp [hkk]
    · -- The block is freed first and the entry cleared then.
      obtain ⟨hself, hother⟩ := target_setAddr_direct (s := s) (b := 0) hv hk
      have hheld : s.target (.direct i k) = some ((s.core i).din.addrs k) := by
        simp only [State.target, inode_of_valid hv]
        exact if_neg hnz
      have hlift : Own sb s (s.setAddr i k 0).target [(s.core i).din.addrs k] :=
        h.lift hu hheld hself fun w _ hw => hother w hw
      rw [wp_bfree hlift]
      have hfreed : Own sb ((s.setBit ((s.core i).din.addrs k) false).setAddr i k 0)
          ((s.setBit ((s.core i).din.addrs k) false).setAddr i k 0).target [] := by
        have hsame : ((s.setBit ((s.core i).din.addrs k) false).setAddr i k 0).target =
            (s.setAddr i k 0).target := by
          show ((s.setAddr i k 0).setBit _ false).target = _
          exact target_setBit
        rw [hsame]
        exact hlift.free.2.of_bitmap rfl
      refine wp_post (ih hfreed ((loses_setAddr : Loses sb i s _).valid hv) hks') ?_
      rintro _ s' ⟨hown, hl, ha⟩
      refine ⟨hown, loses_setAddr.trans hl, fun k' => ?_⟩
      rw [ha k', addrs_setAddr]
      by_cases hkk : k' = k
      · subst hkk
        simp
      · simp [hkk]

/-- The places of `T` without the entries `js` of inode `i`. -/
def cleared (i : Nat) (js : List Nat) (T : Slot → Option Nat) : Slot → Option Nat
  | .entry r j => if r = i ∧ j ∈ js then none else T (.entry r j)
  | u => T u

/-- The blocks of the entries `js` are freed; the entries stay in the indirect block. -/
theorem wp_freeEntries {ind : Nat} {js : List Nat} (h : Own sb s T []) (hi : i < sb.ninodes)
    (hjs : ∀ j ∈ js, j < nindirect) (hnd : js.Nodup)
    (hT : ∀ j ∈ js, T (.entry i j) = nonzero (Words.get (s.blocks ind) j)) :
    wp (freeEntries ind js) (fun _ s' => Own sb s' (cleared i js T) [] ∧ s'.core = s.core ∧
      s'.dinode = s.dinode ∧ s'.blocks = s.blocks) noStop s := by
  induction js generalizing s T with
  | nil =>
    refine ⟨h.congr fun u _ => ?_, rfl, rfl, rfl⟩
    cases u <;> simp [cleared]
  | cons j js ih =>
    obtain ⟨hnew, hnd'⟩ := nodup_cons.mp hnd
    have hj := hjs j mem_cons_self
    have hjs' : ∀ j' ∈ js, j' < nindirect := fun j' hj' => hjs j' (mem_cons_of_mem j hj')
    have hu : Slot.entry i j ∈ slots sb := mem_slots_entry.mpr ⟨hi, hj⟩
    have hTj := hT j mem_cons_self
    have hT' : ∀ j' ∈ js, cleared i [j] T (.entry i j') = nonzero (Words.get (s.blocks ind) j') := by
      intro j' hj'
      have hne : j' ≠ j := fun he => hnew (he ▸ hj')
      rw [cleared, if_neg (by simp [hne])]
      exact hT j' (mem_cons_of_mem j hj')
    have hjoin : ∀ u, cleared i js (cleared i [j] T) u = cleared i (j :: js) T u := by
      intro u
      cases u with
      | direct r k => rfl
      | indirect r => rfl
      | entry r j' =>
        simp only [cleared, mem_cons]
        by_cases hr : r = i
        · by_cases hj' : j' = j
          · simp [hr, hj']
          · simp [hr, hj']
        · simp [hr]
    simp only [freeEntries, wp_bind, wp_get, wp_ite]
    refine ⟨fun hz => ?_, fun hnz => ?_⟩
    · have hnone : ∀ u ∈ slots sb, cleared i [j] T u = T u := by
        intro u _
        cases u with
        | direct r k => rfl
        | indirect r => rfl
        | entry r j' =>
          simp only [cleared]
          split
          · rename_i he
            obtain ⟨rfl, hj'⟩ := he
            rw [mem_singleton.mp hj', hTj, hz]
            rfl
          · rfl
      refine wp_post (ih (h.congr hnone) hjs' hnd' hT') ?_
      rintro _ s' ⟨hown, hrest⟩
      exact ⟨hown.congr fun u _ => (hjoin u).symm, hrest⟩
    · rw [nonzero, if_neg hnz] at hTj
      have hlift : Own sb s (cleared i [j] T) [Words.get (s.blocks ind) j] := by
        refine h.lift hu hTj (by simp [cleared]) fun w _ hw => ?_
        cases w with
        | direct r k => rfl
        | indirect r => rfl
        | entry r j' =>
          refine if_neg fun he => hw ?_
          rw [he.1, mem_singleton.mp he.2]
      rw [wp_bfree hlift]
      refine wp_post (ih hlift.free.2 hjs' hnd' hT') ?_
      rintro _ s' ⟨hown, hrest⟩
      exact ⟨hown.congr fun u _ => (hjoin u).symm, hrest⟩

/-- The indirect block goes after its entries. -/
theorem wp_freeIndirect (h : Own sb s s.target []) (hv : (s.core i).valid = true) (hi : i < sb.ninodes) :
    wp (freeIndirect i) (fun _ s' => Own sb s' s'.target [] ∧ Loses sb i s s' ∧
      ∀ k, (s'.core i).din.addrs k = if k = ndirect then 0 else (s.core i).din.addrs k) noStop s := by
  simp only [freeIndirect, wp_bind, wp_get, wp_ite, wp_pure, wp_modify]
  refine ⟨fun hz => ⟨h, Loses.refl sb i s, fun k => ?_⟩, fun hnz => ?_⟩
  · split
    · rename_i hk
      rw [hk, hz]
    · rfl
  · have hheld : s.target (.indirect i) = some ((s.core i).din.addrs ndirect) := by
      simp only [State.target, inode_of_valid hv]
      exact if_neg hnz
    have hT : ∀ j ∈ List.range nindirect, s.target (.entry i j) =
        nonzero (Words.get (s.blocks ((s.core i).din.addrs ndirect)) j) := by
      intro j _
      simp only [State.target, State.word, inode_of_valid hv, if_neg hnz]
    refine wp_post (wp_freeEntries h hi (fun _ => mem_range.mp) nodup_range hT) ?_
    rintro _ s1 ⟨hown, hcore, hdin, hblk⟩
    generalize hind : (s.core i).din.addrs ndirect = ind at hheld hnz
    obtain ⟨hself, hwords, hother⟩ := target_setAddr_indirect sb (s := s) (b := 0) hv
    have hlift : Own sb s1 (s.setAddr i ndirect 0).target [ind] := by
      refine hown.lift (mem_slots_indirect.mpr hi) hheld hself fun w hw hwne => ?_
      by_cases hentry : ∃ j, w = .entry i j
      · obtain ⟨j, rfl⟩ := hentry
        have hj := (mem_slots_entry.mp hw).2
        rw [hwords, cleared, if_pos ⟨rfl, mem_range.mpr hj⟩]
        rfl
      · rw [hother w hw hwne fun j he => hentry ⟨j, he⟩]
        cases w with
        | direct r k => rfl
        | indirect r => rfl
        | entry r j =>
          refine (if_neg fun he => hentry ⟨j, ?_⟩).symm
          rw [he.1]
    rw [wp_bfree hlift]
    have hin : ∀ r, ((s1.setBit ind false).setAddr i ndirect 0).inode r = (s.setAddr i ndirect 0).inode r := by
      intro r
      simp only [State.inode, State.setAddr, State.setDin, State.setCore_core, State.setCore_dinode,
        State.setBit_core, State.setBit_dinode, hcore, hdin]
    have htarget : ((s1.setBit ind false).setAddr i ndirect 0).target = (s.setAddr i ndirect 0).target :=
      funext fun u => target_congr (by rw [hin]) hblk
    refine ⟨?_, ⟨hdin, hblk, fun r hr => ?_, ⟨update (s.core i).din.addrs ndirect 0, ?_⟩⟩, fun k => ?_⟩
    · rw [htarget]
      exact hlift.free.2.of_bitmap rfl
    · simp [State.setAddr, State.setDin, hr, hcore]
    · simp [State.setAddr, State.setDin, hcore]
    · rw [addrs_setAddr, State.setBit_core, hcore]

theorem target_of_no_addrs (h : ∀ k ≤ ndirect, (s.inode i).addrs k = 0) (hu : u ∈ slots sb)
    (ho : u.owner = i) : s.target u = none := by
  cases u with
  | direct r k =>
    obtain rfl : r = i := ho
    have hk := (mem_slots_direct.mp hu).2
    rw [State.target, h k hk.le]
    rfl
  | indirect r =>
    obtain rfl : r = i := ho
    rw [State.target, h ndirect le_rfl]
    rfl
  | entry r j =>
    obtain rfl : r = i := ho
    rw [State.target, h ndirect le_rfl]
    rfl

/-- What `itrunc` leaves. -/
structure Truncated (i : Nat) (s s' : State) : Prop where
  blocks : s'.blocks = s.blocks
  others : ∀ r, r ≠ i → s'.core r = s.core r ∧ s'.dinode r = s.dinode r
  copy : ∃ addrs, (∀ k ≤ ndirect, addrs k = 0) ∧
    s'.core i = { s.core i with din := { (s.core i).din with addrs := addrs, size := 0 } }
  written : s'.dinode i = (s'.core i).din

/-- `itrunc` frees what inode `i` refers to, and writes the inode. -/
theorem wp_itrunc (h : Own sb s s.target []) (hv : (s.core i).valid = true) (hi : i < sb.ninodes) :
    wp (itrunc i) (fun _ s' => Own sb s' s'.target [] ∧ Truncated i s s') noStop s := by
  simp only [itrunc, iupdate, wp_bind, wp_modify]
  refine wp_post (wp_freeDirect h hv hi fun _ => mem_range.mp) ?_
  rintro _ s1 ⟨h1, hl1, ha1⟩
  refine wp_post (wp_freeIndirect h1 (hl1.valid hv) hi) ?_
  rintro _ s2 ⟨h2, hl2, ha2⟩
  have hl := hl1.trans hl2
  have hv2 := hl.valid hv
  have hzero : ∀ k ≤ ndirect, (s2.core i).din.addrs k = 0 := by
    intro k hk
    rw [ha2 k]
    split
    · rfl
    · rename_i hne
      rw [ha1 k, if_pos (mem_range.mpr (by omega))]
  obtain ⟨addrs, hcopy⟩ := hl.copy
  generalize hs3 : s2.setDin i { (s2.core i).din with size := 0 } = s3
  have hcore3 : s3.core i = { s.core i with din := { (s.core i).din with addrs := addrs, size := 0 } } := by
    rw [← hs3]
    simp [State.setDin, hcopy]
  have hother3 : ∀ r, r ≠ i → s3.core r = s.core r ∧ s3.dinode r = s.dinode r := by
    intro r hr
    rw [← hs3]
    refine ⟨?_, congrFun hl.dinode r⟩
    simp [State.setDin, hr, hl.others r hr]
  refine ⟨?_, ⟨?_, fun r hr => ?_, ⟨addrs, ?_, hcore3⟩, ?_⟩⟩
  · -- The size and the copy on disk do not matter to the places.
    have hv3 : (s3.core i).valid = true := by
      rw [hcore3]
      exact hv
    have haddr3 : (s3.core i).din.addrs = (s2.core i).din.addrs := by
      rw [hcore3, hcopy]
    have hsame : (s3.setDinode i (s3.core i).din).target = s2.target := by
      funext u
      refine target_congr ?_ (by rw [← hs3]; rfl)
      by_cases hu : u.owner = i
      · rw [hu, inode_of_valid hv2, inode_of_valid (s := s3.setDinode i _) hv3]
        exact haddr3
      · have hr := hother3 u.owner hu
        have hr2 := hl.others u.owner hu
        simp [State.inode, hr.1, hr2, hu, hr.2, hl.dinode]
    rw [hsame]
    exact h2.of_bitmap (by rw [← hs3]; rfl)
  · rw [← hs3]
    exact hl.blocks
  · refine ⟨(hother3 r hr).1, ?_⟩
    rw [State.setDinode_dinode, update_of_ne hr]
    exact (hother3 r hr).2
  · intro k hk
    have := hzero k hk
    rwa [hcopy] at this
  · simp

end Trunc

/-! ## Operations -/

/-- Calls for inode `i`. The caller of all but `iget` and `ialloc` holds a reference to it, and
    locks it where the source asks for that. -/
inductive BlockOp where
  | iget (i : Nat)
  | ialloc (type : FileType)
  | readi (i off n : Nat)
  | writei (i : Nat) (src : Nat → UInt8) (off n : Nat)
  | itrunc (i : Nat)
  /-- Set `nlink` and call `iupdate`, as `create`, `link` and `unlink` do. -/
  | setNlink (i nlink : Nat)
  | iput (i : Nat)

def BlockOp.exec (sb : Super) : BlockOp → B Unit
  | .iget i => Blocks.iget sb i
  | .ialloc type => do
    let _ ← Blocks.ialloc sb type
    pure ()
  | .readi i off n => do
    ilock i
    let _ ← Blocks.readi sb i off n
    pure ()
  | .writei i src off n => do
    ilock i
    let _ ← Blocks.writei sb i src off n
    pure ()
  | .itrunc i => do
    ilock i
    Blocks.itrunc i
  | .setNlink i nlink => do
    ilock i
    modify fun s => s.setDin i { (s.core i).din with nlink := nlink }
    iupdate i
  | .iput i => Blocks.iput i

/-- Inode numbers are below `ninodes`, and a reference that is given up is held. -/
def BlockOp.Promised (sb : Super) : BlockOp → State → Prop
  | .iget i, _ => i < sb.ninodes
  | .ialloc _, _ => True
  | .readi i _ _, _ => i < sb.ninodes
  | .writei i _ _ _, _ => i < sb.ninodes
  | .itrunc i, _ => i < sb.ninodes
  | .setNlink i _, _ => i < sb.ninodes
  | .iput i, s => i < sb.ninodes ∧ 0 < (s.core i).ref

instance (sb : Super) (op : BlockOp) (s : State) : Decidable (op.Promised sb s) := by
  cases op <;> unfold BlockOp.Promised <;> infer_instance

/-- The state between calls: valid copies in the cache are what the disk has. -/
structure Inv (sb : Super) (s : State) : Prop where
  own : Own sb s s.target []
  synced : ∀ i, (s.core i).valid = true → (s.core i).din = s.dinode i ∧ (s.dinode i).type ≠ .free
  freed : ∀ i < sb.ninodes, (s.dinode i).type = .free →
    (∀ k ≤ ndirect, (s.dinode i).addrs k = 0) ∧ (s.dinode i).size = 0
  filled : ∀ i < sb.ninodes, ∀ x < (s.dinode i).size, s.target (fileSlot i (x / bsize)) ≠ none
  small : ∀ i < sb.ninodes, (s.dinode i).size ≤ maxfile * bsize

section Inv

variable {sb : Super} {s s' : State} {i : Nat}

theorem block_lt (hx : x < maxfile * bsize) : x / bsize < maxfile :=
  Nat.div_lt_of_lt_mul (by rwa [Nat.mul_comm])

theorem owner_fileSlot (i bn : Nat) : (fileSlot i bn).owner = i := by
  unfold fileSlot
  split <;> rfl

theorem Inv.inode_eq (h : Inv sb s) (r : Nat) : s.inode r = s.dinode r := by
  unfold State.inode
  split
  · rename_i hv
    exact (h.synced r hv).1
  · rfl

theorem Inv.recache (h : Inv sb s) (hbit : s'.bitmap = s.bitmap) (hblk : s'.blocks = s.blocks)
    (hdin : s'.dinode = s.dinode)
    (hs : ∀ r, (s'.core r).valid = true → (s'.core r).din = s.dinode r ∧ (s.dinode r).type ≠ .free) :
    Inv sb s' := by
  have hin : ∀ r, s'.inode r = s.inode r := by
    intro r
    rw [h.inode_eq r]
    unfold State.inode
    split
    · rename_i hv
      exact (hs r hv).1
    · rw [hdin]
  have htarget : s'.target = s.target := funext fun u => target_congr (by rw [hin]) hblk
  refine ⟨?_, hdin ▸ hs, hdin ▸ h.freed, ?_, hdin ▸ h.small⟩
  · rw [htarget]
    exact h.own.of_bitmap hbit
  · rw [htarget, hdin]
    exact h.filled

theorem Inv.setCore {ip : Incore} (h : Inv sb s)
    (hs : ip.valid = true → ip.din = s.dinode i ∧ (s.dinode i).type ≠ .free) : Inv sb (s.setCore i ip) := by
  refine h.recache rfl rfl rfl fun r hr => ?_
  by_cases hri : r = i
  · subst hri
    rw [State.setCore_core, update_self] at hr ⊢
    exact hs hr
  · rw [State.setCore_core, update_of_ne hri] at hr ⊢
    exact h.synced r hr

theorem iget_inv (h : Inv sb s) : wp (iget sb i) (fun _ s' => Inv sb s') (fun e _ => OutOfSpace e) s := by
  simp only [iget, wp_bind, wp_get, wp_ite, wp_set, wp_throw]
  refine ⟨fun _ => ?_, fun _ => ⟨fun _ => .inr (.inl rfl), fun _ => ?_⟩⟩
  · exact h.setCore (h.synced i)
  · exact h.setCore (by rintro ⟨⟩)

/-- Stops of the calls: no resource is left, or the inode cannot be locked. -/
def CallStop (e : Stop) : Prop :=
  OutOfSpace e ∨ e = .panic "ilock" ∨ e = .panic "ilock: no type"

theorem ilock_inv (h : Inv sb s) : wp (ilock i) (fun _ s' => Inv sb s' ∧ (s'.core i).valid = true)
    (fun e _ => CallStop e) s := by
  simp only [ilock, wp_bind, wp_get, wp_ite, wp_set, wp_throw, wp_pure]
  refine ⟨fun _ => .inr (.inl rfl), fun _ => ⟨fun hv => ⟨h, hv⟩, fun _ => ⟨fun _ => .inr (.inr rfl), fun ht => ?_⟩⟩⟩
  refine ⟨h.setCore fun _ => ⟨rfl, ht⟩, ?_⟩
  simp

theorem readi_inv (h : Inv sb s) (hv : (s.core i).valid = true) (hi : i < sb.ninodes) :
    wp (readi sb i off n) (fun _ s' => Inv sb s') (fun e _ => OutOfSpace e) s := by
  have hsize : (s.core i).din.size = (s.dinode i).size := by rw [(h.synced i hv).1]
  have hsmall := h.small i hi
  simp only [readi, wp_bind, wp_get, wp_ite, wp_pure]
  refine ⟨fun _ => h, fun _ => ⟨fun _ => h, fun hok => ?_⟩⟩
  have hmin : min n ((s.core i).din.size - off) ≤ (s.core i).din.size - off := Nat.min_le_right _ _
  refine wp_post (wp_readBlocks h.own hv hi (by omega) fun x h1 h2 => ?_) ?_
  · exact h.filled i hi x (by omega)
  · rintro _ s' rfl
    exact h

/-- The invariant after inode `i` has changed: what is to be shown about it, when other inodes are
    as before and keep their blocks. -/
theorem Inv.change (h : Inv sb s) (hown : Own sb s' s'.target [])
    (hother : ∀ r, r ≠ i → s'.core r = s.core r ∧ s'.dinode r = s.dinode r)
    (hkeep : ∀ u ∈ slots sb, u.owner ≠ i → ∀ b, s.target u = some b → s'.target u = some b)
    (hsync : (s'.core i).valid = true → (s'.core i).din = s'.dinode i ∧ (s'.dinode i).type ≠ .free)
    (hfreed : (s'.dinode i).type = .free →
      (∀ k ≤ ndirect, (s'.dinode i).addrs k = 0) ∧ (s'.dinode i).size = 0)
    (hfill : ∀ x < (s'.dinode i).size, s'.target (fileSlot i (x / bsize)) ≠ none)
    (hsmall : (s'.dinode i).size ≤ maxfile * bsize) : Inv sb s' := by
  refine ⟨hown, fun r hr => ?_, fun r hri hfree => ?_, fun r hri x hx => ?_, fun r hri => ?_⟩
  all_goals by_cases he : r = i
  · subst he
    exact hsync hr
  · rw [(hother r he).1] at hr ⊢
    rw [(hother r he).2]
    exact h.synced r hr
  · subst he
    exact hfreed hfree
  · rw [(hother r he).2] at hfree ⊢
    exact h.freed r hri hfree
  · subst he
    exact hfill x hx
  · rw [(hother r he).2] at hx
    have hsm := h.small r hri
    obtain ⟨b, hb⟩ := Option.ne_none_iff_exists'.mp (h.filled r hri x hx)
    have hmem : fileSlot r (x / bsize) ∈ slots sb := fileSlot_mem hri (block_lt (by omega))
    rw [hkeep _ hmem (by rwa [owner_fileSlot]) b hb]
    exact nofun
  · subst he
    exact hsmall
  · rw [(hother r he).2]
    exact h.small r hri

/-- The places depend on the addresses only. -/
theorem Own.retarget (h : Own sb s s.target []) (hbit : s'.bitmap = s.bitmap) (hblk : s'.blocks = s.blocks)
    (haddr : ∀ r, (s'.inode r).addrs = (s.inode r).addrs) : Own sb s' s'.target [] := by
  have htarget : s'.target = s.target := funext fun u => target_congr (haddr u.owner) hblk
  rw [htarget]
  exact h.of_bitmap hbit

section Write

variable (ip : Incore) (hv : (s.core i).valid = true) (haddr : d.addrs = (s.core i).din.addrs)
  (hip : ip.valid = true → ip.din.addrs = d.addrs)

include hv haddr hip

theorem addrs_write (r : Nat) : (((s.setDinode i d).setCore i ip).inode r).addrs = (s.inode r).addrs := by
  by_cases hr : r = i
  · subst hr
    rw [inode_of_valid hv, ← haddr]
    unfold State.inode
    split
    · rename_i hvalid
      rw [State.setCore_core, update_self] at hvalid ⊢
      exact hip hvalid
    · simp
  · simp [State.inode, hr]

theorem target_write : ((s.setDinode i d).setCore i ip).target = s.target :=
  funext fun u => target_congr (addrs_write ip hv haddr hip u.owner) rfl

end Write

/-- Inode `i` is written to the disk as `d`, with the addresses of the copy in the cache, which becomes
    `ip`. Other inodes are as before and keep their blocks. -/
theorem Inv.write (h : Inv sb s) (ip : Incore) (hown : Own sb s' s'.target [])
    (hother : ∀ r, r ≠ i → s'.core r = s.core r ∧ s'.dinode r = s.dinode r)
    (hkeep : ∀ u ∈ slots sb, u.owner ≠ i → ∀ b, s.target u = some b → s'.target u = some b)
    (hv : (s'.core i).valid = true) (haddr : d.addrs = (s'.core i).din.addrs)
    (hip : ip.valid = true → ip.din = d ∧ d.type ≠ .free)
    (hfreed : d.type = .free → (∀ k ≤ ndirect, d.addrs k = 0) ∧ d.size = 0)
    (hsize : d.size ≤ maxfile * bsize) (hfill : ∀ x < d.size, s'.target (fileSlot i (x / bsize)) ≠ none) :
    Inv sb ((s'.setDinode i d).setCore i ip) := by
  have hadd := addrs_write ip hv haddr fun hvalid => congrArg Dinode.addrs (hip hvalid).1
  have htarget := target_write ip hv haddr fun hvalid => congrArg Dinode.addrs (hip hvalid).1
  have hdisk : ((s'.setDinode i d).setCore i ip).dinode i = d := by simp
  refine h.change (i := i) (hown.retarget rfl rfl hadd) (fun r hr => ?_) (fun u hu ho b hb => ?_) ?_ ?_ ?_ ?_
  · simp [hr, hother r hr]
  · rw [htarget]
    exact hkeep u hu ho b hb
  · rw [hdisk, State.setCore_core, update_self]
    exact hip
  · rw [hdisk]
    exact hfreed
  · rw [hdisk, htarget]
    exact hfill
  · rw [hdisk]
    exact hsize

theorem setNlink_inv (h : Inv sb s) (nlink : Nat) (hi : i < sb.ninodes) (hv : (s.core i).valid = true) :
    Inv sb ((s.setDin i { (s.core i).din with nlink := nlink }).setDinode i
      { (s.core i).din with nlink := nlink }) := by
  obtain ⟨hcopy, htype⟩ := h.synced i hv
  rw [hcopy]
  exact h.write { s.core i with din := { s.dinode i with nlink := nlink } } h.own (fun _ _ => ⟨rfl, rfl⟩)
    (fun _ _ _ _ hb => hb) hv (by rw [hcopy]) (fun _ => ⟨rfl, htype⟩) (fun hf => absurd hf htype)
    (h.small i hi) (h.filled i hi)

/-- `writei` grows the file only after the blocks for its new size are there. -/
theorem writei_inv (h : Inv sb s) (hv : (s.core i).valid = true) (hi : i < sb.ninodes) :
    wp (writei sb i src off n) (fun _ s' => Inv sb s') (fun e _ => OutOfSpace e) s := by
  have hsize : (s.core i).din.size = (s.dinode i).size := by rw [(h.synced i hv).1]
  have hsmall := h.small i hi
  simp only [writei, wp_bind, wp_get, wp_ite, wp_pure, wp_modify, iupdate]
  refine ⟨fun _ => h, fun _ => ⟨fun _ => h, fun hok => ⟨fun _ => h, fun hfit => ?_⟩⟩⟩
  refine wp_post (wp_writeBlocks h.own hv hi (by omega) le_rfl) ?_
  rintro off' s' ⟨rfl, hown, hm, htouched, hcore⟩
  have hkept : ∀ r < sb.ninodes, ∀ x < (s.dinode r).size, s'.target (fileSlot r (x / bsize)) ≠ none := by
    intro r hr x hx
    have hsm := h.small r hr
    obtain ⟨b, hb⟩ := Option.ne_none_iff_exists'.mp (h.filled r hr x hx)
    rw [hm.keeps _ (fileSlot_mem hr (block_lt (by omega))) b hb]
    rintro ⟨⟩
  refine ⟨fun hgrow => ?_, fun hno => ?_⟩
  · obtain ⟨addrs, hcopy⟩ := hm.copy
    have htype : (s'.core i).din.type ≠ .free := by
      rw [hcopy]
      exact (h.synced i hv).1 ▸ (h.synced i hv).2
    have hg := h.write (d := { (s'.core i).din with size := off + n }) { s'.core i with din := _ } hown
      (fun r hr => ⟨hm.others r hr, congrFun hm.dinode r⟩) (fun u hu _ => hm.keeps u hu) (hm.valid hv) rfl
      (fun _ => ⟨rfl, htype⟩) (fun hf => absurd hf htype) (by dsimp only; omega) fun x hx => ?_
    · simpa [State.setDin, State.setCore, State.setDinode] using hg
    · by_cases hold : x < (s.dinode i).size
      · exact hkept i hi x hold
      · exact htouched x (by omega) hx
  · -- The blocks were all there, so that the copy in the cache has not changed.
    have hsame : s'.core = s.core := by
      refine hcore fun x h1 h2 => ?_
      exact h.filled i hi x (by omega)
    refine ⟨hown, fun r hr => ?_, ?_, fun r hr x hx => ?_, ?_⟩
    · rw [hsame] at hr ⊢
      rw [hm.dinode]
      exact h.synced r hr
    · rw [hm.dinode]
      exact h.freed
    · rw [hm.dinode] at hx
      exact hkept r hr x hx
    · rw [hm.dinode]
      exact h.small

/-- Other inodes keep their blocks when the contents of blocks are the same. -/
theorem Truncated.target_eq (ht : Truncated i s s') (hu : u.owner ≠ i) :
    s'.target u = s.target u := by
  refine target_congr ?_ ht.blocks
  simp [State.inode, (ht.others u.owner hu).1, (ht.others u.owner hu).2]

/-- After `itrunc`, the copy on disk may have any type as long as the cached copy agrees or is
    thrown away. -/
theorem Truncated.inv (ht : Truncated i s s') (type : FileType) (ip : Incore) (h : Inv sb s)
    (hown : Own sb s' s'.target []) (hv : (s.core i).valid = true)
    (hip : ip.valid = true → ip.din = { (s'.core i).din with type := type } ∧ type ≠ .free) :
    Inv sb ((s'.setDinode i { (s'.core i).din with type := type }).setCore i ip) := by
  obtain ⟨addrs, hzero, hcopy⟩ := ht.copy
  have hsize : (s'.core i).din.size = 0 := by rw [hcopy]
  refine h.write ip hown ht.others (fun u _ ho b hb => (ht.target_eq ho).trans hb) (by rw [hcopy]; exact hv) rfl
    hip (fun _ => ⟨fun k hk => ?_, hsize⟩) (by simp [hsize]) fun x hx => ?_
  · rw [hcopy]
    exact hzero k hk
  · simp [hsize] at hx

theorem itrunc_inv (h : Inv sb s) (hv : (s.core i).valid = true) (hi : i < sb.ninodes) :
    wp (itrunc i) (fun _ s' => Inv sb s') noStop s := by
  refine wp_post (wp_itrunc h.own hv hi) ?_
  rintro _ s' ⟨hown, ht⟩
  obtain ⟨addrs, _, hcopy⟩ := ht.copy
  have htype : (s'.core i).din.type ≠ .free := by
    rw [hcopy]
    show (s.core i).din.type ≠ .free
    rw [(h.synced i hv).1]
    exact (h.synced i hv).2
  have hinv := ht.inv (s'.core i).din.type (s'.core i) h hown hv fun _ => ⟨rfl, htype⟩
  have hsame : (s'.setDinode i (s'.core i).din).setCore i (s'.core i) = s' := by
    simp [State.setDinode, State.setCore, ← ht.written]
  rwa [show ({ (s'.core i).din with type := (s'.core i).din.type } : Dinode) = (s'.core i).din from rfl,
    hsame] at hinv

theorem iput_inv (h : Inv sb s) (hi : i < sb.ninodes) :
    wp (iput i) (fun _ s' => Inv sb s') noStop s := by
  simp only [iput, wp_bind, wp_get, wp_ite, wp_modify]
  refine ⟨fun hlast => ?_, fun _ => h.setCore (h.synced i)⟩
  simp only [ifree, iupdate, wp_bind, wp_modify]
  refine wp_post (wp_itrunc h.own hlast.1 hi) ?_
  rintro _ s' ⟨hown, ht⟩
  have hinv := ht.inv .free ⟨(s'.core i).ref - 1, false, { (s'.core i).din with type := .free }⟩ h hown hlast.1
    (by rintro ⟨⟩)
  simpa [State.setDin, State.setCore, State.setDinode] using hinv

/-- `ialloc` takes a free inode, which refers to no block. -/
theorem ialloc_inv {type : FileType} (h : Inv sb s) :
    wp (ialloc sb type) (fun _ s' => Inv sb s') (fun e _ => OutOfSpace e) s := by
  simp only [ialloc, wp_bind, wp_get]
  cases hfind : (List.range' 1 (sb.ninodes - 1)).find? fun i => decide ((s.dinode i).type = .free) with
  | none => exact .inr (.inr rfl)
  | some i =>
    have hi : i < sb.ninodes := by
      have := mem_range'_1.mp (mem_of_find?_eq_some hfind)
      omega
    have hfree : (s.dinode i).type = .free := by simpa using find?_some hfind
    obtain ⟨haddr, hsize⟩ := h.freed i hi hfree
    have hinvalid : ¬ (s.core i).valid = true := fun hv => (h.synced i hv).2 hfree
    simp only [wp_bind, wp_set, wp_pure]
    refine iget_inv ?_
    -- Neither the free inode nor the new one refers to a block.
    generalize hd : ({ Dinode.zero with type := type } : Dinode) = d
    have hdaddr : ∀ k ≤ ndirect, d.addrs k = 0 := by
      rw [← hd]
      exact fun _ _ => rfl
    have hdsize : d.size = 0 := by
      rw [← hd]
      rfl
    have hnew : (s.setDinode i d).inode i = d := by simp [State.inode, hinvalid]
    have htarget : ∀ u ∈ slots sb, (s.setDinode i d).target u = s.target u := by
      intro u hu
      by_cases ho : u.owner = i
      · rw [target_of_no_addrs (i := i) (by rwa [hnew]) hu ho,
          target_of_no_addrs (i := i) (by rwa [h.inode_eq]) hu ho]
      · refine target_congr ?_ rfl
        simp [State.inode, ho]
    have hown : Own sb (s.setDinode i d) s.target [] := h.own.of_bitmap rfl
    have hdisk : (s.setDinode i d).dinode i = d := by simp
    refine h.change (i := i) (hown.congr htarget) (fun r hr => ?_) (fun u hu _ b hb => ?_) ?_ ?_ ?_ ?_
    · simp [hr]
    · rw [htarget u hu]
      exact hb
    · exact fun hv => absurd hv hinvalid
    · rw [hdisk]
      exact fun _ => ⟨hdaddr, hdsize⟩
    · rw [hdisk, hdsize]
      exact fun x hx => absurd hx (Nat.not_lt_zero x)
    · rw [hdisk, hdsize]
      exact Nat.zero_le _

/-- Each call keeps the invariant. -/
theorem exec_inv {op : BlockOp} (h : Inv sb s) (hop : op.Promised sb s) :
    wp (op.exec sb) (fun _ s' => Inv sb s') (fun e _ => CallStop e) s := by
  cases op with
  | iget i => exact wp_mono (iget_inv h) (fun _ _ h' => h') fun _ _ he => .inl he
  | ialloc type =>
    simp only [BlockOp.exec, wp_bind, wp_pure]
    exact wp_mono (ialloc_inv h) (fun _ _ h' => h') fun _ _ he => .inl he
  | readi i off n =>
    simp only [BlockOp.exec, wp_bind, wp_pure]
    refine wp_post (ilock_inv h) ?_
    rintro _ s1 ⟨h1, hv⟩
    exact wp_mono (readi_inv h1 hv hop) (fun _ _ h' => h') fun _ _ he => .inl he
  | writei i src off n =>
    simp only [BlockOp.exec, wp_bind, wp_pure]
    refine wp_post (ilock_inv h) ?_
    rintro _ s1 ⟨h1, hv⟩
    exact wp_mono (writei_inv h1 hv hop) (fun _ _ h' => h') fun _ _ he => .inl he
  | itrunc i =>
    simp only [BlockOp.exec, wp_bind]
    refine wp_post (ilock_inv h) ?_
    rintro _ s1 ⟨h1, hv⟩
    exact wp_mono (itrunc_inv h1 hv hop) (fun _ _ h' => h') fun _ _ he => he.elim
  | setNlink i nlink =>
    simp only [BlockOp.exec, iupdate, wp_bind, wp_modify]
    refine wp_post (ilock_inv h) ?_
    rintro _ s1 ⟨h1, hv⟩
    have := setNlink_inv h1 nlink hop hv
    simpa [State.setDin] using this
  | iput i => exact wp_mono (iput_inv h hop.1) (fun _ _ h' => h') fun _ _ he => he.elim

end Inv

/-! ## Whole runs -/

/-- Blocks and the bitmap agree. -/
structure BlocksOk (sb : Super) (s : State) : Prop where
  /-- Blocks that inodes and indirect blocks refer to are in the data area. -/
  inside : ∀ u ∈ slots sb, ∀ b, s.target u = some b → sb.data b
  /-- No two places refer to the same block. -/
  once : ∀ u ∈ slots sb, ∀ w ∈ slots sb, ∀ b, s.target u = some b → s.target w = some b → u = w
  bitmap : ∀ b < sb.size, s.bitmap b = true ↔ b < sb.nmeta ∨ ∃ u ∈ slots sb, s.target u = some b
  /-- Every block of a file below its size is there. -/
  filled : ∀ i < sb.ninodes, ∀ bn, bn * bsize < (s.inode i).size →
    ∃ b, s.target (fileSlot i bn) = some b
  /-- Inodes in the cache are as on the disk. -/
  cached : ∀ i, s.inode i = s.dinode i

/-- A well-formed image, right after the boot: no inode is in the cache. -/
structure WellFormed (sb : Super) (s : State) : Prop extends BlocksOk sb s where
  uncached : ∀ i, (s.core i).valid = false
  freed : ∀ i < sb.ninodes, (s.dinode i).type = .free →
    (∀ k ≤ ndirect, (s.dinode i).addrs k = 0) ∧ (s.dinode i).size = 0
  small : ∀ i < sb.ninodes, (s.dinode i).size ≤ maxfile * bsize

section Runs

variable {sb : Super} {s : State}

/-- Blocks that are marked and referred to once are owned: the counters are the bits. -/
theorem BlocksOk.own (h : BlocksOk sb s) : Own sb s s.target [] := by
  have hlow : ∀ b < sb.nmeta, s.bitmap b = true := by
    intro b hb
    have hlt : b < sb.size := hb.trans_le (Nat.sub_le _ _)
    exact (h.bitmap b hlt).mpr (.inl hb)
  refine ⟨hlow, (List.range sb.size).filter (fun b => !s.bitmap b), ?_, ?_, ?_, ?_, ?_, ?_⟩
  · intro b hb
    rw [count_nil, Nat.add_zero]
    by_cases hset : s.bitmap b = true
    · -- One place refers to a block that is marked.
      rcases (h.bitmap b hb.2).mp hset with hmeta | ⟨u, hu, htu⟩
      · exact absurd hb.1 (by omega)
      · have honly : ((slots sb).filter fun w => s.target w = some b) = {u} := by
          ext w
          simp only [Finset.mem_filter, Finset.mem_singleton]
          constructor
          · rintro ⟨hw, htw⟩
            exact h.once w hw u hu b htw htu
          · rintro rfl
            exact ⟨hu, htu⟩
        rw [State.marks, if_pos hset, holders, honly, Finset.card_singleton]
    · have hnone : ((slots sb).filter fun w => s.target w = some b) = ∅ := by
        refine Finset.filter_eq_empty_iff.mpr fun w hw htw => hset ?_
        exact (h.bitmap b hb.2).mpr (.inr ⟨w, hw, htw⟩)
      rw [State.marks, if_neg hset, holders, hnone, Finset.card_empty]
  · exact fun hu ht => h.inside _ hu _ ht
  · rintro _ ⟨⟩
  · intro u b hu _ ht
    have hdata := h.inside u hu b ht
    exact if_pos ((h.bitmap b hdata.2).mpr (.inr ⟨u, hu, ht⟩))
  · exact nodup_range.filter _
  · intro b
    simp only [mem_filter, mem_range, Bool.not_eq_eq_eq_not, Bool.not_true]
    constructor
    · rintro ⟨hlt, hclear⟩
      refine ⟨⟨?_, hlt⟩, by simp [State.marks, hclear]⟩
      by_contra hlow'
      rw [hlow b (by omega)] at hclear
      cases hclear
    · rintro ⟨hdata, hzero⟩
      refine ⟨hdata.2, ?_⟩
      unfold State.marks at hzero
      split at hzero
      · cases hzero
      · rename_i hclear
        simpa using hclear

theorem WellFormed.inv (h : WellFormed sb s) : Inv sb s := by
  refine ⟨h.own, fun i hv => ?_, h.freed, fun i hi x hx => ?_, h.small⟩
  · rw [h.uncached i] at hv
    exact nomatch hv
  · have hx' : x / bsize * bsize < (s.inode i).size := by
      rw [h.cached i]
      exact Nat.lt_of_le_of_lt (Nat.div_mul_le_self x bsize) hx
    obtain ⟨b, hb⟩ := h.filled i hi _ hx'
    rw [hb]
    exact nofun

/-- What the invariant says of blocks and the bitmap. -/
theorem Inv.blocksOk (h : Inv sb s) : BlocksOk sb s := by
  obtain ⟨free, hb⟩ := h.own.balanced
  refine ⟨fun u hu b ht => hb.target_ok hu ht, fun u hu w hw b htu htw => h.own.unique hu hw htu htw,
    fun b hlt => ⟨fun hset => ?_, ?_⟩, fun i hi bn hbn => ?_, h.inode_eq⟩
  · by_cases hmeta : b < sb.nmeta
    · exact .inl hmeta
    · have hcount := hb.count (f := b) ⟨by omega, hlt⟩
      rw [State.marks, if_pos hset, count_nil, Nat.add_zero] at hcount
      have hpos : 0 < holders (slots sb) s.target b := by omega
      obtain ⟨u, hu⟩ := Finset.card_pos.mp hpos
      exact .inr ⟨u, (Finset.mem_filter.mp hu).1, (Finset.mem_filter.mp hu).2⟩
  · rintro (hmeta | ⟨u, hu, ht⟩)
    · exact h.own.low b hmeta
    · have hone := hb.exclusive hu trivial ht
      unfold State.marks at hone
      split at hone
      · assumption
      · cases hone
  · rw [h.inode_eq i] at hbn
    have := h.filled i hi (bn * bsize) hbn
    rw [Nat.mul_div_cancel _ (by decide)] at this
    exact Option.ne_none_iff_exists'.mp this

/-- From a well-formed image, every sequence of calls leaves blocks and the bitmap in agreement, and
    no call frees a free block. -/
theorem blocks_owned_once (ops : List BlockOp) (h : WellFormed sb s)
    (hops : Run.Along (BlockOp.exec sb) (BlockOp.Promised sb) ops s) :
    (∀ outs s', Run.run (BlockOp.exec sb) ops s = .ok outs s' → BlocksOk sb s') ∧
      ∀ e s', Run.run (BlockOp.exec sb) ops s = .error e s' → e ≠ .panic "freeing free block" := by
  have hrun := Run.wp_invariant (fun _ _ hs hop => exec_inv hs hop) h.inv hops
  constructor
  · intro outs s' hx
    exact ((wp_of_ok hx).mp hrun).blocksOk
  · intro e s' hx
    have hstop : CallStop e := (wp_of_error hx).mp hrun
    rintro rfl
    revert hstop
    simp [CallStop, OutOfSpace]

end Runs

/-! ## A small image -/

/-- Four blocks of metadata and four inodes. -/
def smallSuper : Super := ⟨40, 36, 4, by decide, by decide⟩

/-- The root directory has one block, and everything else is free. -/
def smallImage : State where
  bitmap := fun b => decide (b < 5)
  blocks := fun _ _ => 0
  dinode := fun i => if i = 1 then ⟨.dir, 0, 0, 1, 32, fun k => if k = 0 then 4 else 0⟩ else .zero
  core := fun _ => ⟨0, false, .zero⟩

theorem smallImage_target :
    smallImage.target u = some b ↔ u = .direct 1 0 ∧ b = 4 := by
  cases u with
  | direct i k =>
    by_cases hi : i = 1 <;> by_cases hk : k = 0 <;>
      simp [State.target, State.inode, smallImage, nonzero, Dinode.zero, hi, hk, eq_comm]
  | indirect i =>
    by_cases hi : i = 1 <;> simp [State.target, State.inode, smallImage, nonzero, Dinode.zero, hi, ndirect]
  | entry i j =>
    by_cases hi : i = 1 <;>
      simp [State.target, State.inode, State.word, smallImage, Dinode.zero, hi, ndirect]

theorem smallImage_wellFormed : WellFormed smallSuper smallImage := by
  refine ⟨⟨fun u _ b h => ?_, fun u _ w _ b hu hw => ?_, fun b hb => ?_, fun i hi bn hbn => ?_, fun _ => rfl⟩,
    fun _ => rfl, fun i _ ht => ?_, fun i _ => ?_⟩
  · obtain ⟨_, rfl⟩ := smallImage_target.mp h
    exact ⟨by decide, by decide⟩
  · rw [(smallImage_target.mp hu).1, (smallImage_target.mp hw).1]
  · have hmeta : smallSuper.nmeta = 4 := rfl
    have hset : smallImage.bitmap b = true ↔ b < 5 := by simp [smallImage]
    simp only [smallImage_target, hset, hmeta]
    constructor
    · intro hlt
      by_cases h4 : b = 4
      · exact .inr ⟨.direct 1 0, mem_slots_direct.mpr ⟨by decide, by decide⟩, rfl, h4⟩
      · exact .inl (by omega)
    · rintro (hlt | ⟨_, _, _, h4⟩) <;> omega
  · by_cases h1 : i = 1
    · subst h1
      have h32 : bn * bsize < 32 := hbn
      obtain rfl : bn = 0 := by
        unfold bsize at h32
        omega
      exact ⟨4, smallImage_target.mpr ⟨rfl, rfl⟩⟩
    · simp [State.inode, smallImage, h1, Dinode.zero] at hbn
  · by_cases h1 : i = 1
    · simp [smallImage, h1] at ht
    · simp [smallImage, h1, Dinode.zero]
  · by_cases h1 : i = 1
    · simp [smallImage, h1, maxfile, bsize]
    · simp [smallImage, h1, Dinode.zero]

/-- A file with an indirect block is created, filled and freed. -/
def smallRun : List BlockOp :=
  [.iget 1, .ialloc .file, .writei 2 (fun _ => 7) 0 6500, .readi 2 6000 100, .setNlink 2 0,
    .writei 1 (fun _ => 1) 32 16, .iput 2, .ialloc .dir, .writei 2 (fun _ => 2) 0 32, .itrunc 2]

theorem blocks_owned_once_smallRun : ∃ outs s',
    Run.run (BlockOp.exec smallSuper) smallRun smallImage = .ok outs s' ∧ BlocksOk smallSuper s' := by
  obtain ⟨outs, hx⟩ := Run.exists_of_returns
    (x := Run.run (BlockOp.exec smallSuper) smallRun) (s := smallImage) (by decide +kernel)
  exact ⟨outs, _, hx, (blocks_owned_once smallRun smallImage_wellFormed (by decide +kernel)).1 _ _ hx⟩

end Xv6Paging.Blocks
