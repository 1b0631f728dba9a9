import Xv6Paging.Paged

/-! # What the swap code does to a paged process

    Total correctness of `moveToDisk`, `getPageFromFile` and `swapPages`, for a
    process that satisfies the invariant `Paged`: none of their panics is
    reached, and they do the moves of `Paged`.
-/

namespace Xv6Paging

open Wp Placement Function

variable {c : Config} {p : Nat} {m : Machine} {T : PageMap} {l xs ys : List Nat} {i v s : Nat}
  {d va : Nat} {E : Stop → Machine → Prop}

/-! ## Out -/

theorem wp_setFlagsOut (Q : Unit → Machine → Prop) (hl : (m.dirs d).live = true)
    (ht : (m.dirs d).table (pdx va) ≠ none) :
    wp (setFlagsOnSwap d va false) Q E m ↔
      Q () (m.setPte d (vpn va) ((m.dirs d).pte (vpn va)).pagedOut) := by
  simp only [setFlagsOnSwap, wp_bind]
  rw [wp_walkpgdir_mapped _ hl ht]
  simp only [wp_bind, wp_getPte, Bool.false_eq_true, if_false, wp_setPte]

theorem wp_setFlagsIn (Q : Unit → Machine → Prop) (hl : (m.dirs d).live = true)
    (ht : (m.dirs d).table (pdx va) ≠ none) :
    wp (setFlagsOnSwap d va true) Q E m ↔
      Q () (m.setPte d (vpn va) ((m.dirs d).pte (vpn va)).pagedIn) := by
  simp only [setFlagsOnSwap, wp_bind]
  rw [wp_walkpgdir_mapped _ hl ht]
  simp only [wp_bind, wp_getPte, if_true, wp_setPte]

/-- What it takes to write out entry `i` of the table. -/
theorem movePageToFile_spec (h : Paged c p m T (xs ++ i :: ys)) (hT : T i = .fast v)
    (hroom : (m.proc p).numPagesDisk < swapSlots) (hfile : (m.proc p).swapFile ≠ none) :
    wp (movePageToFile p i) (fun r m' => r = true ∧ ∃ s < swapSlots,
      (m.proc p).availableOffsets s = false ∧
      m' = (m.setSwap p ((m.swap p).wrote (m.mem (m.pte p v).frame).byte (pgsize * s)
        pgsize)).setProc p ((m.proc p).markOut i s)) noStop m := by
  have hi : i < maxTotalPages := h.listed.lt i (by simp)
  have hv : v < maxTotalPages := h.records.page_lt hi (by simp [hT])
  have hent := h.records.entry i hi
  rw [hT] at hent
  have hp : ((m.dirs (m.proc p).pgdir).pte v).p = true :=
    (h.present_iff (lt_nuserPages hv)).mpr ⟨i, hi, hT⟩
  have ht : (m.dirs (m.proc p).pgdir).table (pdx (pgsize * v)) ≠ none := by
    rw [pdx_mul hv]; exact h.table
  obtain ⟨s, hs, hnext, hfree, hlow⟩ := h.recorded.nextAvOffset_eq hroom
  have hoff : pgsize * s ≤ (m.swap p).size := by
    cases s with
    | zero => simp
    | succ t =>
      have := h.covered (s := t) (by omega) (hlow t (by omega))
      rw [Nat.mul_succ]
      exact this
  have hmax : pgsize * s + pgsize ≤ maxfile * bsize := by
    simp only [pgsize, maxfile, bsize, swapSlots] at *
    omega
  simp only [movePageToFile, wp_bind, wp_curDir, h.global, Option.getD_none, wp_onProc,
    wp_getLink_lt hi, Machine.setProc_self, hent.2]
  rw [wp_walkpgdir_mapped _ h.live ht]
  simp only [vpn_mul, wp_bind, wp_getPte, hp, wp_getProc, hnext, userPage, wp_get, if_true, wp_pure]
  refine wp_post (writeToSwapFile_spec (fun _ => h.unlocked) hfile hoff hmax) ?_
  rintro r m' ⟨rfl, rfl⟩
  rw [Machine.noteOp_of_zero h.outside]
  simp only [if_true, wp_bind, wp_onProc, wp_setPage_lt hi, wp_setOffset hs, wp_modify, wp_pure]
  refine ⟨trivial, s, hs, hfree, ?_⟩
  simp [Proc.markOut, Proc.setPage, Proc.setLink, Machine.pte]

/-- `moveToDisk` moves the page of entry `i` to a free slot. -/
theorem moveToDisk_spec (h : Paged c p m T (xs ++ i :: ys)) (hT : T i = .fast v)
    (hroom : (m.proc p).numPagesDisk < swapSlots) (hfile : (m.proc p).swapFile ≠ none) :
    wp (moveToDisk c p i) (fun r m' => r = true ∧ ∃ s pr,
      (∀ j < maxTotalPages, (T j).slot ≠ some s) ∧ SameSpace (m.proc p) pr ∧
      m' = m.evict p v s pr ∧
      Paged c p m' (update T i (.slow v s)) (xs ++ ys)) noStop m := by
  have hi : i < maxTotalPages := h.listed.lt i (by simp)
  have hv : v < maxTotalPages := h.records.page_lt hi (by simp [hT])
  have hent := h.records.entry i hi
  rw [hT] at hent
  have hp : ((m.dirs (m.proc p).pgdir).pte v).p = true :=
    (h.present_iff (lt_nuserPages hv)).mpr ⟨i, hi, hT⟩
  obtain ⟨hman, hpos⟩ := h.frame (lt_nuserPages hv) hp
  have ht : (m.dirs (m.proc p).pgdir).table (pdx (pgsize * v)) ≠ none := by
    rw [pdx_mul hv]; exact h.table
  simp only [moveToDisk, wp_bind, wp_curDir, h.global, Option.getD_none]
  refine wp_post (movePageToFile_spec h hT hroom hfile) ?_
  rintro r m' ⟨rfl, s, hs, hfree, rfl⟩
  have hslot : ∀ j < maxTotalPages, (T j).slot ≠ some s := by
    intro j hj hjs
    have := (h.records.offsets s hs).mpr ⟨j, hj, hjs⟩
    simp [hfree] at this
  simp only [if_true, wp_bind, wp_modifyProc, wp_onProc, Machine.setProc_proc, update_self,
    Machine.setProc_setProc]
  -- Take the entry off the list; its page stays marked as paged out.
  have hl : ((m.proc p).markOut i s).countOut.Listed (xs ++ i :: ys) :=
    (h.listed.markOut i s).congr rfl rfl rfl
  refine wp_mono (removePageFromList_spec hl) ?_ (fun _ _ hf => hf)
  rintro _ pr ⟨hlist, hsh⟩
  have hid : (pr.pagesMetaData i).page.pageId = pgsize * v := by
    rw [hsh.page i]
    simpa [Proc.countOut, Proc.markOut] using hent.2
  have hsame : SameSpace (m.proc p) pr :=
    SameSpace.trans (b := ((m.proc p).markOut i s).countOut) rfl hsh.sameSpace
  simp only [wp_getLink_lt hi, hid]
  rw [wp_setFlagsOut _ (by simpa using h.live) (by simpa using ht)]
  simp only [vpn_mul, wp_getPte, Machine.setPte_dirs, Machine.setProc_dirs, Machine.setSwap_dirs,
    update_self]
  refine (wp_kfree_of_pos (f := (m.pte p v).frame) _ hman (by simpa using hpos)).mpr ?_
  show wp (pure true) _ noStop
    ((m.evict p v s pr).setProc p ((m.evict p v s pr).proc p).lessRam)
  rw [evict_proc, update_self, evict_setProc]
  have hsame' : SameSpace (m.proc p) pr.lessRam := hsame.trans (b := pr) rfl
  exact ⟨rfl, s, pr.lessRam, hslot, hsame', rfl,
    h.evict hT hsame' hfile (h.records.evict hT hs hfree hsh hlist)⟩

/-! ## In -/

/-- Panic message of `getPageFromFile` when no frame is left. -/
def outOfMemory : Stop := .panic "getPageFromFile: kalloc out of memory\n"

/-- The writes of `getPageFromFile` to the metadata. -/
theorem wp_markIn {pr : Proc} {Q : Unit → Proc → Prop} {E : Stop → Proc → Prop}
    (hi : i < maxTotalPages) (hs : s < swapSlots) :
    wp (do
      setOffset s false
      modify fun pr => { pr with
        numPagesRam := pr.numPagesRam + 1, numPagesDisk := pr.numPagesDisk - 1 }
      setPage i fun page => { page with offsetInFile := noOffset, state := .inMemory }
      addPageToList i : P Unit) Q E pr ↔ wp (addPageToList i) Q E (pr.markIn i s) := by
  simp only [wp_bind, wp_setOffset hs, wp_modify, wp_setPage_lt hi]
  exact Iff.rfl

/-- `getPageFromFile` brings the page of entry `i` back, if a frame is left and the entry can be
    appended to the list. -/
theorem getPageFromFile_rule {B : Stop → Prop} {X : Proc → Prop} (h : Placed c p m T)
    (hi : i < maxTotalPages) (hT : T i = .slow v s) (hoom : m.freelist = [] → B outOfMemory)
    (hadd : wp (addPageToList i) (fun _ pr => Shuffled ((m.proc p).markIn i s) pr ∧ X pr)
      (fun e _ => B e) ((m.proc p).markIn i s)) :
    wp (getPageFromFile p i) (fun r m' => r = true ∧ ∃ f rest pr, m.freelist = f :: rest ∧
      SameSpace (m.proc p) pr ∧ X pr ∧
      m' = m.bring p v f rest (fun k => (m.swap p).data (pgsize * s + k)) pr ∧
      pr.Recorded (update T i (.fast v)) ∧
      Placed c p m' (update T i (.fast v))) (fun e _ => B e) m := by
  have hv : v < maxTotalPages := h.recorded.page_lt hi (by simp [hT])
  have hs : s < swapSlots := h.recorded.ok.slot_lt hi (by simp [hT])
  have hent := h.recorded.entry i hi
  rw [hT] at hent
  obtain ⟨hp, hpg⟩ := (h.paged_iff (lt_nuserPages hv)).mpr ⟨i, hi, s, hT⟩
  have ht : (m.dirs (m.proc p).pgdir).table (pdx (pgsize * v)) ≠ none := by
    rw [pdx_mul hv]; exact h.table
  have hfile : (m.proc p).swapFile ≠ none := by
    intro hnone
    have hzero := h.opened hnone
    rw [h.recorded.disk] at hzero
    have hpos : 0 < slowCount maxTotalPages T := count_pos hi (by simp [hT])
    omega
  obtain ⟨fd, hfd⟩ := Option.ne_none_iff_exists'.mp hfile
  have hcov := h.covered hs ((h.recorded.offsets s hs).mpr ⟨i, hi, by simp [hT]⟩)
  have hread : (m.swap p).readi (pgsize * s) pgsize = some pgsize := by
    have h1 : ¬ ((m.swap p).size < pgsize * s ∨ 2 ^ 32 ≤ pgsize * s + pgsize) := by
      simp only [pgsize, swapSlots] at *
      omega
    have h2 : ¬ (m.swap p).size < pgsize * s + pgsize := by omega
    simp only [Inode.readi, h1, h2, if_false]
  simp only [getPageFromFile, wp_bind, wp_onProc, wp_getLink_lt hi, Machine.setProc_self, wp_curDir,
    h.global, Option.getD_none, wp_kalloc, hent.2.1, hent.2.2]
  refine ⟨hoom, ?_⟩
  intro f rest hf
  rw [wp_mappages_mapped _ (by simpa using h.live) (by simpa using ht) (by simpa [Machine.pte] using hp)]
  simp only [vpn_mul, readFromSwapFile, wp_bind, wp_getProc, Machine.setPte_proc,
    Machine.takeFrame_proc, hfd, wp_get, wp_pure, Machine.setPte_swap, Machine.takeFrame_swap, hread,
    wp_modify]
  rw [wp_setFlagsIn _ (by simpa using h.live) (by simpa using ht)]
  have hpage : ((m.takeFrame f rest).mem f).overwrite (m.swap p) (pgsize * s) pgsize =
      (fun k => (m.swap p).data (pgsize * s + k) : Page) := by
    funext k
    exact if_pos k.isLt
  have hX : ∀ pr, ((((m.takeFrame f rest).setPte (m.proc p).pgdir v (Pte.wu.mapTo f)).setMem f
      (fun k => (m.swap p).data (pgsize * s + k))).setPte (m.proc p).pgdir v
      (Pte.wu.mapTo f)).setProc p pr =
      m.bring p v f rest (fun k => (m.swap p).data (pgsize * s + k)) pr := fun pr =>
    congrArg (fun x : Machine => x.setProc p pr)
      (Machine.setPte_setPte ((m.takeFrame f rest).setMem f _) (m.proc p).pgdir v _ _)
  simp only [vpn_mul, wp_onProc, pgsize_mul_div, Machine.setMem_dirs, Machine.setPte_dirs,
    update_self, Pte.pagedIn_mapTo_wu, Machine.setPte_mem, hpage, hX]
  refine (wp_markIn hi hs).mpr (wp_mono hadd ?_ (fun _ _ he => he))
  rintro _ pr ⟨hsh, hx⟩
  have hsame : SameSpace (m.proc p) pr :=
    SameSpace.trans (b := (m.proc p).markIn i s) rfl hsh.sameSpace
  have hrec := h.recorded.load hi hT hsh
  refine ⟨trivial, f, rest, pr, hf, hsame, hx, rfl, hrec, ?_⟩
  refine h.bring hi hv ?_ ?_ hf hsame hrec
  · intro w hw
    simpa [hT, eq_comm] using hw
  · intro j hj hji hk
    exact hji (h.recorded.ok.key_inj hj hi hk (by simp [hT]))

/-- `getPageFromFile` brings the page of entry `i` back. -/
theorem getPageFromFile_spec {rest : List Nat} (h : Paged c p m T l) (hne : l ≠ [])
    (hi : i < maxTotalPages) (hT : T i = .slow v s) (hf : m.freelist = f :: rest) :
    wp (getPageFromFile p i) (fun r m' => r = true ∧ ∃ pr, SameSpace (m.proc p) pr ∧
      m' = m.bring p v f rest (fun k => (m.swap p).data (pgsize * s + k)) pr ∧
      Paged c p m' (update T i (.fast v)) (l ++ [i])) noStop m := by
  have hil : i ∉ l := by
    intro hil
    have := ((h.records.mem_iff i).mp hil).2
    simp [hT] at this
  have hadd : wp (addPageToList i) (fun _ pr => Shuffled ((m.proc p).markIn i s) pr ∧
      pr.Listed (l ++ [i])) (fun _ _ => False) ((m.proc p).markIn i s) :=
    wp_mono (addPageToList_spec (h.listed.markIn i s) hne hil hi) (fun _ _ h => h.symm)
      (fun _ _ he => he)
  refine wp_mono (getPageFromFile_rule h.toPlaced hi hT (fun hnil => by simp [hf] at hnil) hadd) ?_
    (fun _ _ he => he)
  rintro r m' ⟨rfl, f', rest', pr, hf', hpr, hlist, rfl, hrec, h'⟩
  rw [hf] at hf'
  cases hf'
  have hrecs := (⟨hrec, hlist, h.records.mem_append hi v⟩ : pr.Records _ _)
  exact ⟨rfl, pr, hpr, rfl, h'.paged (by simpa using hrecs)⟩

end Xv6Paging
