import Xv6Paging.Quiet

/-! # The memory code as sequences of events

    An invariant that the events of process `p` keep (`Closed`) is kept by the
    functions of `vm.c` and `trap.c`. Each function has one rule; the frames in
    flight before and after it are part of the invariant's argument, so that a
    rule says which references the function has taken over or given away.
-/

namespace Xv6Paging

open Wp Function

variable {c : Config} {a d i k newsz oldsz p q v : Nat} {m m' : Machine} {x : Pte}
  {found user : Bool}

/-- `Inv` is kept by every event, and `E` accepts every stop except the panic of
    `kfree` on a counter that is `0`, which it accepts where `Inv` allows it. -/
structure Closed (c : Config) (who : Nat → Prop) (gone : Nat → Nat → Prop) (Inv : Flight → Prop)
    (E : Stop → Machine → Prop) : Prop where
  step : ∀ {F F' : Flight}, Event c who gone F F' → Inv F → Inv F'
  stop : ∀ {e : Stop} {m : Machine}, NotRefZero e → E e m
  counted : ∀ {m : Machine} {f : Nat} {fl : List Nat}, Inv ⟨m, f :: fl⟩ →
    m.referenceCounters f = 0 → ∀ m', E (.panic kfreeRefIsZero) m'

/-- The state in which process `p` runs memory code on its own directory. -/
structure Own (c : Config) (p : Nat) (m : Machine) : Prop where
  global : m.globalPgdir = none
  tidy : m.Tidy c p

theorem Own.of_quiet (h : Own c p m) (hq : Quiet c p m m') :
    Own c p m' := ⟨hq.global.trans h.global, hq.tidy h.tidy⟩

/-- Directories and processes are all that matters. -/
theorem Own.of_eq (h : Own c p m) (hdirs : m'.dirs = m.dirs) (hproc : m'.proc = m.proc)
    (hglobal : m'.globalPgdir = m.globalPgdir) : Own c p m' := by
  refine ⟨hglobal.trans h.global, ?_⟩
  unfold Machine.Tidy
  rw [hdirs, hproc]
  exact h.tidy

theorem vpn_lt (h : a < kernbase) : vpn a < nuserPages := by
  simp only [vpn, pgsize, kernbase, nuserPages] at *
  omega

theorem alloc_range (oldsz : Nat) (h : newsz < kernbase) :
    pgroundup oldsz + (newsz - pgroundup oldsz + (pgsize - 1)) / pgsize * pgsize ≤ kernbase ∨
      (newsz - pgroundup oldsz + (pgsize - 1)) / pgsize = 0 := by
  simp only [pgroundup, pgsize, kernbase] at *
  omega

theorem pgrounddown_ne_noPage : pgrounddown va ≠ noPage := by
  simp only [pgrounddown, pgsize, noPage]
  omega

theorem pdx_pgrounddown : pdx (pgrounddown va) = pdx va := by
  simp only [pdx, pgrounddown, pgsize, nptentries]
  omega

theorem Machine.Tidy.setPte (h : m.Tidy c q) (hv : v < nuserPages) : (m.setPte d v x).Tidy c q := by
  refine Proc.Tidy.of_dir h ?_ ?_ ?_
  · intro hl
    exact (setPte_live _).trans hl
  · have hne : vpn noPage ≠ v := by simp only [vpn, noPage, pgsize, nuserPages] at *; omega
    by_cases he : (m.proc q).pgdir = d
    · rw [← he]
      simpa [update_of_ne hne] using SamePte.refl _
    · simpa [update_of_ne he] using SamePte.refl _
  · intro k hk
    rw [setPte_table]
    exact hk

theorem Own.setPte (h : Own c p m) (hv : v < nuserPages) :
    Own c p (m.setPte d v x) := ⟨h.global, h.tidy.setPte hv⟩

/-- The invariant and the state that process `p` needs for its memory code hold again. -/
abbrev After (Inv : Flight → Prop) (c : Config) (p : Nat) (fl : List Nat) {α : Type} :
    α → Machine → Prop :=
  fun _ m' => Inv ⟨m', fl⟩ ∧ Own c p m'

section Rules

variable {gone : Nat → Nat → Prop} {Inv : Flight → Prop} {E : Stop → Machine → Prop} {fl : List Nat} {va
  f : Nat}

/-! ## Quiet code -/

theorem IsQuiet.inv (hC : Closed c (· = p) gone Inv E) {α : Type} {x : K α} (hx : IsQuiet c p x)
    (h : Inv ⟨m, fl⟩) (ho : Own c p m) :
    wp x (fun _ m' => Quiet c p m m' ∧ Inv ⟨m', fl⟩ ∧ Own c p m') E m := by
  refine wp_mono (hx m) ?_ (fun _ _ he => hC.stop he)
  intro _ m' hq
  exact ⟨hq, hC.step (.neutral hq.toNeutral) h, ho.of_quiet hq⟩

/-- A quiet step that is not code of its own. -/
theorem Quiet.inv (hC : Closed c (· = p) gone Inv E) (hq : Quiet c p m m') (h : Inv ⟨m, fl⟩) :
    Inv ⟨m', fl⟩ := hC.step (.neutral hq.toNeutral) h

/-! ## Walking and mapping -/

/-- At most a page table has been added: PTEs that existed are still there. -/
structure Widened (m m' : Machine) : Prop where
  proc : m'.proc = m.proc
  global : m'.globalPgdir = m.globalPgdir
  live : ∀ e, (m'.dirs e).live = (m.dirs e).live
  table : ∀ e k, (m.dirs e).table k ≠ none → (m'.dirs e).table k ≠ none
  pte : ∀ e w, (m.dirs e).table (w / nptentries) ≠ none ∨ nuserPages ≤ w →
    (m'.dirs e).pte w = (m.dirs e).pte w
  /-- A PTE of a new table is cleared. -/
  fresh : ∀ e w, (m'.dirs e).pte w = (m.dirs e).pte w ∨ (m'.dirs e).pte w = Pte.zero

theorem Widened.refl (m : Machine) : Widened m m :=
  ⟨rfl, rfl, fun _ => rfl, fun _ _ h => h, fun _ _ _ => rfl, fun _ _ => .inl rfl⟩

theorem Widened.addTable {rest : List Nat} (hnone : (m.dirs d).table k = none)
    (hk : k * nptentries < nuserPages) : Widened m ((m.takeFrame f rest).addTable d k f) := by
  refine ⟨rfl, rfl, ?_, ?_, ?_, ?_⟩
  · intro e
    by_cases he : e = d
    · subst he
      simp [Machine.addTable]
    · simp [Machine.addTable, update_of_ne he]
  · intro e j hj
    by_cases he : e = d
    · subst he
      by_cases hjk : j = k
      · subst hjk
        simp [Machine.addTable]
      · simpa [Machine.addTable, update_of_ne hjk] using hj
    · simpa [Machine.addTable, update_of_ne he] using hj
  · intro e w hw
    by_cases he : e = d
    · subst he
      have hwk : w / nptentries ≠ k := by
        rintro rfl
        rcases hw with hw | hw
        · exact hw hnone
        · have := Nat.div_mul_le_self w nptentries
          simp only [nptentries, nuserPages] at *
          omega
      simp [Machine.addTable, hwk]
    · simp [Machine.addTable, update_of_ne he]
  · intro e w
    by_cases he : e = d
    · subst he
      by_cases hwk : w / nptentries = k
      · right
        simp [Machine.addTable, hwk]
      · left
        simp [Machine.addTable, hwk]
    · left
      simp [Machine.addTable, update_of_ne he]

theorem Widened.tidy (hw : Widened m m') (h : m.Tidy c q) : m'.Tidy c q := by
  unfold Machine.Tidy
  rw [hw.proc]
  refine Proc.Tidy.of_dir h ?_ ?_ ?_
  · intro hl
    rwa [hw.live]
  · rw [hw.pte _ _ (.inr (by decide))]
    exact .refl _
  · exact hw.table _

theorem Own.widened (h : Own c p m) (hw : Widened m m') : Own c p m' :=
  ⟨hw.global.trans h.global, hw.tidy h.tidy⟩

theorem pdx_mul_lt (h : va < kernbase) : pdx va * nptentries < nuserPages := by
  simp only [pdx, pgsize, nptentries, kernbase, nuserPages] at *
  omega

variable {who : Nat → Prop}

/-- A walk that may allocate a page table. -/
theorem walkpgdir_inv (hC : Closed c who gone Inv E) (h : Inv ⟨m, fl⟩) (hva : va < kernbase) :
    wp (walkpgdir d va true) (fun r m' => Inv ⟨m', fl⟩ ∧ Widened m m' ∧ ∀ v, r = some v →
      v = vpn va ∧ (m'.dirs d).live = true ∧ (m'.dirs d).table (pdx va) ≠ none) E m := by
  by_cases hl : (m.dirs d).live = true
  · by_cases ht : (m.dirs d).table (pdx va) = none
    · simp only [walkpgdir, wp_bind, wp_get, wp_ite, hl, ht, if_true, forall_const,
        not_true_eq_false, false_implies, and_true, wp_kalloc]
      refine ⟨fun _ => ⟨h, .refl m, by rintro _ ⟨⟩⟩, fun f rest hf => ?_⟩
      simp only [wp_modify, wp_pure]
      refine ⟨hC.step (.table hf hl ht (pdx_mul_lt hva)) h, .addTable ht (pdx_mul_lt hva), ?_⟩
      rintro v ⟨⟩
      refine ⟨rfl, ?_, ?_⟩
      · simpa [Machine.addTable] using hl
      · simp [Machine.addTable]
    · rw [wp_walkpgdir_mapped _ hl ht]
      exact ⟨h, .refl m, fun v hv => ⟨(Option.some.inj hv).symm, hl, ht⟩⟩
  · simp only [walkpgdir, wp_bind, wp_get, wp_ite, hl, wp_throw]
    simpa using hC.stop (by decide)

theorem mappages_inv (hC : Closed c who gone Inv E) {perm : Pte} (h : Inv ⟨m, f :: fl⟩)
    (hva : va < kernbase) :
    wp (mappages d va f perm) (fun r m' =>
      ∃ m1, Widened m m1 ∧ if r = true then m' = m1.setPte d (vpn va) (perm.mapTo f) ∧ Inv ⟨m', fl⟩
        else m' = m1 ∧ Inv ⟨m', f :: fl⟩) E m := by
  rw [mappages, wp_bind]
  refine wp_post (walkpgdir_inv hC h hva) ?_
  intro r m1 hw
  obtain ⟨h1, hw, hr⟩ := hw
  cases r with
  | none => exact ⟨m1, hw, rfl, h1⟩
  | some v =>
    obtain ⟨rfl, hl, ht⟩ := hr v rfl
    simp only [wp_bind, wp_getPte, wp_ite, wp_throw, wp_setPte, wp_pure]
    refine ⟨fun _ => hC.stop (by decide), fun hnp => ⟨m1, hw, rfl, ?_⟩⟩
    exact hC.step (.map (x := perm.mapTo f) (vpn_lt hva) hl ht (by simpa using hnp) rfl) h1

theorem kfree_inv (hC : Closed c who gone Inv E) (h : Inv ⟨m, f :: fl⟩) :
    wp (kfree c f) (fun _ m' => m' = m.dropRef f ∧ Inv ⟨m', fl⟩) E m := by
  rw [wp_kfree]
  refine ⟨fun _ => ⟨fun hz => hC.counted h hz.2 m, fun _ => ⟨rfl, hC.step .drop h⟩⟩, fun _ => ?_⟩
  exact hC.stop (by decide)

/-! ## Eviction -/

/-- The bookkeeping of `movePageToFile` for entry `i`, whose page has a page table. -/
theorem markDisk_wp (i offset : Nat) (pr : Proc) :
    wp (do
      setPage i fun page => { page with offsetInFile := pgsize * offset }
      setOffset offset true
      setPage i fun page => { page with state := .inDisk }
      modify fun pr => { pr with numPagesDisk := pr.numPagesDisk + 1 } : P Unit)
      (fun _ pr' => i < maxTotalPages ∧ pr'.pgdir = pr.pgdir ∧ pr'.used = pr.used ∧
        (∀ j, (pr'.pagesMetaData j).page.pageId = (pr.pagesMetaData j).page.pageId) ∧
        ∀ dir, pr.Tidy c dir → (pr.pagesMetaData i).page.pageId < kernbase →
          dir.table (pdx (pr.pagesMetaData i).page.pageId) ≠ none → pr'.Tidy c dir)
      (fun e _ => e.NoPanic) pr := by
  by_cases hi : i < maxTotalPages
  · simp only [wp_bind, wp_setPage_lt hi, setOffset, wp_ite, wp_modify, wp_throw]
    refine ⟨fun _ => ⟨hi, rfl, rfl, ?_, ?_⟩, fun _ => trivial⟩
    · intro j
      by_cases hji : j = i
      · subst hji
        simp [Proc.setPage, Proc.setLink]
      · simp [Proc.setPage, Proc.setLink, update_of_ne hji]
    · intro dir hd hid ht
      refine ⟨hd.live, hd.top, ?_, ?_, hd.sz_le⟩
      · intro j hj
        by_cases hji : j = i
        · subst hji
          simpa [Proc.setPage, Proc.setLink] using hd.ids j hj
        · simpa [Proc.setPage, Proc.setLink, update_of_ne hji] using hd.ids j hj
      · intro j hj
        by_cases hji : j = i
        · subst hji
          simpa [Proc.setPage, Proc.setLink] using ⟨hid, ht⟩
        · simpa [Proc.setPage, Proc.setLink, update_of_ne hji] using hd.disk j hj
  · simp only [wp_bind, wp_setPage]
    exact ⟨fun h => absurd h hi, fun _ => trivial⟩

/-- What `movePageToFile` has done when it reports success: the page is written,
    its entry is in state `IN_DISK`. The PTE is still as it was. -/
structure Written (c : Config) (p i : Nat) (m m' : Machine) : Prop extends
    Neutral (· = p) m m' where
  lt : i < maxTotalPages
  global : m'.globalPgdir = m.globalPgdir
  id : ∀ j, ((m'.proc p).pagesMetaData j).page.pageId = ((m.proc p).pagesMetaData j).page.pageId
  dirLive : (m.dirs (m.proc p).pgdir).live = true
  hasTable : (m.dirs (m.proc p).pgdir).table (pdx ((m.proc p).pagesMetaData i).page.pageId) ≠ none
  present : ((m.dirs (m.proc p).pgdir).pte (vpn ((m.proc p).pagesMetaData i).page.pageId)).p = true
  tidy : ((m.proc p).pagesMetaData i).page.pageId < kernbase → m'.Tidy c p

theorem wp_onProc_getLink (Q : PageLink → Machine → Prop) :
    wp (onProc p (getLink i)) Q E m ↔
      (i < maxTotalPages → Q ((m.proc p).pagesMetaData i) m) ∧ (¬ i < maxTotalPages → E .wild m) := by
  simp

/-- The page is written, and only its entry and the offsets change. -/
theorem movePageToFile_written (ho : Own c p m) :
    wp (movePageToFile p i) (fun r m' => if r = true then Written c p i m m' else Filed m m')
      (fun e _ => NotRefZero e) m := by
  simp only [movePageToFile, wp_bind, wp_curDir, ho.global, Option.getD_none, wp_onProc_getLink]
  refine ⟨fun hi => ?_, fun _ => by decide⟩
  rw [wp_walkpgdir]
  refine ⟨fun hl => ⟨fun _ => ?_, fun ht => ?_⟩, fun _ => by decide⟩
  · show NotRefZero (.panic "movePageToFile: page doesn't exist\n")
    decide
  simp only [wp_bind, wp_getPte, wp_ite, wp_throw]
  refine ⟨fun hp => ?_, fun _ => by decide⟩
  rw [wp_getProc]
  cases (m.proc p).nextAvOffset with
  | none =>
    show NotRefZero (.panic "movePageToFile: swapFile is full!")
    decide
  | some offset =>
    simp only [userPage, wp_bind, wp_get, wp_pure]
    refine wp_post (filed_writeToSwapFile _ _ _ _ m) ?_
    intro ok m1 hf
    have hq : Quiet c p m m1 := hf.quiet
    simp only [wp_ite, wp_pure]
    refine ⟨fun _ => ?_, fun _ => hf⟩
    rw [wp_bind, wp_onProc, hf.proc]
    refine wp_mono (markDisk_wp (c := c) i offset (m.proc p)) ?_ (fun _ _ he => he.notRefZero)
    intro _ pr' hpr
    obtain ⟨_, hpgdir, hused, hid, htidy⟩ := hpr
    have hdir : ∀ pr : Proc, (m1.setProc p pr).dirs = m.dirs := fun _ => hf.dirs
    refine ⟨?_, hi, hq.global, ?_, hl, ht, hp, ?_⟩
    · exact hq.toNeutral.trans (.setProc (hpgdir.trans (hq.pgdir p).symm) (hused.trans (hq.used p).symm))
    · simpa using hid
    · intro hlt
      show ((m1.setProc p pr').proc p).Tidy c ((m1.setProc p pr').dirs ((m1.setProc p pr').proc p).pgdir)
      rw [Machine.setProc_proc, update_self, hdir, hpgdir]
      exact htidy _ ho.tidy hlt ht

theorem Written.setProc {m1 : Machine} {pr' : Proc} (h : Written c p i m m1)
    (hs : MetaStep c (m1.proc p) pr')
    (hid : ∀ j, (pr'.pagesMetaData j).page.pageId = ((m1.proc p).pagesMetaData j).page.pageId) :
    Written c p i m (m1.setProc p pr') where
  toNeutral := h.toNeutral.trans (.setProc hs.pgdir hs.used)
  lt := h.lt
  global := h.global
  id := fun j => by simpa using (hid j).trans (h.id j)
  dirLive := h.dirLive
  hasTable := h.hasTable
  present := h.present
  tidy := fun hlt => (Quiet.setProc hs).tidy (h.tidy hlt)

theorem wp_setFlagsOnSwap_mapped {swapIn : Bool} (Q : Unit → Machine → Prop)
    (hl : (m.dirs d).live = true) (ht : (m.dirs d).table (pdx va) ≠ none) :
    wp (setFlagsOnSwap d va swapIn) Q E m ↔ Q () (m.setPte d (vpn va)
      (if swapIn = true then ((m.dirs d).pte (vpn va)).pagedIn
       else ((m.dirs d).pte (vpn va)).pagedOut)) := by
  cases swapIn with
  | false => simp [setFlagsOnSwap, wp_walkpgdir_mapped _ hl ht]
  | true => simp [setFlagsOnSwap, wp_walkpgdir_mapped _ hl ht]

/-- The frame of a page whose PTE has been replaced is freed. -/
theorem kfree_unmapped (hC : Closed c who gone Inv E) (h : Inv ⟨m, fl⟩) (hv : v < nuserPages)
    (hmaps : (m.dirs d).maps v = true) (hgone : gone d v) (hx : x.p = false) :
    wp (kfree c ((m.dirs d).pte v).frame) (fun _ m' =>
      m' = (m.setPte d v x).dropRef ((m.dirs d).pte v).frame ∧ Inv ⟨m', fl⟩) E (m.setPte d v x) :=
  kfree_inv hC (hC.step (.unmap hv hmaps hgone hx) h)

/-- The entries of `p` name the pages they named, and no page table has come or gone. -/
structure SameIds (p : Nat) (m m' : Machine) : Prop where
  pgdir : (m'.proc p).pgdir = (m.proc p).pgdir
  table : ∀ e, (m'.dirs e).table = (m.dirs e).table
  id : ∀ j, ((m'.proc p).pagesMetaData j).page.pageId = ((m.proc p).pagesMetaData j).page.pageId

/-- The bookkeeping of `getPageFromFile` for entry `i`. -/
theorem quiet_markLoaded (i off : Nat) : IsQuiet c p (onProc p do
    setOffset (off / pgsize) false
    modify fun pr => { pr with
      numPagesRam := pr.numPagesRam + 1, numPagesDisk := pr.numPagesDisk - 1 }
    setPage i fun page => { page with offsetInFile := noOffset, state := .inMemory }
    addPageToList i) := by
  have hR := MetaStep.procLogic c
  refine quiet_code.onProc (keeps_bind (hR.setOffset _ _) fun _ => ?_)
  refine keeps_bind (keeps_modify fun _ => MetaStep.of_eq rfl rfl rfl rfl) fun _ => ?_
  refine keeps_bind (keeps_setPage fun pr => ?_) fun _ => hR.keeps_addPageToList i
  exact .setPage pr i (fun _ => .inr (.inr rfl)) (fun _ hd => nomatch hd)

/-- The frame of a page is freed, then its PTE is cleared. -/
theorem kfree_then_clear (hC : Closed c who gone Inv E) (h : Inv ⟨m, fl⟩) (hv : v < nuserPages)
    (hmaps : (m.dirs d).maps v = true) (hgone : gone d v) :
    wp (kfree c ((m.dirs d).pte v).frame) (fun _ m' =>
      m' = m.dropRef ((m.dirs d).pte v).frame ∧ Inv ⟨m'.setPte d v Pte.zero, fl⟩) E m := by
  have h1 := hC.step (.unmap (x := Pte.zero) hv hmaps hgone rfl) h
  rw [wp_kfree]
  refine ⟨fun _ => ⟨fun hz => hC.counted h1 hz.2 m, fun _ => ⟨rfl, ?_⟩⟩, fun _ => hC.stop (by decide)⟩
  exact hC.step .drop h1

/-! ## The choice of a victim -/

/-- What the choice of a victim reads is as it was. -/
structure SameLinks (p : Nat) (m m' : Machine) : Prop where
  dirs : m'.dirs = m.dirs
  global : m'.globalPgdir = m.globalPgdir
  pgdir : (m'.proc p).pgdir = (m.proc p).pgdir
  links : (m'.proc p).pagesMetaData = (m.proc p).pagesMetaData
  head : (m'.proc p).pageListHeadRam = (m.proc p).pageListHeadRam

instance : Std.Refl (SameLinks p) := ⟨fun _ => ⟨rfl, rfl, rfl, rfl, rfl⟩⟩

instance : IsTrans Machine (SameLinks p) :=
  ⟨fun _ _ _ h h' => ⟨h'.dirs.trans h.dirs, h'.global.trans h.global, h'.pgdir.trans h.pgdir,
    h'.links.trans h.links, h'.head.trans h.head⟩⟩

/-- The victim that process `p` chooses now may go. -/
def Spares (c : Config) (p : Nat) (gone : Nat → Nat → Prop) (m : Machine) : Prop :=
  ∀ m', SameLinks p m m' → wp (choosePageToSwap c p) (fun r m'' => ∀ i, r = some i →
    gone (m''.proc p).pgdir (vpn ((m''.proc p).pagesMetaData i).page.pageId)) anyStop m'

theorem Spares.of_all (h : ∀ d v, gone d v) : Spares c p gone m :=
  fun m' _ => wp_mono ((quiet_code (c := c)).choosePageToSwap m') (fun _ _ _ _ _ => h _ _)
    (fun _ _ _ => trivial)

theorem Spares.of_same (h : Spares c p gone m) (hs : SameLinks p m m') :
    Spares c p gone m' := fun _ hs' => h _ (IsTrans.trans _ _ _ hs hs')

theorem Filed.sameLinks (h : Filed m m') : SameLinks p m m' :=
  ⟨h.dirs, h.global, by rw [h.proc], by rw [h.proc], by rw [h.proc]⟩

theorem ensureSwapFile_sameLinks : Keeps (SameLinks p) NotRefZero (ensureSwapFile p) := by
  have hfiled : ∀ {α : Type} {x : K α}, IsFiled x → Keeps (SameLinks p) NotRefZero x :=
    fun h m => wp_post (h m) fun _ _ hf => hf.sameLinks
  refine keeps_bind (hfiled (filed_getProc p)) fun pr => keeps_ite _ ?_ (keeps_pure _)
  refine keeps_bind (hfiled filed_beginOp) fun _ => keeps_bind (hfiled filed_filealloc) fun r => ?_
  cases r with
  | none => exact keeps_throw (by decide)
  | some fd =>
    refine keeps_bind (keeps_modify fun m => ?_) fun _ => hfiled filed_endOp
    exact ⟨rfl, rfl, by simp [Proc.setSwapFile], by simp [Proc.setSwapFile], by simp [Proc.setSwapFile]⟩

/-! ## Write faults on shared pages -/

/-- A write fault on a shared page can be served: it is a user page, and there is
    a frame for the copy. -/
def CopyOk (m : Machine) (p va : Nat) : Prop :=
  ((m.dirs (m.proc p).pgdir).pte (vpn va)).p = true →
    1 < m.referenceCounters ((m.dirs (m.proc p).pgdir).pte (vpn va)).frame →
    va < kernbase ∧ m.freelist ≠ []

instance (m : Machine) (p va : Nat) : Decidable (CopyOk m p va) :=
  inferInstanceAs (Decidable (_ → _ → _))

theorem CopyOk.of_quiet (h : CopyOk m p va) (hq : Quiet c p m m') : CopyOk m' p va := by
  intro hp href
  rw [hq.pgdir] at hp href
  have hsame := hq.pte (m.proc p).pgdir (vpn va)
  rw [hsame.1] at hp
  rw [hq.refs, (hsame.2 hp).1] at href
  rw [hq.freelist]
  exact h hp href

theorem Pte.own_same (pte : Pte) : pte.own.p = pte.p ∧ pte.own.frame = pte.frame ∧ pte.own.u = pte.u := by
  unfold Pte.own
  split
  · exact ⟨rfl, rfl, rfl⟩
  · exact ⟨rfl, rfl, rfl⟩

/-! ## The functions, run by process `p` -/

variable (hC : Closed c (· = p) gone Inv E) (h : Inv ⟨m, fl⟩) (ho : Own c p m)
include hC h ho

/-- Eviction, whatever entry is chosen. An unused entry names a page in device
    space, whose frame `kfree` does not take. -/
theorem moveToDisk_inv
    (hgone : gone (m.proc p).pgdir (vpn ((m.proc p).pagesMetaData i).page.pageId)) :
    wp (moveToDisk c p i) (fun _ m' => Inv ⟨m', fl⟩ ∧ Own c p m' ∧ SameIds p m m') E m := by
  simp only [moveToDisk, wp_bind, wp_curDir, ho.global, Option.getD_none]
  refine wp_mono (movePageToFile_written (i := i) ho) ?_ (fun _ _ he => hC.stop he)
  intro ok m1 hm1
  cases ok with
  | false =>
    have hf : Filed m m1 := hm1
    refine ⟨hf.quiet.inv hC h, ho.of_quiet hf.quiet, ?_⟩
    exact ⟨by rw [hf.proc], fun _ => by rw [hf.dirs], fun _ => by rw [hf.proc]⟩
  | true =>
    have hw1 : Written c p i m m1 := hm1
    simp only [if_true, wp_bind, wp_modifyProc, wp_onProc]
    refine wp_mono (keeps_removePageFromList i _) ?_ (fun _ _ he => hC.stop he.notRefZero)
    intro _ pr' hs
    -- `m2` has the entry out of the list; its PTE is still present.
    generalize hm2 : ((m1.setProc p (Proc.countOut (m1.proc p))).setProc p pr') = m2
    have hw : Written c p i m m2 := by
      rw [← hm2]
      have hcount : Written c p i m (m1.setProc p (m1.proc p).countOut) :=
        hw1.setProc (.of_eq rfl rfl rfl rfl) fun _ => rfl
      refine hcount.setProc hs.metaStep ?_
      intro j
      rw [hs.page j]
    have hl : (m2.dirs (m.proc p).pgdir).live = true := (hw.live _).trans hw.dirLive
    have ht : (m2.dirs (m.proc p).pgdir).table (pdx ((m.proc p).pagesMetaData i).page.pageId) ≠ none := by
      rw [hw.table]
      exact hw.hasTable
    rw [wp_getLink_lt hw.lt, Machine.setProc_self, hw.id, wp_setFlagsOnSwap_mapped _ hl ht]
    simp only [wp_getPte, Machine.setPte_dirs, update_self, Bool.false_eq_true, if_false,
      wp_pure]
    show wp (kfree c ((m2.dirs (m.proc p).pgdir).pte _).frame) _ E _
    rcases ho.tidy.ids i hw.lt with hid | hid
    · have htop : ¬ managed c ((m2.dirs (m.proc p).pgdir).pte (vpn noPage)).frame := by
        have hsame := hw.pte (m.proc p).pgdir (vpn noPage)
        have hp := hw.present
        rw [hid] at hp
        rw [(hsame.2 hp).1]
        exact ho.tidy.top hp
      rw [hid, wp_kfree]
      exact ⟨fun hm => absurd hm htop, fun _ => hC.stop (by decide)⟩
    · have hmaps : (m2.dirs (m.proc p).pgdir).maps (vpn ((m.proc p).pagesMetaData i).page.pageId) = true :=
        PageDir.maps_iff.mpr ⟨hl, ht, (hw.pte _ _).1.trans hw.present⟩
      have h2 : Inv ⟨m2, fl⟩ := hC.step (.neutral hw.toNeutral) h
      refine wp_post (kfree_unmapped hC h2 (vpn_lt hid) hmaps hgone rfl) ?_
      rintro _ m4 ⟨hm4, h4⟩
      have ho2 : Own c p m2 := ⟨hw.global.trans ho.global, hw.tidy hid⟩
      have ho4 : Own c p m4 := by
        rw [hm4]
        exact (ho2.setPte (vpn_lt hid)).of_eq rfl rfl rfl
      have hq : Quiet c p m4 (m4.setProc p (m4.proc p).lessRam) :=
        .setProc (.of_eq rfl rfl rfl rfl)
      refine ⟨hq.inv hC h4, ho4.of_quiet hq, ?_, ?_, ?_⟩
      · rw [hq.pgdir, hm4]
        exact hw.pgdir p
      · intro e
        rw [hq.table, hm4]
        exact (setPte_table e).trans (hw.table e)
      · intro j
        rw [hm4]
        simpa [Proc.lessRam] using hw.id j

/-! ### Reloading -/

/-- A page with a page table is brought in: `mappages` does not fail, and the
    new frame ends up in the PTE. -/
theorem getPageFromFile_inv
    (hid : ((m.proc p).pagesMetaData i).page.pageId < kernbase)
    (ht : (m.dirs (m.proc p).pgdir).table (pdx ((m.proc p).pagesMetaData i).page.pageId) ≠ none) :
    wp (getPageFromFile p i) (After Inv c p fl) E m := by
  simp only [getPageFromFile, wp_bind, wp_onProc_getLink, wp_curDir, ho.global, Option.getD_none,
    wp_kalloc]
  refine ⟨fun hi => ⟨fun _ => hC.stop (by decide), fun f rest hf => ?_⟩, fun _ => hC.stop (by decide)⟩
  generalize hlk : (m.proc p).pagesMetaData i = lk at *
  generalize hd : (m.proc p).pgdir = d at *
  have hl : (m.dirs d).live = true := by rw [← hd]; exact ho.tidy.live
  have h1 : Inv ⟨m.takeFrame f rest, f :: fl⟩ := hC.step (.take hf) h
  rw [mappages, wp_bind, wp_walkpgdir_mapped (m := m.takeFrame f rest) _ hl ht]
  simp only [wp_bind, wp_getPte, wp_ite, wp_throw, wp_setPte, wp_pure]
  refine ⟨fun _ => hC.stop (by decide), fun hnp => ?_⟩
  have h2 : Inv ⟨(m.takeFrame f rest).setPte d (vpn lk.page.pageId) (Pte.wu.mapTo f), fl⟩ :=
    hC.step (.map (vpn_lt hid) hl ht (by simpa using hnp) rfl) h1
  have ho2 : Own c p ((m.takeFrame f rest).setPte d (vpn lk.page.pageId) (Pte.wu.mapTo f)) :=
    Own.setPte (m := m.takeFrame f rest) (ho.of_eq rfl rfl rfl) (vpn_lt hid)
  refine wp_mono (filed_readFromSwapFile _ _ _ _) ?_ (fun _ _ he => hC.stop he)
  intro r m3 hf3
  have h3 := hf3.quiet.inv hC h2
  have ho3 := ho2.of_quiet hf3.quiet
  cases r with
  | none => exact ⟨h3, ho3⟩
  | some n =>
    have hdirs : m3.dirs = _ := hf3.dirs
    have hl3 : (m3.dirs d).live = true := by rw [hdirs]; simpa using hl
    have ht3 : (m3.dirs d).table (pdx lk.page.pageId) ≠ none := by rw [hdirs]; simpa using ht
    have hp3 : ((m3.dirs d).pte (vpn lk.page.pageId)).p = true := by rw [hdirs]; simp
    simp only [wp_bind, wp_modify]
    rw [wp_setFlagsOnSwap_mapped (m := m3.setMem f _) _ hl3 ht3, if_pos rfl]
    -- The PTE is present already: the flags that are set here were set by `mappages`.
    have hq4 : Quiet c p m3 ((m3.setMem f _).setPte d (vpn lk.page.pageId) _) :=
      IsTrans.trans _ (m3.setMem f ((m3.mem f).overwrite (m3.swap p) lk.page.offsetInFile n)) _
        (Filed.quiet ⟨rfl, rfl, rfl, rfl, rfl, rfl⟩)
        (Quiet.setPte (x := ((m3.dirs d).pte (vpn lk.page.pageId)).pagedIn)
          ⟨hp3.symm, fun _ => ⟨rfl, rfl⟩⟩)
    refine wp_post ((quiet_markLoaded i lk.page.offsetInFile).inv hC (hq4.inv hC h3)
      (ho3.of_quiet hq4)) ?_
    intro _ m5 h5
    exact ⟨h5.2.1, h5.2.2⟩

/-- Forgetting a page in RAM; a page from the swap file may take its place. -/
theorem deletePage_inv : wp (deletePage p i) (After Inv c p fl) E m := by
  have hforget : IsQuiet c p (onProc p do
      modify Proc.lessRam
      setPage i fun page => { page with
        pageId := noPage, state := .notUsed, offsetInFile := noOffset }) := by
    refine quiet_code.onProc (keeps_bind (keeps_modify fun _ => MetaStep.of_eq rfl rfl rfl rfl) fun _ => ?_)
    exact keeps_setPage fun pr => .setPage pr i (fun _ => .inl rfl) (fun _ hd => nomatch hd)
  rw [deletePage, wp_bind]
  refine wp_post (hforget.inv hC h ho) ?_
  rintro _ m1 ⟨-, h1, ho1⟩
  simp only [wp_bind, wp_getProc, wp_ite, wp_pure]
  refine ⟨fun _ => ?_, fun _ => ⟨h1, ho1⟩⟩
  cases hj : (m1.proc p).findState .inDisk with
  | none => exact ⟨h1, ho1⟩
  | some j =>
    have hmem := List.mem_range.mp (List.mem_of_find?_eq_some hj)
    have hdisk := List.find?_some hj
    obtain ⟨hid, ht⟩ := ho1.tidy.disk j hmem (by simpa using hdisk)
    rw [wp_bind]
    exact getPageFromFile_inv hC h1 ho1 hid ht

/-! ### Shrinking -/

theorem deallocPresent_inv (hv : v < nuserPages) (hmaps : (m.dirs d).maps v = true)
    (hgone : gone d v) :
    wp (deallocPresent c p d a v found) (After Inv c p fl) E m := by
  simp only [deallocPresent, wp_bind, wp_getPte, wp_ite, wp_throw]
  refine ⟨fun _ => hC.stop (by decide), fun _ => ?_⟩
  refine wp_post (kfree_then_clear hC h hv hmaps hgone) ?_
  rintro _ m1 ⟨rfl, h1⟩
  rw [wp_setPte, wp_getProc]
  have ho1 : Own c p ((m.dropRef ((m.dirs d).pte v).frame).setPte d v Pte.zero) :=
    Own.setPte (m := m.dropRef _) (ho.of_eq rfl rfl rfl) hv
  refine ⟨fun _ => ?_, fun _ => ⟨h1, ho1⟩⟩
  have hdelete : ∀ i, wp (do deletePage p i; pure true) (After Inv c p fl) E
      ((m.dropRef ((m.dirs d).pte v).frame).setPte d v Pte.zero) := by
    intro i
    rw [wp_bind]
    exact deletePage_inv hC h1 ho1
  split
  · exact hdelete _
  · rw [wp_ite]
    exact ⟨fun _ => hdelete _, fun _ => ⟨h1, ho1⟩⟩

theorem deallocPaged_inv (hnp : ((m.dirs d).pte v).p = false) :
    wp (deallocPaged p d a v found) (After Inv c p fl) E m := by
  have hclear : ∀ m', Quiet c p m m' → Quiet c p m (m'.setPte d v Pte.zero) := by
    intro m' hq
    have hnp' : ((m'.dirs d).pte v).p = false := (hq.pte d v).1.trans hnp
    refine IsTrans.trans _ m' _ hq (.setPte ⟨hnp'.symm, fun hp => ?_⟩)
    rw [hnp'] at hp
    exact absurd hp (by decide)
  simp only [deallocPaged, wp_bind, wp_getProc]
  split
  · rw [wp_bind]
    have hdrop : ∀ i, Keeps (MetaStep c) Stop.NoPanic (dropDiskPage i) := fun i =>
      (MetaStep.procLogic c).dropDiskPage fun pr =>
        .setPage pr i (fun _ => .inl rfl) (by rintro _ ⟨⟩)
    refine wp_mono (quiet_code.onProc (hdrop _) m) ?_ (fun _ _ he => hC.stop he)
    intro _ m1 hq
    have hq' := hclear m1 hq
    exact ⟨hq'.inv hC h, ho.of_quiet hq'⟩
  · have hq' := hclear m (Std.Refl.refl m)
    simp only [wp_ite, wp_throw, wp_bind, wp_setPte, wp_pure]
    exact ⟨fun _ => hC.stop (by decide), fun _ => ⟨hq'.inv hC h, ho.of_quiet hq'⟩⟩

theorem deallocuvm_inv (hold : oldsz ≤ kernbase)
    (hgone : ∀ v, vpn (pgroundup newsz) ≤ v → gone d v) :
    wp (deallocuvm c p d oldsz newsz) (After Inv c p fl) E m := by
  have hle : vpn (pgroundup newsz) ≤ npages newsz := by
    simp only [vpn, pgroundup, npages, pgsize]
    omega
  -- What the rest of the loop may take starts at page `v`.
  refine wp_post (wp_deallocuvm_pages (I := fun v m => npages newsz ≤ v ∧ Inv ⟨m, fl⟩ ∧ Own c p m)
    hold rfl (fun _ => ⟨hC.stop (by decide), hC.stop (by decide)⟩) ?_ ?_ ?_ ?_ ⟨le_rfl, h, ho⟩) ?_
  · rintro v m - - ⟨hv, h⟩ -
    exact ⟨by simp only [nptentries]; omega, h⟩
  · rintro v m found - hmax ⟨hv, h, ho⟩ hl ht hp
    have hmaps : (m.dirs d).maps v = true := PageDir.maps_iff.mpr ⟨hl, ht, hp⟩
    refine wp_post (deallocPresent_inv hC h ho hmax hmaps (hgone v (hle.trans hv))) ?_
    exact fun _ m1 h1 => ⟨by omega, h1⟩
  · rintro v m found - - ⟨hv, h, ho⟩ - hp -
    exact wp_post (deallocPaged_inv hC h ho hp) fun _ m1 h1 => ⟨by omega, h1⟩
  · rintro v m - - ⟨hv, h⟩ - -
    exact ⟨by omega, h⟩
  · rintro _ m' ⟨-, w, -, -, h'⟩
    exact h'

/-! ### Growing -/

theorem evict_inv {β : Type} {k : Option Nat → K β} {Q : β → Machine → Prop} (hv : Spares c p gone m)
    (hk : ∀ r m', Inv ⟨m', fl⟩ → Own c p m' → Quiet c p m m' →
      (∀ i, r = some i → gone (m'.proc p).pgdir (vpn ((m'.proc p).pagesMetaData i).page.pageId)) →
      wp (k r) Q E m') : wp (choosePageToSwap c p >>= k) Q E m := by
  rw [wp_bind]
  refine wp_post (wp_and (quiet_code.choosePageToSwap.inv hC h ho) (hv m (Std.Refl.refl m))) ?_
  rintro r m' ⟨⟨hq, h', ho'⟩, hr⟩
  exact hk r m' h' ho' hq hr

theorem makeRoom_inv (hv : Spares c p gone m) :
    wp (makeRoom c p) (After Inv c p fl) E m := by
  simp only [makeRoom, wp_ite, wp_bind, wp_getProc, wp_pure]
  refine ⟨fun _ => ⟨fun _ => ⟨fun _ => ⟨h, ho⟩, fun _ => ?_⟩, fun _ => ⟨h, ho⟩⟩, fun _ => ⟨h, ho⟩⟩
  refine wp_post (wp_and (quiet_code.ensureSwapFile.inv hC h ho) (ensureSwapFile_sameLinks m)) ?_
  rintro _ m1 ⟨⟨-, h1, ho1⟩, hs⟩
  rw [← wp_bind]
  refine evict_inv hC h1 ho1 (hv.of_same hs) ?_
  intro r m2 h2 ho2 _ hr
  cases r with
  | none => exact hC.stop (by decide)
  | some i => exact wp_post (moveToDisk_inv hC h2 ho2 (hr i rfl)) fun _ _ h3 => ⟨h3.1, h3.2.1⟩

/-- A page is added, after a victim has left if need be. -/
theorem allocPage_inv (hnew : newsz ≤ kernbase) (ha : a < kernbase) (hv : Spares c p gone m)
    (hgone : ∀ v, vpn (pgroundup oldsz) ≤ v → gone d v) :
    wp (allocPage c p d oldsz newsz a) (After Inv c p fl) E m := by
  rw [allocPage, wp_bind]
  refine wp_post (makeRoom_inv hC h ho hv) ?_
  rintro room m1 ⟨h1, ho1⟩
  simp only [wp_ite, wp_bind, wp_kalloc, wp_pure]
  refine ⟨fun _ => ⟨fun _ => ?_, fun f rest hf => ?_⟩, fun _ => ⟨h1, ho1⟩⟩
  · exact deallocuvm_inv hC h1 ho1 hnew hgone
  have h2 : Inv ⟨m1.takeFrame f rest, f :: fl⟩ := hC.step (.take hf) h1
  have hq3 : Quiet c p (m1.takeFrame f rest) ((m1.takeFrame f rest).setMem f Page.zero) :=
    Filed.quiet ⟨rfl, rfl, rfl, rfl, rfl, rfl⟩
  have ho3 : Own c p ((m1.takeFrame f rest).setMem f Page.zero) := ho1.of_eq rfl rfl rfl
  rw [wp_modify]
  refine wp_post (mappages_inv hC (hq3.inv hC h2) ha) ?_
  intro ok m4 hmap
  obtain ⟨m', hw, hm4⟩ := hmap
  refine ⟨?_, ?_⟩
  · rintro rfl
    obtain ⟨hset, h4⟩ : m4 = m'.setPte d (vpn a) (Pte.wu.mapTo f) ∧ Inv ⟨m4, fl⟩ := hm4
    have ho4 : Own c p m4 := by
      rw [hset]
      exact (ho3.widened hw).setPte (vpn_lt ha)
    refine ⟨fun _ => ?_, fun _ => ⟨h4, ho4⟩⟩
    have hpage : pteAddr a < kernbase := (Nat.div_mul_le_self a pgsize).trans_lt ha
    have hadd := (MetaStep.procLogic c).addPageToRam (c := c) fun pr i _ =>
      .setPage pr i (fun _ => .inr (.inl hpage)) (by rintro _ ⟨⟩)
    refine wp_post ((quiet_code.onProc hadd).inv hC h4 ho4) ?_
    intro _ m5 h5
    exact h5.2
  · intro hne
    obtain ⟨rfl, h4⟩ : m4 = m' ∧ Inv ⟨m4, f :: fl⟩ := by rwa [if_neg hne] at hm4
    refine wp_post (deallocuvm_inv hC h4 (ho3.widened hw) hnew hgone) ?_
    rintro _ m5 ⟨h5, ho5⟩
    refine wp_post (kfree_inv hC h5) ?_
    rintro _ m6 ⟨rfl, h6⟩
    exact ⟨h6, ho5.of_eq rfl rfl rfl⟩

theorem allocLoop_inv (hall : ∀ d v, gone d v) (hnew : newsz ≤ kernbase)
    (ha : a + k * pgsize ≤ kernbase) :
    wp (allocLoop c p d oldsz newsz k a) (After Inv c p fl) E m := by
  induction k generalizing m a with
  | zero => exact ⟨h, ho⟩
  | succ k ih =>
    have ha' : a < kernbase := by simp only [pgsize, kernbase] at *; omega
    rw [allocLoop, wp_bind]
    refine wp_post (allocPage_inv hC h ho hnew ha' (.of_all hall) fun _ _ => hall _ _) ?_
    rintro ok m1 ⟨h1, ho1⟩
    rw [wp_ite]
    exact ⟨fun _ => ih h1 ho1 (by simp only [pgsize] at *; omega), fun _ => ⟨h1, ho1⟩⟩

theorem allocuvm_inv (hall : ∀ d v, gone d v) :
    wp (allocuvm c p d oldsz newsz) (After Inv c p fl) E m := by
  simp only [allocuvm, wp_ite, wp_pure]
  refine ⟨fun _ => ⟨h, ho⟩, fun hlt => ⟨fun _ => ⟨h, ho⟩, fun _ => ?_⟩⟩
  rcases alloc_range oldsz (Nat.lt_of_not_le hlt) with hr | hr
  · exact allocLoop_inv hC h ho hall (by omega) hr
  · rw [hr]
    exact ⟨h, ho⟩

/-! ### Faults -/

/-- A victim goes out and the page comes in. -/
theorem swapPages_inv (hv : Spares c p gone m)
    (ht : (m.dirs (m.proc p).pgdir).table (pdx va) ≠ none) :
    wp (swapPages c p (pgrounddown va)) (After Inv c p fl) E m := by
  refine evict_inv hC h ho hv ?_
  intro out m1 h1 ho1 hq hout
  have ht1 : (m1.dirs (m1.proc p).pgdir).table (pdx va) ≠ none := by
    rw [hq.table, hq.pgdir]
    exact ht
  rw [wp_bind, wp_getProc]
  cases hj : (m1.proc p).findPage (pgrounddown va) with
  | none => exact ⟨h1, ho1⟩
  | some j =>
    have hlt := List.mem_range.mp (List.mem_of_find?_eq_some hj)
    have hid : ((m1.proc p).pagesMetaData j).page.pageId = pgrounddown va := by
      simpa using List.find?_some hj
    have hlow : pgrounddown va < kernbase := by
      rcases ho1.tidy.ids j hlt with hno | hlow
      · exact absurd (hid.symm.trans hno) pgrounddown_ne_noPage
      · rwa [hid] at hlow
    -- Whatever has been evicted, entry `j` still names the page of `va`.
    have hload : ∀ m2, Inv ⟨m2, fl⟩ → Own c p m2 → SameIds p m1 m2 →
        wp (do let _ ← getPageFromFile p j; pure true) (After Inv c p fl) E m2 := by
      intro m2 h2 ho2 hs
      rw [wp_bind]
      refine getPageFromFile_inv hC h2 ho2 ?_ ?_
      · rwa [hs.id j, hid]
      · rwa [hs.id j, hid, hs.table, hs.pgdir, pdx_pgrounddown]
    cases out with
    | none => exact hload m1 h1 ho1 ⟨rfl, fun _ => rfl, fun _ => rfl⟩
    | some i =>
      refine (wp_bind _ _ _ _ _).mpr (wp_post (moveToDisk_inv hC h1 ho1 (hout i rfl)) ?_)
      rintro _ m2 ⟨h2, ho2, hs⟩
      exact hload m2 h2 ho2 hs

/-- A write to a shared page: a copy, or the page itself for the last owner. -/
theorem cowFault_inv (hok : CopyOk m p va)
    (ht : (m.dirs (m.proc p).pgdir).table (pdx va) ≠ none)
    (hp : ((m.dirs (m.proc p).pgdir).pte (vpn va)).p = true) :
    wp (cowFault c p va user) (After Inv c p fl) E m := by
  generalize hd : (m.proc p).pgdir = d at *
  generalize hpte : (m.dirs d).pte (vpn va) = pte at *
  obtain ⟨hown_p, hown_f, hown_u⟩ := pte.own_same
  simp only [cowFault, wp_bind, wp_getProc, wp_getPte, getRef, wp_get, wp_ite, wp_pure, wp_throw, hd,
    hpte]
  refine ⟨fun _ => ⟨fun _ => ?_, fun _ => ⟨fun hgt => ?_, fun _ => ?_⟩⟩, fun _ => hC.stop (by decide)⟩
  · -- The last owner makes the page writable.
    have hq : Quiet c p m (m.setPte d (vpn va) pte.own) :=
      .setPte (by rw [hpte]; exact ⟨hown_p, fun _ => ⟨hown_f, hown_u⟩⟩)
    exact ⟨hq.inv hC h, ho.of_quiet hq⟩
  · obtain ⟨hva, hne⟩ := hok (by rwa [hd, hpte]) (by rwa [hd, hpte])
    rw [wp_kalloc]
    refine ⟨fun hnil => absurd hnil hne, fun f rest hf => ?_⟩
    simp only [wp_bind, wp_get, wp_set, wp_setPte, decrementRef, wp_ite, wp_modify, wp_throw]
    refine ⟨fun _ => ?_, fun _ => hC.stop (by decide)⟩
    -- Writing the copy is quiet, so it may come first.
    have hq : Quiet c p m (m.setMem f (m.mem pte.frame)) := Filed.quiet ⟨rfl, rfl, rfl, rfl, rfl, rfl⟩
    have hmaps : ((m.setMem f (m.mem pte.frame)).dirs d).maps (vpn va) = true := by
      refine PageDir.maps_iff.mpr ⟨?_, ht, ?_⟩
      · rw [← hd]
        exact ho.tidy.live
      · rw [Machine.setMem_dirs, hpte]
        exact hp
    have h3 := hC.step (.copy (x := { pte.own with frame := f }) (vpn_lt hva) hmaps hf
      (by rw [← hp]; exact hown_p) (by rw [Machine.setMem_dirs, hpte]; exact hown_u)
      (by rw [Machine.setMem_dirs, hpte]; exact hgt)) (hq.inv hC h)
    rw [Machine.setMem_dirs, hpte] at h3
    refine ⟨h3, ?_⟩
    exact Own.of_eq ((ho.of_quiet hq).setPte (d := d) (x := { pte.own with frame := f }) (vpn_lt hva))
      rfl rfl rfl
  · exact wp_post ((quiet_code.pgFault user).inv hC h ho) fun _ _ h1 => h1.2

/-- The page fault handler. -/
theorem trap_inv (hok : CopyOk m p va)
    (hv : wp (updateMetaData c p) (fun _ m' => Spares c p gone m') anyStop
      (m.setProc p (m.proc p).countFault)) :
    wp (trap c p va user) (After Inv c p fl) E m := by
  have hq0 : Quiet c p m (m.setProc p (m.proc p).countFault) := .setProc (.of_eq rfl rfl rfl rfl)
  generalize hm0 : m.setProc p (m.proc p).countFault = m0 at *
  have h0 := hq0.inv hC h
  have ho0 := ho.of_quiet hq0
  have hok0 := hok.of_quiet hq0
  simp only [trap, wp_bind, wp_modifyProc, wp_getProc, derefPte, wp_walkpgdir, hm0]
  refine ⟨fun hl => ⟨fun _ => hC.stop (by decide), fun ht => ?_⟩, fun _ => hC.stop (by decide)⟩
  have hfault : ∀ m1, Inv ⟨m1, fl⟩ → Own c p m1 →
      wp (pgFault p user) (After Inv c p fl) E m1 :=
    fun m1 h1 ho1 => wp_post ((quiet_code.pgFault user).inv hC h1 ho1) fun _ _ h2 => h2.2
  rw [wp_getPte, wp_ite]
  refine ⟨fun _ => hfault m0 h0 ho0, fun hpaged => ?_⟩
  -- Behind the aging code the PTE has not changed in what matters.
  have hbranch : ∀ m1, Quiet c p m0 m1 → (((m0.dirs (m0.proc p).pgdir).pte (vpn va)).p = false →
      Spares c p gone m1) → wp (trapPage c p (m0.proc p).pgdir va user) (After Inv c p fl) E m1 := by
    intro m1 hq hspare
    have h1 := hq.inv hC h0
    have ho1 := ho0.of_quiet hq
    have ht1 : (m1.dirs (m1.proc p).pgdir).table (pdx va) ≠ none := by
      rw [hq.table, hq.pgdir]
      exact ht
    simp only [trapPage, wp_bind, wp_getPte, wp_ite, wp_modify]
    refine ⟨fun hp => ?_, fun hnp => ⟨fun _ => hfault m1 h1 ho1, fun _ => ?_⟩⟩
    · rw [← hq.pgdir] at hp
      exact cowFault_inv hC h1 ho1 (hok0.of_quiet hq) ht1 hp
    · have hnp0 : ((m0.dirs (m0.proc p).pgdir).pte (vpn va)).p = false := by
        rw [← (hq.pte _ _).1]
        simpa using hnp
      have hs : SameLinks p m1 { m1 with lockedFault := m1.lockedFault || decide (0 < m1.ncli) } :=
        ⟨rfl, rfl, rfl, rfl, rfl⟩
      have hq2 : Quiet c p m1 { m1 with lockedFault := m1.lockedFault || decide (0 < m1.ncli) } :=
        Filed.quiet ⟨rfl, rfl, rfl, rfl, rfl, rfl⟩
      refine wp_post (swapPages_inv hC (hq2.inv hC h1) (ho1.of_quiet hq2)
        ((hspare hnp0).of_same hs) ht1) ?_
      rintro ok m3 ⟨h3, ho3⟩
      rw [wp_pure]
      exact ⟨fun _ => ⟨h3, ho3⟩, fun _ => hfault m3 h3 ho3⟩
  rw [wp_ite]
  refine ⟨fun _ => ?_, fun hlow => ?_⟩
  · rw [wp_bind]
    refine wp_post (wp_and (wp_mono (quiet_updateMetaData m0) (fun _ _ hq => hq)
      (fun _ _ he => hC.stop he)) hv) ?_
    rintro _ m1 ⟨hq, hspare⟩
    exact hbranch m1 hq fun _ => hspare
  · exact hbranch m0 (Std.Refl.refl m0) fun hnp => absurd ⟨hnp, .inr (by omega)⟩ hpaged

end Rules

end Xv6Paging
