import Xv6Paging.Frames
import Xv6Paging.SwapCode

/-! # Code that leaves the frames alone

    Choosing a victim, aging, the swap file and the list operations change the
    paging data of the running process, accessed bits and files. None of this
    concerns frames, whatever the paging data are: it is `Quiet`. It also keeps
    the paging data `Tidy`: they speak of user pages only, and a page that they
    place in the swap file has a page table.
-/

namespace Xv6Paging

open Wp Function

variable {c : Config} {pr pr' : Proc} {x : Pte} {who : Nat → Prop} {m' : Machine} {d v : Nat}

/-! ## Tidy paging data -/

/-- What the frames need to know of the paging data of a process: they are about
    user pages of the directory `dir`. -/
structure Proc.Tidy (c : Config) (dir : PageDir) (pr : Proc) : Prop where
  live : dir.live = true
  /-- `page_id` of an unused entry, taken as an address, is in device space. -/
  top : (dir.pte (vpn noPage)).p = true → ¬ managed c (dir.pte (vpn noPage)).frame
  ids : ∀ i < maxTotalPages, (pr.pagesMetaData i).page.pageId = noPage ∨
    (pr.pagesMetaData i).page.pageId < kernbase
  disk : ∀ i < maxTotalPages, (pr.pagesMetaData i).page.state = .inDisk →
    (pr.pagesMetaData i).page.pageId < kernbase ∧
    dir.table (pdx (pr.pagesMetaData i).page.pageId) ≠ none
  sz_le : pr.sz ≤ kernbase

theorem Proc.Tidy.of_dir {dir dir' : PageDir} (h : pr.Tidy c dir)
    (hlive : dir.live = true → dir'.live = true)
    (htop : SamePte (dir.pte (vpn noPage)) (dir'.pte (vpn noPage)))
    (htable : ∀ k, dir.table k ≠ none → dir'.table k ≠ none) : pr.Tidy c dir' where
  live := hlive h.live
  top := by
    intro hp
    rw [htop.1] at hp
    rw [(htop.2 hp).1]
    exact h.top hp
  ids := h.ids
  disk := fun i hi hd => ⟨(h.disk i hi hd).1, htable _ (h.disk i hi hd).2⟩
  sz_le := h.sz_le

/-- The paging data of process `q` are tidy. -/
def Machine.Tidy (c : Config) (m : Machine) (q : Nat) : Prop :=
  (m.proc q).Tidy c (m.dirs (m.proc q).pgdir)

/-! ## Steps on one process -/

/-- The process keeps its directory, and tidy paging data stay tidy. -/
structure MetaStep (c : Config) (pr pr' : Proc) : Prop where
  pgdir : pr'.pgdir = pr.pgdir
  used : pr'.used = pr.used
  tidy : ∀ dir, pr.Tidy c dir → pr'.Tidy c dir

instance (c : Config) : Std.Refl (MetaStep c) := ⟨fun _ => ⟨rfl, rfl, fun _ h => h⟩⟩

instance (c : Config) : IsTrans Proc (MetaStep c) :=
  ⟨fun _ _ _ h h' => ⟨h'.pgdir.trans h.pgdir, h'.used.trans h.used,
    fun dir hd => h'.tidy dir (h.tidy dir hd)⟩⟩

theorem Shuffled.metaStep (h : Shuffled pr pr') : MetaStep c pr pr' where
  pgdir := by rw [h.rest]
  used := by rw [h.rest]
  tidy := fun _ hd => {
    live := hd.live
    top := hd.top
    ids := fun i hi => by rw [h.page i]; exact hd.ids i hi
    disk := fun i hi => by rw [h.page i]; exact hd.disk i hi
    sz_le := by rw [h.rest]; exact hd.sz_le }

/-- Fields other than directory, size and entries do not matter. -/
theorem MetaStep.of_eq (hpgdir : pr'.pgdir = pr.pgdir) (hused : pr'.used = pr.used)
    (hsz : pr'.sz = pr.sz) (hpages : pr'.pagesMetaData = pr.pagesMetaData) : MetaStep c pr pr' where
  pgdir := hpgdir
  used := hused
  tidy := fun _ hd => ⟨hd.live, hd.top, hpages ▸ hd.ids, hpages ▸ hd.disk, hsz ▸ hd.sz_le⟩

/-- An entry is rewritten for a user page, in RAM or nowhere. -/
theorem MetaStep.setPage (pr : Proc) (i : Nat)
    (hid : ∀ pg, (f pg).pageId = noPage ∨ (f pg).pageId < kernbase ∨ (f pg).pageId = pg.pageId)
    (hst : ∀ pg, (f pg).state = .inDisk → pg.state = .inDisk ∧ (f pg).pageId = pg.pageId) :
    MetaStep c pr (pr.setPage i f) := by
  refine ⟨rfl, rfl, fun dir hd => ⟨hd.live, hd.top, ?_, ?_, hd.sz_le⟩⟩
  · intro j hj
    by_cases hji : j = i
    · subst hji
      simp only [Proc.setPage, Proc.setLink, update_self]
      rcases hid (pr.pagesMetaData j).page with h | h | h
      · exact .inl h
      · exact .inr h
      · rw [h]
        exact hd.ids j hj
    · simp only [Proc.setPage, Proc.setLink, update_of_ne hji]
      exact hd.ids j hj
  · intro j hj
    by_cases hji : j = i
    · subst hji
      simp only [Proc.setPage, Proc.setLink, update_self]
      intro hdisk
      obtain ⟨hold, hsame⟩ := hst _ hdisk
      rw [hsame]
      exact hd.disk j hj hold
    · simp only [Proc.setPage, Proc.setLink, update_of_ne hji]
      exact hd.disk j hj

theorem MetaStep.procLogic (c : Config) : ProcLogic (MetaStep c) where
  next := fun pr i x => (Shuffled.setNext pr i x).metaStep
  prev := fun pr i x => (Shuffled.setPrev pr i x).metaStep
  head := fun pr x => (Shuffled.setHead pr x).metaStep
  rest := MetaStep.of_eq

/-! ## Quiet steps of the machine -/

/-- Nothing that concerns frames, done by process `p`. -/
structure Quiet (c : Config) (p : Nat) (m m' : Machine) : Prop extends Neutral (· = p) m m' where
  global : m'.globalPgdir = m.globalPgdir
  tidy : m.Tidy c p → m'.Tidy c p

theorem SamePte.refl (x : Pte) : SamePte x x := ⟨rfl, fun _ => ⟨rfl, rfl⟩⟩

theorem SamePte.trans (h : SamePte x y) (h' : SamePte y z) : SamePte x z := by
  refine ⟨h'.1.trans h.1, fun hp => ?_⟩
  have hp' : y.p = true := h.1.trans hp
  exact ⟨(h'.2 hp').1.trans (h.2 hp).1, (h'.2 hp').2.trans (h.2 hp).2⟩

theorem Neutral.refl (who : Nat → Prop) (m : Machine) : Neutral who m m :=
  ⟨rfl, rfl, rfl, fun _ => rfl, fun _ => rfl, fun _ _ => .refl _, fun _ => rfl, fun _ => rfl,
    fun _ _ => rfl⟩

theorem Neutral.trans (h : Neutral who m m') (h' : Neutral who m' m'') : Neutral who m m'' where
  refs := h'.refs.trans h.refs
  freelist := h'.freelist.trans h.freelist
  kheld := h'.kheld.trans h.kheld
  live := fun d => (h'.live d).trans (h.live d)
  table := fun d => (h'.table d).trans (h.table d)
  pte := fun d v => (h.pte d v).trans (h'.pte d v)
  pgdir := fun q => (h'.pgdir q).trans (h.pgdir q)
  used := fun q => (h'.used q).trans (h.used q)
  proc := fun q hq => (h'.proc q hq).trans (h.proc q hq)

section Quiet

variable {p : Nat} {m : Machine}

instance : Std.Refl (Quiet c p) := ⟨fun m => ⟨.refl _ m, rfl, id⟩⟩

instance : IsTrans Machine (Quiet c p) :=
  ⟨fun _ _ _ h h' => ⟨h.toNeutral.trans h'.toNeutral, h'.global.trans h.global,
    fun ht => h'.tidy (h.tidy ht)⟩⟩

theorem Neutral.setProc (hpgdir : pr'.pgdir = (m.proc p).pgdir)
    (hused : pr'.used = (m.proc p).used) :
    Neutral (· = p) m (m.setProc p pr') where
  refs := rfl
  freelist := rfl
  kheld := rfl
  live := fun _ => rfl
  table := fun _ => rfl
  pte := fun _ _ => .refl _
  pgdir := by
    intro q
    by_cases hq : q = p
    · subst hq
      simpa using hpgdir
    · simp [update_of_ne hq]
  used := by
    intro q
    by_cases hq : q = p
    · subst hq
      simpa using hused
    · simp [update_of_ne hq]
  proc := fun q hq => update_of_ne hq _ _

theorem Quiet.setProc (h : MetaStep c (m.proc p) pr') :
    Quiet c p m (m.setProc p pr') := by
  refine ⟨.setProc h.pgdir h.used, rfl, ?_⟩
  intro ht
  have hdir := h.tidy _ ht
  unfold Machine.Tidy
  rw [Machine.setProc_proc, update_self, Machine.setProc_dirs, h.pgdir]
  exact hdir

theorem Filed.quiet (h : Filed m m') : Quiet c p m m' where
  refs := h.refs
  freelist := h.freelist
  kheld := h.kheld
  live := fun _ => by rw [h.dirs]
  table := fun _ => by rw [h.dirs]
  pte := fun _ _ => by rw [h.dirs]; exact .refl _
  pgdir := fun _ => by rw [h.proc]
  used := fun _ => by rw [h.proc]
  proc := fun _ _ => by rw [h.proc]
  global := h.global
  tidy := fun ht => by unfold Machine.Tidy; rw [h.dirs, h.proc]; exact ht

theorem Neutral.setPte (h : SamePte ((m.dirs d).pte v) x) :
    Neutral who m (m.setPte d v x) := by
  refine ⟨rfl, rfl, rfl, setPte_live, setPte_table, ?_, fun _ => rfl, fun _ => rfl, fun _ _ => rfl⟩
  intro e w
  by_cases he : e = d
  · subst he
    by_cases hw : w = v
    · subst hw
      simpa using h
    · simpa [update_of_ne hw] using SamePte.refl _
  · simpa [update_of_ne he] using SamePte.refl _

theorem Quiet.setPte (h : SamePte ((m.dirs d).pte v) x) :
    Quiet c p m (m.setPte d v x) := by
  have hn : Neutral (· = p) m (m.setPte d v x) := .setPte h
  refine ⟨hn, rfl, ?_⟩
  intro ht
  refine Proc.Tidy.of_dir ht ?_ (hn.pte _ _) ?_
  · intro hl
    exact (setPte_live _).trans hl
  · intro k hk
    rw [setPte_table]
    exact hk

/-- Code that is quiet whatever the paging data are. -/
abbrev IsQuiet (c : Config) (p : Nat) {α : Type} (x : K α) : Prop := Keeps (Quiet c p) NotRefZero x

theorem quiet_code : SwapLogic p (fun _ => True) (MetaStep c) (@IsQuiet c p) :=
  .of_keeps (fun _ he => he) (MetaStep.procLogic c) (fun _ _ hs => .setProc hs)
    (fun _ _ _ _ => .setPte ⟨rfl, fun _ => ⟨rfl, rfl⟩⟩) (fun _ _ hf => hf.quiet)

theorem quiet_updateMetaData : IsQuiet c p (updateMetaData c p) :=
  quiet_code.updateMetaData fun pr i _ =>
    .setPage pr i (fun _ => .inr (.inr rfl)) (fun _ hd => ⟨hd, rfl⟩)

end Quiet

end Xv6Paging
