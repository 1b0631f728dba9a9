import Xv6Paging.Moves

/-! # Page faults of a paged process

    A fault on a page that is out exchanges it for another one, a write fault on
    a shared page gives the process a copy. Both are moves, so the access that
    faulted is tried again on the same memory, and succeeds.
-/

namespace Xv6Paging

open List Wp Placement Function

variable {T : PageMap} {m m' : Machine} {fuel i t v va : Nat} {l : List Nat}
  {Q : Unit → Machine → Prop} {E : Stop → Machine → Prop} {user write : Bool}

/-- The page limits, and that pages go out only when RAM is full. -/
structure Quota (T : PageMap) : Prop where
  ram_le : fastCount maxTotalPages T ≤ maxPsycPages
  disk_le : slowCount maxTotalPages T + maxPsycPages ≤ maxTotalPages
  full : 0 < slowCount maxTotalPages T → fastCount maxTotalPages T = maxPsycPages

/-- What holds of a paged process between two operations. -/
structure Steady (c : Config) (p : Nat) (s : Space) : Prop where
  paged : Paged c p s.machine s.map s.list
  guarded : s.Guarded p
  writable : s.Writable p
  quota : Quota s.map
  file : (s.machine.proc p).swapFile = none → ∃ fd < nfile, s.machine.ftable fd = 0
  alive : (s.machine.proc p).killed = false

section Steady

variable {c : Config} {p : Nat} {s s' : Space}

/-- Moves keep the free entry of `ftable` for a swap file not yet created. -/
theorem Move.file (h : Move c p s s')
    (hs : (s.machine.proc p).swapFile = none → ∃ fd < nfile, s.machine.ftable fd = 0) :
    (s'.machine.proc p).swapFile = none → ∃ fd < nfile, s'.machine.ftable fd = 0 := by
  cases h with
  | stir _ hst _ _ =>
    have hft := congrArg Machine.ftable hst.rest
    have hsame := congrArg Proc.swapFile hst.proc.rest
    simp only [hsame, hft]
    exact hs
  | count _ => simpa [Proc.countFault] using hs
  | create _ => simp [Proc.setSwapFile]
  | evict _ _ _ hpr _ =>
    have hsame := congrArg Proc.swapFile hpr
    simpa [hsame] using hs
  | load _ _ _ _ hpr _ =>
    have hsame := congrArg Proc.swapFile hpr
    simpa [hsame] using hs
  | add _ _ _ _ _ hpr _ =>
    have hsame := congrArg Proc.swapFile hpr
    simpa [hsame] using hs
  | own _ _ _ _ => exact hs
  | copy _ _ _ _ _ => exact hs

/-- Moves never close the swap file. -/
theorem Move.swapFile_none (h : Move c p s s') (hnone : (s'.machine.proc p).swapFile = none) :
    (s.machine.proc p).swapFile = none := by
  cases h with
  | stir _ hst _ _ => rwa [hst.proc.rest] at hnone
  | count _ => simpa [Proc.countFault] using hnone
  | create _ => simp [Proc.setSwapFile] at hnone
  | evict _ _ _ hpr _ =>
    simp only [evict_proc, update_self] at hnone
    rwa [hpr] at hnone
  | load _ _ _ _ hpr _ =>
    simp only [bring_proc, update_self] at hnone
    rwa [hpr] at hnone
  | add _ _ _ _ _ hpr _ =>
    simp only [bring_proc, update_self] at hnone
    rwa [hpr] at hnone
  | own _ _ _ _ => exact hnone
  | copy _ _ _ _ _ => exact hnone

theorem Moves.steady (h : Moves c p s s') (hs : Steady c p s) (hq : Quota s'.map) :
    Steady c p s' where
  paged := h.target hs.paged
  guarded := h.invariant Move.guarded hs.guarded
  writable := h.invariant Move.writable hs.writable
  quota := hq
  file := h.invariant
    (P := fun s => (s.machine.proc p).swapFile = none → ∃ fd < nfile, s.machine.ftable fd = 0)
    Move.file hs.file
  alive := h.kept.killed.trans hs.alive

/-- Moves that keep the numbers of pages. -/
theorem Quota.of_eq {T' : PageMap} (h : Quota T)
    (hram : fastCount maxTotalPages T' = fastCount maxTotalPages T)
    (hdisk : slowCount maxTotalPages T' = slowCount maxTotalPages T) : Quota T' :=
  ⟨hram ▸ h.ram_le, hdisk ▸ h.disk_le, by rw [hram, hdisk]; exact h.full⟩

/-- With two pages in RAM one of them is a user page. -/
theorem exists_user_page (h : Paged c p s.machine s.map s.list) (hg : s.Guarded p)
    (htwo : 2 ≤ s.list.length) :
    ∃ i ∈ s.list, ∃ v, s.map i = .fast v ∧ (s.machine.pte p v).u = true := by
  obtain ⟨a, b, ks, hl⟩ : ∃ a b ks, s.list = a :: b :: ks := by
    match hs : s.list, htwo with
    | a :: b :: ks, _ => exact ⟨a, b, ks, rfl⟩
  obtain ⟨ha, va, -, hTa⟩ := h.records.isFast_of_mem (i := a) (by simp [hl])
  obtain ⟨hb, vb, -, hTb⟩ := h.records.isFast_of_mem (i := b) (by simp [hl])
  have hab : a ≠ b := by
    have hnd := h.listed.isList.nodup
    rw [hl] at hnd
    simp only [nodup_cons, mem_cons, not_or] at hnd
    exact hnd.1.1
  by_cases hua : (s.machine.pte p va).u = true
  · exact ⟨a, by simp [hl], va, hTa, hua⟩
  by_cases hub : (s.machine.pte p vb).u = true
  · exact ⟨b, by simp [hl], vb, hTb, hub⟩
  -- Two pages without `PTE_U` would be the same page, in one entry.
  have hv : va = vb := hg va vb ⟨a, ha, by simp [hTa]⟩ ⟨b, hb, by simp [hTb]⟩
    (by simpa using hua) (by simpa using hub)
  subst hv
  exact absurd (h.records.ok.key_inj (k := va) ha hb (by simp [hTa]) (by simp [hTb])) hab

theorem choosePageToSwap_move (h : Paged c p s.machine s.map s.list) (hg : s.Guarded p)
    (hfuel : 2 * maxTotalPages ≤ c.fuel) (htwo : 2 ≤ s.list.length) :
    wp (choosePageToSwap c p) (fun r m' => ∃ i xs ys, r = some i ∧
      Selected c p s.machine s.list i xs ys m' ∧ Move c p s ⟨m', s.map, xs ++ i :: ys⟩) noStop
      s.machine := by
  obtain ⟨i, hi, v, hT, hu⟩ := exists_user_page h hg htwo
  refine wp_post (choosePageToSwap_spec h hi hT hu htwo hfuel) ?_
  rintro r m' ⟨k, xs, ys, rfl, hk, hs, h'⟩
  exact ⟨k, xs, ys, rfl, hk, .stir h hs h' hk.perm⟩

theorem moveToDisk_move {xs ys : List Nat} (h : Paged c p m T (xs ++ i :: ys)) (hT : T i = .fast v)
    (hroom : slowCount maxTotalPages T < swapSlots) (hfile : (m.proc p).swapFile ≠ none) :
    wp (moveToDisk c p i) (fun r m' => r = true ∧ ∃ t,
      (∃ pr, SameSpace (m.proc p) pr ∧ m' = m.evict p v t pr) ∧
      Move c p ⟨m, T, xs ++ i :: ys⟩ ⟨m', update T i (.slow v t), xs ++ ys⟩) noStop m := by
  have hroom' : (m.proc p).numPagesDisk < swapSlots := by rwa [h.records.disk]
  refine wp_post (moveToDisk_spec h hT hroom' hfile) ?_
  rintro r m' ⟨rfl, t, pr, hslot, hpr, rfl, h'⟩
  exact ⟨rfl, t, ⟨pr, hpr, rfl⟩, .evict h hT hslot hpr h'⟩

theorem getPageFromFile_move (h : Paged c p m T l) (hne : l ≠ []) (hi : i < maxTotalPages)
    (hT : T i = .slow v t) (hfree : m.freelist ≠ []) :
    wp (getPageFromFile p i) (fun r m' => r = true ∧
      (∃ f, m'.pte p v = Pte.wu.mapTo f) ∧
      Move c p ⟨m, T, l⟩ ⟨m', update T i (.fast v), l ++ [i]⟩) noStop m := by
  obtain ⟨f, rest, hf⟩ := exists_cons_of_ne_nil hfree
  refine wp_post (getPageFromFile_spec h hne hi hT hf) ?_
  rintro r m' ⟨rfl, pr, hpr, rfl, h'⟩
  exact ⟨rfl, ⟨f, by rw [bring_pte hpr, if_pos rfl]⟩, .load h hi hT hf hpr h'⟩

theorem getPageFromFile_oom {Q : Bool → Machine → Prop} (hi : i < maxTotalPages)
    (hfree : m.freelist = []) (hE : E outOfMemory m) :
    wp (getPageFromFile p i) Q E m := by
  simp only [getPageFromFile, wp_bind, wp_onProc, wp_getLink_lt hi, Machine.setProc_self, wp_curDir,
    wp_kalloc]
  exact ⟨fun _ => hE, fun r rest hf => by simp [hfree] at hf⟩

/-! ## Exchanging two pages -/

/-- The outcome of paging code that runs to its end: moves within the quota, and
    the same pages. -/
structure Exchanged (c : Config) (p : Nat) (s s' : Space) : Prop where
  moves : Moves c p s s'
  quota : Quota s'.map
  tracked : ∀ v, Tracked s'.map v ↔ Tracked s.map v

/-- Paging code has run to its end in the machine `m'`. -/
def Done (c : Config) (p : Nat) (s : Space) (m' : Machine) : Prop :=
  ∃ s' : Space, s'.machine = m' ∧ Exchanged c p s s'

theorem Done.trans (h : Moves c p s s1) (hmap : s1.map = s.map) (h' : Done c p s1 m') : Done c p s m' := by
  obtain ⟨s', rfl, he⟩ := h'
  exact ⟨s', rfl, h.trans he.moves, he.quota, fun v => by rw [he.tracked, hmap]⟩

theorem Done.kept (h : Done c p s m') : Kept p s.machine m' := by
  obtain ⟨s', rfl, he⟩ := h
  exact he.moves.kept

theorem Exchanged.steady (h : Exchanged c p s s') (hs : Steady c p s) : Steady c p s' :=
  h.moves.steady hs h.quota

/-- A fault on a page that is out exchanges it for another one. The only way to
    fail is that no frame is left, which needs a shared victim. -/
theorem swapPages_moves (hs : Steady c p s)
    (hfuel : 2 * maxTotalPages ≤ c.fuel) (hi : i < maxTotalPages) (hT : s.map i = .slow v t) :
    wp (swapPages c p (pgsize * v)) (fun r m' => r = true ∧ (∃ f, m'.pte p v = Pte.wu.mapTo f) ∧
      Done c p s m') (fun e _ => e = outOfMemory ∧ ¬ s.Private p) s.machine := by
  have hpos : 0 < slowCount maxTotalPages s.map := count_pos hi (by simp [hT])
  have hram := hs.quota.full hpos
  have hlen : s.list.length = maxPsycPages := by
    rw [hs.paged.records.length_eq, hs.paged.records.ram, hram]
  simp only [swapPages, wp_bind]
  refine wp_mono (choosePageToSwap_move hs.paged hs.guarded hfuel (by rw [hlen]; decide)) ?_
    (fun _ _ hf => hf.elim)
  rintro r m1 ⟨k, xs, ys, rfl, -, hm1⟩
  have h1 : Paged c p m1 s.map (xs ++ k :: ys) := hm1.target
  have hfile : (m1.proc p).swapFile ≠ none := by
    intro hnone
    have := h1.opened hnone
    rw [h1.records.disk] at this
    omega
  simp only [wp_bind, wp_getProc, h1.recorded.findPage_eq hi (by simp [hT] : (s.map i).key = some v)]
  obtain ⟨hk, vk, hvk, hTk⟩ := h1.records.isFast_of_mem (i := k) (by simp)
  have hik : i ≠ k := by
    rintro rfl
    simp [hT] at hTk
  have hroom : slowCount maxTotalPages s.map < swapSlots := by
    have := hs.quota.disk_le
    simp only [maxPsycPages, maxTotalPages, swapSlots] at *
    omega
  refine wp_mono (moveToDisk_move h1 hTk hroom hfile) ?_ (fun _ _ hf => hf.elim)
  rintro r m2 ⟨-, t', ⟨pr, -, heq⟩, hm2⟩
  have h2 : Paged c p m2 (update s.map k (.slow vk t')) (xs ++ ys) := hm2.target
  have hne : xs ++ ys ≠ [] := by
    have hl2 := h1.records.length_eq
    rw [h1.records.ram, hram] at hl2
    intro hnil
    simp only [length_append, length_cons, append_eq_nil_iff] at hl2 hnil
    simp [hnil.1, hnil.2, maxPsycPages] at hl2
  have hTi : update s.map k (.slow vk t') i = .slow v t := by
    rw [update_of_ne hik, hT]
  simp only [wp_pure]
  by_cases hfree : m2.freelist = []
  · refine getPageFromFile_oom hi hfree ⟨rfl, ?_⟩
    intro hpriv
    have hvk' := lt_nuserPages hvk
    have hpk : (m1.pte p vk).p = true := (h1.present_iff hvk').mpr ⟨k, hk, hTk⟩
    have hone : m1.referenceCounters (m1.pte p vk).frame = 1 := (hm1.private hpriv vk hvk' hpk).1
    simp [heq, hone] at hfree
  · refine wp_mono (getPageFromFile_move h2 hne hi hTi hfree) ?_ (fun _ _ hf => hf.elim)
    rintro r m3 ⟨-, hpte, hm3⟩
    refine ⟨trivial, hpte, _, rfl, .tail (.tail (.single hm1) hm2) hm3, hs.quota.of_eq ?_ ?_, ?_⟩
    · have e1 := fastCount_update (T := s.map) (.slow vk t') hk
      have e2 := fastCount_update (T := update s.map k (.slow vk t')) (.fast v) hi
      rw [hTk] at e1
      rw [hTi] at e2
      simp only [Entry.isFast_fast, Entry.isFast_slow, Bool.toNat_true, Bool.toNat_false] at e1 e2 ⊢
      omega
    · have e1 := slowCount_update (T := s.map) (.slow vk t') hk
      have e2 := slowCount_update (T := update s.map k (.slow vk t')) (.fast v) hi
      rw [hTk] at e1
      rw [hTi] at e2
      simp only [Entry.isSlow_fast, Entry.isSlow_slow, Bool.toNat_true, Bool.toNat_false] at e1 e2 ⊢
      omega
    · intro w
      rw [tracked_update hi (by simp [hTi]), tracked_update hk (by simp [hTk])]

/-! ## The fault handler -/

theorem pgrounddown_eq (va : Nat) : pgrounddown va = pgsize * vpn va := Nat.mul_comm _ _

theorem pdx_eq_zero (hv : vpn va < maxTotalPages) : pdx va = 0 := by
  simp only [pdx, vpn, pgsize, nptentries, maxTotalPages] at *
  omega

/-- A write fault on a copy-on-write page gives the process a page of its own,
    unless the page has to be copied and no frame is left. -/
theorem cowFault_move (h : Paged c p s.machine s.map s.list) (hv : vpn va < nuserPages)
    (hp : (s.machine.pte p (vpn va)).p = true) (hcow : (s.machine.pte p (vpn va)).cow = true) :
    wp (cowFault c p va user) (fun _ m' =>
        ((m'.pte p (vpn va)).p = true ∧ (m'.pte p (vpn va)).w = true ∧
          Move c p s ⟨m', s.map, s.list⟩) ∨
        ((m'.proc p).killed = true ∧ ¬ s.Private p)) noStop s.machine := by
  have hown : (s.machine.pte p (vpn va)).own.w = true := by simp [Pte.own, hcow]
  obtain ⟨hman, hpos⟩ := h.frame hv hp
  simp only [cowFault, wp_bind, wp_getProc, wp_getPte_own, getRef, wp_get, if_pos hman.2, wp_pure]
  by_cases hone : s.machine.referenceCounters (s.machine.pte p (vpn va)).frame = 1
  · rw [if_pos hone, wp_setPte]
    refine .inl ⟨?_, ?_, .own h hv hp hone⟩
    · rw [setPte_pte, if_pos rfl, Pte.own_p]; exact hp
    · rw [setPte_pte, if_pos rfl]; exact hown
  · have hshared : 1 < s.machine.referenceCounters (s.machine.pte p (vpn va)).frame := by omega
    rw [if_neg hone, if_pos hshared]
    simp only [wp_bind, wp_kalloc, decrementRef, if_pos hman, wp_modify]
    refine ⟨fun _ => .inr ⟨by simp [Proc.kill], ?_⟩, ?_⟩
    · intro hpriv
      have := (hpriv _ hv hp).1
      omega
    · intro f rest hf
      simp only [wp_get, wp_set, wp_setPte]
      refine .inl ⟨?_, ?_, .copy h hv hp hshared hf⟩
      · exact (congrArg Pte.p (copyOut_pte (p := p) (vpn va))).trans (by simp [hp])
      · exact (congrArg Pte.w (copyOut_pte (p := p) (vpn va))).trans (by simp [hown])

/-! ## Accesses -/

theorem Paged.userPte_eq (h : Paged c p m T l) (hv : vpn va < maxTotalPages) :
    m.userPte p va = m.pte p (vpn va) := by
  have ht : ((m.dirs (m.proc p).pgdir).table (pdx va)).isSome = true := by
    rw [pdx_eq_zero hv]
    exact Option.isSome_iff_ne_none.mpr h.table
  simp only [Machine.userPte, ht, if_true]
  rfl

/-- How an access can fail: a frame is needed, and none is left. -/
def Starved (p : Nat) (s : Space) (e : Stop) (_ : Machine) : Prop :=
  (e = outOfMemory ∨ e = .killed) ∧ ¬ s.Private p

theorem access_now (hperm : (m.userPte p va).permits user write = true) (hQ : Q () m) :
    wp (access c p va user write (fuel + 1)) Q E m := by
  simp only [access, wp_bind, wp_get, hperm, if_true, wp_pure]
  exact hQ

theorem access_trap (hperm : (m.userPte p va).permits user write = false)
    (htrap : wp (trap c p va user) (fun _ m' =>
      if user = true ∧ (m'.proc p).killed = true then E .killed m'
      else wp (access c p va user write fuel) Q E m') E m) :
    wp (access c p va user write (fuel + 1)) Q E m := by
  simp only [access, wp_bind, wp_get, hperm, Bool.false_eq_true, if_false, wp_getProc]
  refine wp_post htrap ?_
  intro _ m' h
  split at h
  · rename_i hk
    rwa [if_pos hk, wp_throw]
  · rename_i hk
    rwa [if_neg hk]

/-- A present page shows the bytes of its frame. -/
theorem view_of_present (hp : (m.pte p (vpn va)).p = true) :
    m.view p va = (m.mem (m.pte p (vpn va)).frame).byte (va % pgsize) := by
  rw [Machine.view, if_pos hp]

theorem Pte.present_of_permits {x : Pte} (h : x.permits user write = true) :
    x.p = true := by
  simp only [Pte.permits, Bool.and_eq_true] at h
  exact h.1.1

/-- The byte at `va`, on a present page, has been written. -/
def Machine.poke (m : Machine) (p va : Nat) (b : UInt8) : Machine :=
  m.setMem (m.pte p (vpn va)).frame
    ((m.mem (m.pte p (vpn va)).frame).set (va % pgsize) b)

theorem Paged.setMem (h : Paged c p m T l) (f : Nat) (pg : Page) : Paged c p (m.setMem f pg) T l :=
  { h with }

theorem Steady.poke (h : Steady c p ⟨m, T, l⟩) (va : Nat) (b : UInt8) :
    Steady c p ⟨m.poke p va b, T, l⟩ :=
  ⟨h.paged.setMem _ _, h.guarded, h.writable, h.quota, h.file, h.alive⟩

theorem Paged.view_poke (b : UInt8) (h : Paged c p m T l)
    (hp : (m.pte p (vpn va)).p = true) (hv : vpn va < nuserPages) (ha : vpn a < nuserPages) :
    (m.poke p va b).view p a = if a = va then b else m.view p a := by
  have hpte : (m.poke p va b).pte p = m.pte p := rfl
  by_cases hpa : (m.pte p (vpn a)).p = true
  · rw [view_of_present (by rw [hpte]; exact hpa), view_of_present hpa, hpte]
    simp only [Machine.poke, Machine.setMem_mem]
    by_cases hvv : vpn a = vpn va
    · rw [hvv, update_self, Page.byte_mod, Page.byte_mod]
      have hiff : a % pgsize = va % pgsize ↔ a = va := by
        simp only [vpn, pgsize] at *
        omega
      simp only [Page.set, hiff]
    · have hne : (m.pte p (vpn a)).frame ≠ (m.pte p (vpn va)).frame := fun heq =>
        hvv (h.frame_inj ha hv hpa hp heq)
      have hava : a ≠ va := fun heq => hvv (by rw [heq])
      rw [update_of_ne hne, if_neg hava]
  · have hava : a ≠ va := fun heq => hpa (by rw [heq]; exact hp)
    rw [if_neg hava]
    simp only [Machine.view, hpte, hpa]
    rfl

/-! ## A process in order

    The handler, accesses, loads and stores. -/

variable (hs : Steady c p s) (hpages : c.pages p) (hfuel : 2 * maxTotalPages ≤ c.fuel)
include hs hpages hfuel

/-- The handler up to the point where it looks at the PTE. -/
theorem trap_enter (hv : vpn va < maxTotalPages) (hrest : ∀ s1 : Space, Moves c p s s1 → s1.map = s.map →
      (∃ b, s1.machine.pte p (vpn va) = (s.machine.pte p (vpn va)).setA b) →
      wp (trapPage c p (s1.machine.proc p).pgdir va user) Q E s1.machine) :
    wp (trap c p va user) Q E s.machine := by
  have hm0 : Move c p s ⟨s.machine.setProc p (s.machine.proc p).countFault, s.map, s.list⟩ :=
    .count hs.paged
  have h0 := hm0.target
  have ht : ((s.machine.setProc p (s.machine.proc p).countFault).dirs
      ((s.machine.setProc p (s.machine.proc p).countFault).proc p).pgdir).table (pdx va) ≠ none := by
    rw [pdx_eq_zero hv]; exact h0.table
  have hnone : ¬ (c.selection = .NONE ∨ p ≤ 2) := by
    rintro (h | h)
    · exact hpages.1 h
    · exact absurd hpages.2 (by omega)
  simp only [trap, wp_bind, wp_modifyProc, wp_getProc]
  rw [wp_derefPte_mapped _ h0.live ht]
  simp only [hnone, and_false, if_false, wp_bind, hpages.2, if_true]
  refine wp_mono (updateMetaData_spec h0 hfuel) ?_ (fun _ _ hf => hf.elim)
  rintro _ m1 ⟨l', hperm, hst, h1⟩
  have hres := hrest ⟨m1, s.map, l'⟩ (.tail (.single hm0) (.stir h0 hst h1 hperm)) rfl ?_
  · simpa only [hst.pgdir] using hres
  · obtain ⟨b, hb⟩ := hst.pte (vpn va)
    exact ⟨b, by rw [hb, countFault_pte]⟩

/-- A fault on a page that is out brings it in. -/
theorem trap_moves_out (hi : i < maxTotalPages) (hT : s.map i = .slow (vpn va) t) :
    wp (trap c p va user) (fun _ m' => (∃ f, m'.pte p (vpn va) = Pte.wu.mapTo f) ∧ Done c p s m')
      (fun e _ => e = outOfMemory ∧ ¬ s.Private p) s.machine := by
  have hv : vpn va < maxTotalPages := hs.paged.records.page_lt hi (by simp [hT])
  obtain ⟨hp, hpg⟩ := (hs.paged.paged_iff (lt_nuserPages hv)).mpr ⟨i, hi, t, hT⟩
  refine trap_enter hs hpages hfuel hv ?_
  rintro s1 hm1 hmap ⟨b, hb⟩
  have h1 : Steady c p s1 := hm1.steady hs (hmap ▸ hs.quota)
  have hp1 : (s1.machine.pte p (vpn va)).p = false := by rw [hb]; exact hp
  have hpg1 : (s1.machine.pte p (vpn va)).pg = true := by rw [hb]; exact hpg
  have hlock : { s1.machine with
      lockedFault := s1.machine.lockedFault || decide (0 < s1.machine.ncli) } = s1.machine := by
    rw [h1.paged.unlocked]
    simp
  rw [trapPage, wp_bind, wp_getPte_own, if_neg (by simp [hp1]), if_neg (by simp [hpg1]), wp_bind,
    wp_modify, hlock, wp_bind, pgrounddown_eq]
  refine wp_mono (swapPages_moves h1 hfuel hi (by rw [hmap, hT])) ?_ ?_
  · rintro r m' ⟨rfl, hpte, hdone⟩
    exact ⟨hpte, Done.trans hm1 hmap hdone⟩
  · rintro e m' ⟨rfl, hpriv⟩
    exact ⟨rfl, fun h => hpriv (hm1.invariant Move.private h)⟩

/-- A write fault on a copy-on-write page, from the entry of the handler. -/
theorem trap_moves_cow (hv : vpn va < maxTotalPages) (hp : (s.machine.pte p (vpn va)).p = true)
    (hcow : (s.machine.pte p (vpn va)).cow = true) :
    wp (trap c p va user) (fun _ m' =>
        ((m'.pte p (vpn va)).p = true ∧ (m'.pte p (vpn va)).w = true ∧ Done c p s m') ∨
        ((m'.proc p).killed = true ∧ ¬ s.Private p)) noStop s.machine := by
  refine trap_enter hs hpages hfuel hv ?_
  rintro s1 hm1 hmap ⟨b, hb⟩
  have hp1 : (s1.machine.pte p (vpn va)).p = true := by rw [hb]; exact hp
  have hcow1 : (s1.machine.pte p (vpn va)).cow = true := by rw [hb]; exact hcow
  rw [trapPage, wp_bind, wp_getPte_own, if_pos hp1]
  refine wp_post (cowFault_move (hm1.target hs.paged) (lt_nuserPages hv) hp1 hcow1) ?_
  rintro _ m' (⟨hp', hw', hm2⟩ | ⟨hk, hpriv⟩)
  · exact .inl ⟨hp', hw', _, rfl, hm1.tail hm2, hmap ▸ hs.quota, fun v => by rw [hmap]⟩
  · exact .inr ⟨hk, fun h => hpriv (hm1.invariant Move.private h)⟩

/-- An access to a page of the process faults at most once. -/
theorem access_moves (ht : Tracked s.map (vpn va)) (hu : user = true → (s.machine.pte p (vpn va)).u = true)
    (hw : write = true → user = true) :
    wp (access c p va user write c.fuel) (fun _ m' => Done c p s m' ∧
      (m'.pte p (vpn va)).permits user write = true) (Starved p s) s.machine := by
  obtain ⟨fuel, hf⟩ : ∃ fuel, c.fuel = fuel + 2 := ⟨c.fuel - 2, by
    simp only [maxTotalPages] at hfuel; omega⟩
  rw [hf]
  obtain ⟨i, hi, hkey⟩ := ht
  have hv : vpn va < maxTotalPages := hs.paged.records.page_lt hi hkey
  have heq := hs.paged.userPte_eq hv
  have hself : Done c p s s.machine := ⟨s, rfl, .refl, hs.quota, fun _ => Iff.rfl⟩
  by_cases hperm : (s.machine.pte p (vpn va)).permits user write = true
  · exact access_now (by rw [heq]; exact hperm) ⟨hself, hperm⟩
  have hperm' : (s.machine.userPte p va).permits user write = false := by
    rw [heq]; simpa using hperm
  -- After the fault the process lives and the second try succeeds.
  have hretry : ∀ m', Done c p s m' → (m'.pte p (vpn va)).permits user write = true →
      if user = true ∧ (m'.proc p).killed = true then Starved p s .killed m'
      else wp (access c p va user write (fuel + 1)) (fun _ m' => Done c p s m' ∧
        (m'.pte p (vpn va)).permits user write = true) (Starved p s) m' := by
    intro m' hd hp
    have hk : (m'.proc p).killed = false := hd.kept.killed.trans hs.alive
    rw [if_neg (by simp [hk])]
    obtain ⟨s', rfl, he⟩ := id hd
    exact access_now (by rw [(he.steady hs).paged.userPte_eq hv]; exact hp) ⟨hd, hp⟩
  refine access_trap hperm' ?_
  cases hT : s.map i with
  | free => simp [hT] at hkey
  | fast w =>
    simp only [hT, Entry.key_fast, Option.some.injEq] at hkey
    subst hkey
    have hp := (hs.paged.present_iff (lt_nuserPages hv)).mpr ⟨i, hi, hT⟩
    -- A present page that the user may read: the access is a write and the page is shared.
    obtain ⟨rfl, hnw⟩ : write = true ∧ (s.machine.pte p (vpn va)).w = false := by
      by_contra hno
      apply hperm
      simp only [Pte.permits, hp, Bool.true_and, Bool.and_eq_true, Bool.or_eq_true,
        Bool.not_eq_true']
      grind
    have huser := hw rfl
    have hcow := (hs.writable _ (lt_nuserPages hv) hp).resolve_left (by simp [hnw])
    refine wp_mono (trap_moves_cow hs hpages hfuel hv hp hcow) ?_ (fun _ _ hf => hf.elim)
    rintro _ m' (⟨hp', hw', hd⟩ | ⟨hk, hpriv⟩)
    · refine hretry m' hd ?_
      have hu' : (m'.pte p (vpn va)).u = true := by
        obtain ⟨s', rfl, he⟩ := hd
        exact he.moves.invariant (P := fun t => (t.machine.pte p (vpn va)).u = true)
          (fun h => h.pte_u) (hu huser)
      simp [Pte.permits, hp', hw', hu']
    · rw [if_pos ⟨huser, hk⟩]
      exact ⟨.inr rfl, hpriv⟩
  | slow w t =>
    simp only [hT, Entry.key_slow, Option.some.injEq] at hkey
    subst hkey
    refine wp_mono (trap_moves_out hs hpages hfuel hi hT) ?_ ?_
    · rintro _ m' ⟨⟨f, hf⟩, hd⟩
      exact hretry m' hd (by simp [hf, Pte.permits, Pte.wu])
    · rintro e m' ⟨rfl, hpriv⟩
      exact ⟨.inl rfl, hpriv⟩

theorem userLoad_moves (ht : Tracked s.map (vpn va)) (hu : (s.machine.pte p (vpn va)).u = true) :
    wp (userLoad c p va) (fun b m' => b = s.machine.view p va ∧ Done c p s m') (Starved p s)
      s.machine := by
  have hv : vpn va < maxTotalPages := by
    obtain ⟨i, hi, hkey⟩ := ht
    exact hs.paged.records.page_lt hi hkey
  simp only [userLoad, wp_bind, wp_get, wp_pure]
  refine wp_post (access_moves hs hpages hfuel ht (fun _ => hu) (by simp)) ?_
  rintro _ m' ⟨hd, hperm⟩
  obtain ⟨s', rfl, he⟩ := id hd
  refine ⟨?_, hd⟩
  rw [(he.steady hs).paged.userPte_eq hv, ← view_of_present (Pte.present_of_permits hperm),
    he.moves.view (lt_nuserPages hv)]

/-- A store brings the page in, makes it the process's own, and writes to it. -/
theorem userStore_moves {b : UInt8} (ht : Tracked s.map (vpn va))
    (hu : (s.machine.pte p (vpn va)).u = true) :
    wp (userStore c p va b) (fun _ m' => ∃ s1 : Space, Exchanged c p s s1 ∧
      (s1.machine.pte p (vpn va)).p = true ∧ (s1.machine.pte p (vpn va)).w = true ∧
      m' = s1.machine.poke p va b) (Starved p s) s.machine := by
  have hv : vpn va < maxTotalPages := by
    obtain ⟨i, hi, hkey⟩ := ht
    exact hs.paged.records.page_lt hi hkey
  simp only [userStore, wp_bind, wp_modify]
  refine wp_post (access_moves hs hpages hfuel ht (fun _ => hu) (fun _ => rfl)) ?_
  rintro _ m' ⟨hd, hperm⟩
  obtain ⟨s1, rfl, he⟩ := hd
  refine ⟨s1, he, Pte.present_of_permits hperm, ?_, ?_⟩
  · simp only [Pte.permits, Bool.and_eq_true] at hperm
    simpa using hperm.2
  · rw [(he.steady hs).paged.userPte_eq hv]
    rfl

end Steady

end Xv6Paging
