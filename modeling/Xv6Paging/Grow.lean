import Xv6Paging.Demand

/-! # Growing a paged process

    `allocuvm` maps one zeroed page after the other, evicting a page first when
    the process has `MAX_PSYC_PAGES` in RAM. It gives up when the process has
    `MAX_TOTAL_PAGES` pages; the pages mapped so far then stay, above the size of
    the process, and use up its last entries.
-/

namespace Xv6Paging

open List Wp Placement Function

variable {T T' : PageMap} {l : List Nat} {a d k newsz oldsz sz v : Nat} {m m' : Machine}

/-- The pages of the process: those below page `n`, and from page `b` on what
    growths stopped by the page limit have left. -/
structure Shape (T : PageMap) (n b : Nat) : Prop where
  le : n ≤ b
  le_max : b ≤ maxTotalPages
  iff : ∀ v, Tracked T v ↔ v < n ∨ (b ≤ v ∧ v < maxTotalPages)

variable {c : Config} {p : Nat} {s s' : Space} {n b : Nat}

/-- The number of entries in use. -/
theorem Shape.total {pr : Proc} (h : Shape T n b) (hrec : pr.Records T l) :
    fastCount maxTotalPages T + slowCount maxTotalPages T = n + (maxTotalPages - b) := by
  have hle := h.le
  have hmax := h.le_max
  have hkeys : ∀ v, v ∈ Finset.range n ∪ Finset.Ico b maxTotalPages ↔
      ∃ i < maxTotalPages, (T i).key = some v := by
    intro v
    simp only [Finset.mem_union, Finset.mem_range, Finset.mem_Ico]
    exact (h.iff v).symm
  rw [hrec.ok.card_keys hkeys, Finset.card_union_of_disjoint, Finset.card_range, Nat.card_Ico]
  rw [Finset.disjoint_left]
  intro v hv hv'
  simp only [Finset.mem_range, Finset.mem_Ico] at hv hv'
  omega

theorem Shape.congr (h : Shape T n b) (hT : ∀ v, Tracked T' v ↔ Tracked T v) :
    Shape T' n b :=
  ⟨h.le, h.le_max, fun v => (hT v).trans (h.iff v)⟩

theorem Shape.add (h : Shape T n b) (hlt : n < b) (hT : ∀ v, Tracked T' v ↔ v = n ∨ Tracked T v) :
    Shape T' (n + 1) b := by
  refine ⟨hlt, h.le_max, fun v => ?_⟩
  rw [hT, h.iff]
  omega

/-- All pages are there. -/
theorem Shape.shrink (h : Shape T b b) (hk : k ≤ b) : Shape T k k := by
  have hmax := h.le_max
  refine ⟨le_refl k, by omega, fun v => ?_⟩
  rw [h.iff]
  omega

/-! ## Making room -/

/-- A process with pages has some in RAM. -/
theorem Steady.ram_pos (hs : Steady c p s) (hv : Tracked s.map v) : s.list ≠ [] := by
  obtain ⟨i, hi, hkey⟩ := hv
  intro hnil
  have hlen := hs.paged.records.length_eq
  rw [hs.paged.records.ram, hnil, length_nil] at hlen
  cases hT : s.map i with
  | free => simp [hT] at hkey
  | fast w =>
    have := (hs.paged.records.mem_iff i).mpr ⟨hi, by simp [hT]⟩
    simp [hnil] at this
  | slow w t =>
    have hpos : 0 < slowCount maxTotalPages s.map := count_pos hi (by simp [hT])
    have := hs.quota.full hpos
    rw [this] at hlen
    simp [maxPsycPages] at hlen

/-- `allocuvm` gives up when all entries are in use. -/
theorem makeRoom_full (hs : Steady c p s) (hpages : c.pages p)
    (hfull : fastCount maxTotalPages s.map + slowCount maxTotalPages s.map = maxTotalPages) :
    wp (makeRoom c p) (fun r m' => r = false ∧ m' = s.machine) noStop s.machine := by
  have hq := hs.quota
  have hram : (s.machine.proc p).numPagesRam = maxPsycPages := by
    rw [hs.paged.records.ram]
    have := hq.ram_le
    have := hq.disk_le
    omega
  have hdisk : (s.machine.proc p).numPagesDisk + maxPsycPages = maxTotalPages := by
    rw [hs.paged.records.disk]
    have := hq.ram_le
    have := hq.disk_le
    omega
  simp only [makeRoom, if_pos hpages, wp_bind, wp_getProc, hram, hdisk, if_true, wp_pure]
  exact ⟨trivial, trivial⟩

/-- What `makeRoom` achieves while entries are left. -/
structure Roomy (c : Config) (p : Nat) (s s' : Space) : Prop where
  moves : Moves c p s s'
  tracked : ∀ v, Tracked s'.map v ↔ Tracked s.map v
  first : s'.list = [] → (s'.machine.proc p).prev 0 = none
  total : fastCount maxTotalPages s'.map + slowCount maxTotalPages s'.map =
    fastCount maxTotalPages s.map + slowCount maxTotalPages s.map
  ram_lt : fastCount maxTotalPages s'.map < maxPsycPages
  full : 0 < slowCount maxTotalPages s'.map → fastCount maxTotalPages s'.map + 1 = maxPsycPages
  residents : s'.machine.residents p s'.list = (c.vacate (s.machine.residents p s.list)).1
  frames : s'.machine.freelist.length =
    s.machine.freelist.length + (c.vacate (s.machine.residents p s.list)).2

theorem Roomy.free_of_nil (h : Roomy c p s s') (h' : Paged c p s'.machine s'.map s'.list)
    (hnil : s'.list = []) : s'.map 0 = .free := by
  have h0 : 0 < maxTotalPages := by decide
  have hlen := h'.records.length_eq
  rw [h'.records.ram, hnil, length_nil] at hlen
  cases hT : s'.map 0 with
  | free => rfl
  | fast w =>
    have : 0 < fastCount maxTotalPages s'.map := count_pos h0 (by simp [hT])
    omega
  | slow w t =>
    have := h.full (count_pos h0 (by simp [hT]))
    rw [← hlen] at this
    simp [maxPsycPages] at this

/-- The swap file exists before the first page goes out. -/
theorem ensureSwapFile_moves (h : Paged c p s.machine s.map s.list)
    (hfile : (s.machine.proc p).swapFile = none → ∃ fd < nfile, s.machine.ftable fd = 0) :
    wp (ensureSwapFile p) (fun _ m' => ∃ s' : Space, s'.machine = m' ∧ Moves c p s s' ∧ s'.map = s.map ∧
        s'.list = s.list ∧ (s'.machine.proc p).swapFile ≠ none ∧
        s'.machine.residents p s.list = s.machine.residents p s.list ∧
        s'.machine.freelist = s.machine.freelist) noStop s.machine := by
  simp only [ensureSwapFile, wp_bind, wp_getProc]
  by_cases hnone : (s.machine.proc p).swapFile = none
  · rw [if_pos hnone]
    refine wp_post (createSwapFile_spec (fun _ => h.unlocked) (hfile hnone)) ?_
    rintro _ m' ⟨fd, rfl⟩
    rw [Machine.noteOp_of_zero h.outside]
    refine ⟨⟨_, s.map, s.list⟩, rfl, .single (.create h), rfl, rfl, by simp [Proc.setSwapFile],
      map_congr_left fun i _ => ?_, rfl⟩
    simp [Machine.resident, Machine.pageNo, Machine.pte, Machine.counter, Proc.setSwapFile]
  · rw [if_neg hnone]
    exact ⟨s, rfl, .refl, rfl, rfl, hnone, rfl, rfl⟩

/-- With room in RAM and a free frame, a page is added. -/
theorem addPage_move {rest : List Nat} (h : Paged c p m T l)
    (hfirst : l = [] → T 0 = .free ∧ (m.proc p).prev 0 = none)
    (hroom : fastCount maxTotalPages T + slowCount maxTotalPages T < maxTotalPages)
    (hv : v < maxTotalPages) (hnew : ¬ Tracked T v) (hf : m.freelist = f :: rest) :
    wp (onProc p (addPageToRam c (pgsize * v))) (fun _ m' => ∃ i < maxTotalPages, T i = .free ∧
      Move c p ⟨m, T, l⟩ ⟨m', update T i (.fast v), l ++ [i]⟩ ∧
      (∀ j, m'.counter p j = if j = i then c.initCounter else m.counter p j) ∧
      m'.residents p (l ++ [i]) = m.residents p l ++ [.new c v] ∧ m'.freelist = rest) noStop
      (((m.takeFrame f rest).setMem f Page.zero).setPte (m.proc p).pgdir v (Pte.wu.mapTo f)) := by
  have hnone : ∀ j < maxTotalPages, (T j).key ≠ some v := fun j hj hk => hnew ⟨j, hj, hk⟩
  rw [wp_onProc]
  refine wp_mono (addPageToRam_spec h.records hfirst ?_ hv hnone) ?_ (fun _ _ hf => hf)
  · show (m.proc p).numPagesRam + (m.proc p).numPagesDisk < maxTotalPages
    rwa [h.records.ram, h.records.disk]
  · rintro _ pr ⟨hpr, i, hi, hT, hrec, hcounter⟩
    have h' : Paged c p (m.bring p v f rest Page.zero pr) (update T i (.fast v)) (l ++ [i]) :=
      h.bring hi hv (by simp [hT]) (fun j hj _ => hnone j hj) hf hpr hrec
    have hcounter' : ∀ j, (m.bring p v f rest Page.zero pr).counter p j =
        if j = i then c.initCounter else m.counter p j := by
      simpa [Machine.counter] using hcounter
    exact ⟨i, hi, hT, .add h hi hT hnew hf hpr h', hcounter',
      h.bring_residents hT hf hpr h' hcounter', rfl⟩

/-- `kalloc` succeeds in every turn of the loop of `allocuvm`. -/
def allocSupplied (c : Config) (p d oldsz newsz : Nat) : Nat → Nat → Machine → Prop
  | 0, _, _ => True
  | k + 1, a, m =>
    (match makeRoom c p m with
      | .ok true m' => m'.freelist ≠ []
      | _ => True) ∧
    match allocPage c p d oldsz newsz a m with
      | .ok true m' => allocSupplied c p d oldsz newsz k (a + pgsize) m'
      | _ => True

theorem allocSupplied.room (h : allocSupplied c p d oldsz newsz (k + 1) a m)
    (hrun : makeRoom c p m = .ok true m') :
    m'.freelist ≠ [] := by
  have h1 := h.1
  rw [hrun] at h1
  exact h1

theorem allocSupplied.next (h : allocSupplied c p d oldsz newsz (k + 1) a m)
    (hrun : allocPage c p d oldsz newsz a m = .ok true m') :
    allocSupplied c p d oldsz newsz k (a + pgsize) m' := by
  have h2 := h.2
  rw [hrun] at h2
  exact h2

theorem allocSupplied.cons (hsup : ∀ m', makeRoom c p m = .ok true m' → m'.freelist ≠ [])
    (hrun : allocPage c p d oldsz newsz a m = .ok true m')
    (h : allocSupplied c p d oldsz newsz k (a + pgsize) m') :
    allocSupplied c p d oldsz newsz (k + 1) a m := by
  refine ⟨?_, by rwa [hrun]⟩
  split
  · rename_i m' hroom
    exact hsup m' hroom
  · trivial

instance decidableAllocSupplied (c : Config) (p d oldsz newsz : Nat) :
    ∀ k a m, Decidable (allocSupplied c p d oldsz newsz k a m)
  | 0, _, _ => .isTrue trivial
  | k + 1, a, m =>
    have : Decidable (match makeRoom c p m with
        | .ok true m' => m'.freelist ≠ []
        | _ => True) :=
      match makeRoom c p m with
      | .ok true m' => inferInstanceAs (Decidable (m'.freelist ≠ []))
      | .ok false _ => .isTrue trivial
      | .error _ _ => .isTrue trivial
    have : Decidable (match allocPage c p d oldsz newsz a m with
        | .ok true m' => allocSupplied c p d oldsz newsz k (a + pgsize) m'
        | _ => True) :=
      match allocPage c p d oldsz newsz a m with
      | .ok true m' => decidableAllocSupplied c p d oldsz newsz k (a + pgsize) m'
      | .ok false _ => .isTrue trivial
      | .error _ _ => .isTrue trivial
    inferInstanceAs (Decidable (_ ∧ _))

theorem allocSupplied.mono (hjk : j ≤ k) (h : allocSupplied c p d oldsz newsz k a m) :
    allocSupplied c p d oldsz newsz j a m := by
  induction j generalizing k a m with
  | zero => trivial
  | succ j ih =>
    obtain ⟨k, rfl⟩ : ∃ k', k = k' + 1 := ⟨k - 1, by omega⟩
    refine ⟨h.1, ?_⟩
    split
    · rename_i m' hrun
      exact ih (by omega) (h.next hrun)
    · trivial

/-- With as many pages in RAM as may be, one goes out. -/
theorem makeRoom_evicts (h : Paged c p s.machine s.map s.list) (hg : s.Guarded p) (hpages : c.pages p)
    (hfuel : 2 * maxTotalPages ≤ c.fuel)
    (hfile : (s.machine.proc p).swapFile = none → ∃ fd < nfile, s.machine.ftable fd = 0)
    (hram : fastCount maxTotalPages s.map = maxPsycPages)
    (hroom : fastCount maxTotalPages s.map + slowCount maxTotalPages s.map < maxTotalPages) :
    wp (makeRoom c p) (fun r m' => r = true ∧ ∃ s', s'.machine = m' ∧ Roomy c p s s') noStop
      s.machine := by
  have hrec := h.records
  have hdisk : ¬ slowCount maxTotalPages s.map + maxPsycPages = maxTotalPages := by omega
  have hslots : slowCount maxTotalPages s.map < swapSlots := by
    simp only [maxPsycPages, maxTotalPages, swapSlots] at *
    omega
  simp only [makeRoom, if_pos hpages, wp_bind, wp_getProc, hrec.ram, hrec.disk, if_pos hram, if_neg hdisk]
  refine wp_post (ensureSwapFile_moves h hfile) ?_
  rintro _ m1 ⟨s1, rfl, hm1, hmap1, hlist1, hfile1, hres1, hfree1⟩
  have h1 : Paged c p s1.machine s1.map s1.list := hm1.target h
  have hlen : s1.list.length = maxPsycPages := by
    rw [hlist1, hrec.length_eq, hrec.ram, hram]
  refine wp_post (wp_and (choosePageToSwap_move h1 (hm1.invariant Move.guarded hg) hfuel (by rw [hlen]; decide))
    ((keepsCounters_code (c := c)).choosePageToSwap s1.machine)) ?_
  rintro r m2 ⟨⟨i, xs, ys, rfl, hsel, hm2⟩, hc2⟩
  obtain ⟨hchosen, hres2⟩ := hsel.residents h1 hc2
  rw [hlist1, hres1] at hchosen hres2
  have hfree2 : m2.freelist = s.machine.freelist := by
    rw [hsel.swept.rest]
    exact hfree1
  rw [hmap1] at hm2
  have h2 : Paged c p m2 s.map (xs ++ i :: ys) := hm2.target
  obtain ⟨hi, v, hv, hT⟩ := h2.records.isFast_of_mem (i := i) (by simp)
  have hfile2 : (m2.proc p).swapFile ≠ none := by
    intro hnone
    exact hfile1 (hm2.swapFile_none hnone)
  refine wp_post (wp_and (moveToDisk_move h2 hT hslots hfile2)
    ((keepsCounters_code (c := c)).moveToDisk i m2)) ?_
  rintro r _ ⟨⟨rfl, t, ⟨pr, hpr, rfl⟩, hm3⟩, hc3⟩
  have hres3 := h2.evict_residents hT hpr hm3.target hc3
  have hvacate : c.vacate (s.machine.residents p s.list) =
      (c.stay (s.machine.residents p s.list) (s1.machine.resident p i),
        if (s1.machine.resident p i).refs = 1 then 1 else 0) := by
    have hfull : ¬ (s.machine.residents p s.list).length < maxPsycPages := by
      rw [Machine.residents, length_map, ← hlist1, hlen]
      exact lt_irrefl _
    rw [Config.vacate, if_neg hfull, hchosen]
  have e1 := fastCount_update (T := s.map) (.slow v t) hi
  have e2 := slowCount_update (T := s.map) (.slow v t) hi
  simp only [hT, Entry.isFast_fast, Entry.isFast_slow, Entry.isSlow_fast, Entry.isSlow_slow,
    Bool.toNat_true, Bool.toNat_false] at e1 e2
  refine ⟨rfl, _, rfl, (hm1.tail hm2).tail hm3, ?_, ?_, ?_, ?_, ?_, ?_, ?_⟩
  · intro w
    exact tracked_update hi (by simp [hT])
  · have hl2 := h2.records.length_eq
    rw [h2.records.ram, hram] at hl2
    intro hnil
    exfalso
    simp only [length_append, length_cons, append_eq_nil_iff] at hl2 hnil
    simp [hnil.1, hnil.2, maxPsycPages] at hl2
  · simp only; omega
  · simp only; omega
  · intro _; simp only; omega
  · rw [hvacate]
    exact hres3.trans hres2
  · have hpos : 0 < m2.referenceCounters (m2.pte p v).frame :=
      (h2.frame (lt_nuserPages hv) ((h2.present_iff (lt_nuserPages hv)).mpr ⟨i, hi, hT⟩)).2
    have hrefs : (s1.machine.resident p i).refs = m2.referenceCounters (m2.pte p v).frame := by
      rw [← hsel.refs h1 hc2 (hsel.perm.subset (by simp)), Machine.resident, h2.pageNo_eq hi hT]
    rw [hvacate, hrefs, ← hfree2, evict_freelist]
    split <;> split <;> simp <;> omega

/-! ## A process in order

    Making room, adding a page, the loop. -/

section Turns

variable (hs : Steady c p s) (hpages : c.pages p) (hfuel : 2 * maxTotalPages ≤ c.fuel)
  (hfirst : s.list = [] → (s.machine.proc p).prev 0 = none)
include hs hpages hfuel hfirst

theorem makeRoom_moves (hroom : fastCount maxTotalPages s.map + slowCount maxTotalPages s.map < maxTotalPages) :
    wp (makeRoom c p) (fun r m' => r = true ∧ ∃ s', s'.machine = m' ∧ Roomy c p s s') noStop
      s.machine := by
  by_cases hram : fastCount maxTotalPages s.map = maxPsycPages
  · exact makeRoom_evicts hs.paged hs.guarded hpages hfuel hs.file hram hroom
  · have hrec := hs.paged.records
    have hlt : fastCount maxTotalPages s.map < maxPsycPages := by
      have := hs.quota.ram_le
      omega
    simp only [makeRoom, if_pos hpages, wp_bind, wp_getProc, hrec.ram, if_neg hram, wp_pure]
    have hvacate : c.vacate (s.machine.residents p s.list) = (s.machine.residents p s.list, 0) := by
      rw [Config.vacate, if_pos]
      rwa [Machine.residents, length_map, hrec.length_eq, hrec.ram]
    refine ⟨trivial, s, rfl, .refl, fun _ => Iff.rfl, hfirst, rfl, hlt, ?_, by rw [hvacate],
      by rw [hvacate]; rfl⟩
    intro hpos
    exact absurd (hs.quota.full hpos) hram

/-- One turn of the loop of `allocuvm` while entries are left. -/
theorem allocPage_moves (hroom : fastCount maxTotalPages s.map + slowCount maxTotalPages s.map < maxTotalPages)
    (hv : v < maxTotalPages) (hnew : ¬ Tracked s.map v)
    (hsupply : ∀ m', makeRoom c p s.machine = .ok true m' → m'.freelist ≠ []) :
    wp (allocPage c p (s.machine.proc p).pgdir oldsz newsz (pgsize * v)) (fun r m' => r = true ∧
      ∃ s' : Space, s'.machine = m' ∧ Moves c p s s' ∧ Quota s'.map ∧
        (∀ w, Tracked s'.map w ↔ w = v ∨ Tracked s.map w) ∧
        s'.machine.residents p s'.list = (c.vacate (s.machine.residents p s.list)).1 ++ [.new c v] ∧
        s'.machine.freelist.length + 1 =
          s.machine.freelist.length + (c.vacate (s.machine.residents p s.list)).2) noStop s.machine := by
  simp only [allocPage, wp_bind]
  refine wp_post (wp_run (makeRoom_moves hs hpages hfuel hfirst hroom)) ?_
  rintro r m1 ⟨hrun, rfl, s1, rfl, hr⟩
  have h1 : Paged c p s1.machine s1.map s1.list := hr.moves.target hs.paged
  obtain ⟨f, rest, hf⟩ := exists_cons_of_ne_nil (hsupply _ hrun)
  have hnew1 : ¬ Tracked s1.map v := fun ht => hnew ((hr.tracked v).mp ht)
  have hp1 : (s1.machine.pte p v).p = false := by
    by_contra hp
    obtain ⟨i, hi, hT⟩ := (h1.present_iff (lt_nuserPages hv)).mp (by simpa using hp)
    exact hnew1 ⟨i, hi, by simp [hT]⟩
  have hpgdir : (s.machine.proc p).pgdir = (s1.machine.proc p).pgdir := hr.moves.kept.pgdir.symm
  simp only [if_true, wp_bind, wp_kalloc]
  refine ⟨fun hnil => by simp [hf] at hnil, ?_⟩
  intro f' rest' hf'
  rw [hf] at hf'
  cases hf'
  simp only [wp_modify, hpgdir]
  rw [wp_mappages_mapped _ (by simpa using h1.live) (by simpa using h1.mapped hv)
    (by simpa [Machine.pte] using hp1)]
  simp only [if_true, if_pos hpages, wp_bind, vpn_mul, wp_pure]
  refine wp_post (addPage_move h1 (fun hnil => ⟨hr.free_of_nil h1 hnil, hr.first hnil⟩)
    (by rw [hr.total]; exact hroom) hv hnew1 hf) ?_
  rintro _ m' ⟨i, hi, hT, hm, -, hres, hfree⟩
  have e1 := fastCount_update (T := s1.map) (.fast v) hi
  have e2 := slowCount_update (T := s1.map) (.fast v) hi
  simp only [hT, Entry.isFast_fast, Entry.isFast_free, Entry.isSlow_fast, Entry.isSlow_free,
    Bool.toNat_true, Bool.toNat_false] at e1 e2
  have hlt := hr.ram_lt
  have hfull := hr.full
  have htotal := hr.total
  refine ⟨trivial, _, rfl, hr.moves.tail hm, ⟨?_, ?_, ?_⟩, ?_, by rw [hres, hr.residents], ?_⟩
  · simp only; omega
  · simp only
    by_cases hz : 0 < slowCount maxTotalPages s1.map
    · have := hfull hz
      omega
    · simp only [maxPsycPages, maxTotalPages] at *
      omega
  · intro hpos
    simp only at hpos ⊢
    have := hfull (by omega)
    omega
  · intro w
    rw [tracked_add hi hT, hr.tracked]
  · rw [hfree, ← hr.frames, hf, length_cons]

/-- Whether `kalloc` will succeed is known before the loop: from the free frames and the pages in
    RAM. -/
theorem allocSupplied_iff (hsh : Shape s.map n b) (hk : n + k ≤ b) :
    allocSupplied c p (s.machine.proc p).pgdir oldsz newsz k (pgsize * n) s.machine ↔
      c.demand k n (s.machine.residents p s.list) ≤ s.machine.freelist.length := by
  induction k generalizing s n with
  | zero => simp [allocSupplied, Config.demand]
  | succ k ih =>
    have htotal := hsh.total hs.paged.records
    have hmax := hsh.le_max
    have hnew : ¬ Tracked s.map n := by rw [hsh.iff]; omega
    obtain ⟨_, _, hroom, rfl, s1, rfl, hr⟩ := wp_noStop_iff.mp
      (makeRoom_moves hs hpages hfuel hfirst (by omega))
    have hframes := hr.frames
    simp only [allocSupplied, hroom, Config.demand]
    by_cases hnil : s1.machine.freelist = []
    · rw [hnil, length_nil] at hframes
      exact ⟨fun hsup => absurd hnil hsup.1, fun hle => by omega⟩
    have hturn : wp (allocPage c p (s.machine.proc p).pgdir oldsz newsz (pgsize * n)) _ noStop s.machine :=
      allocPage_moves hs hpages hfuel hfirst (by omega) (by omega) hnew
        (fun m' hrun => by rw [hroom] at hrun; cases hrun; exact hnil)
    obtain ⟨_, _, hrun, rfl, s2, rfl, hm2, hq2, htr, hres2, hfree2⟩ := wp_noStop_iff.mp hturn
    have hs2 := hm2.steady hs hq2
    have hne2 : s2.list ≠ [] := hs2.ram_pos ((htr n).mpr (.inl rfl))
    have hnext := ih hs2 (fun hnil => absurd hnil hne2) (hsh.add (by omega) htr) (by omega)
    rw [hm2.kept.pgdir, Nat.mul_succ, hres2] at hnext
    simp only [hrun, hnext]
    exact ⟨fun hle => by omega, fun hle => ⟨hnil, by omega⟩⟩

/-- The loop adds its pages, or stops where the entries end. -/
theorem allocLoop_moves (hsh : Shape s.map n b)
    (hsup : allocSupplied c p (s.machine.proc p).pgdir oldsz newsz (min k (b - n)) (pgsize * n)
      s.machine) :
    wp (allocLoop c p (s.machine.proc p).pgdir oldsz newsz k (pgsize * n)) (fun r m' =>
      ∃ s' : Space, s'.machine = m' ∧ Moves c p s s' ∧ Quota s'.map ∧
        ((r = newsz ∧ Shape s'.map (n + k) b) ∨ (r = 0 ∧ Shape s'.map b b))) noStop s.machine := by
  induction k generalizing s n with
  | zero => exact ⟨s, rfl, .refl, hs.quota, .inl ⟨rfl, hsh⟩⟩
  | succ k ih =>
    have htotal := hsh.total hs.paged.records
    have hle := hsh.le
    have hmax := hsh.le_max
    simp only [allocLoop, wp_bind]
    by_cases hnb : n = b
    · -- All entries are in use: the turn gives up before it changes anything.
      subst hnb
      simp only [allocPage, wp_bind]
      refine wp_post (makeRoom_full hs hpages (by omega)) ?_
      rintro r m' ⟨rfl, rfl⟩
      simp only [Bool.false_eq_true, if_false, wp_pure]
      exact ⟨s, rfl, .refl, hs.quota, .inr ⟨trivial, hsh⟩⟩
    · have hnew : ¬ Tracked s.map n := by rw [hsh.iff]; omega
      have hmin : min (k + 1) (b - n) = min k (b - (n + 1)) + 1 := by omega
      rw [hmin] at hsup
      refine wp_post (wp_run (allocPage_moves hs hpages hfuel hfirst (by omega) (by omega) hnew
        (fun _ => hsup.room))) ?_
      rintro r m1 ⟨hrun, rfl, s1, rfl, hm1, hq1, htr, -⟩
      have hsup1 := hsup.next hrun
      have hnext : pgsize * n + pgsize = pgsize * (n + 1) := by rw [Nat.mul_succ]
      rw [hnext, ← hm1.kept.pgdir] at hsup1
      simp only [if_true, hnext]
      rw [← hm1.kept.pgdir]
      have hs1 := hm1.steady hs hq1
      have hne1 : s1.list ≠ [] := hs1.ram_pos ((htr n).mpr (.inl rfl))
      refine wp_post (ih hs1 (fun hnil => absurd hnil hne1) (hsh.add (by omega) htr) hsup1) ?_
      rintro r m' ⟨s', rfl, hm, hq, hres⟩
      refine ⟨s', rfl, hm1.trans hm, hq, ?_⟩
      rwa [Nat.add_right_comm n 1 k] at hres

end Turns

/-! ## Sizes -/

/-- The turns that `allocuvm` makes. -/
theorem npages_add (h : sz ≤ newsz) :
    npages sz + (newsz - pgsize * npages sz + (pgsize - 1)) / pgsize = npages newsz := by
  simp only [npages, pgsize]
  omega

/-- A page of the process is one with an entry. -/
structure Running (c : Config) (p : Nat) (s : Space) : Prop extends Steady c p s where
  shape : ∃ b, Shape s.map (npages (s.machine.proc p).sz) b
  sz_pos : 0 < (s.machine.proc p).sz

theorem Running.sz_le (h : Running c p s) : (s.machine.proc p).sz ≤ pgsize * maxTotalPages := by
  obtain ⟨b, hb⟩ := h.shape
  have h1 := hb.le
  have h2 := hb.le_max
  simp only [npages, pgsize, maxTotalPages] at *
  omega

theorem Running.npages_pos (h : Running c p s) : 0 < npages (s.machine.proc p).sz := by
  have := h.sz_pos
  simp only [npages, pgsize]
  omega

theorem Running.tracked (h : Running c p s) {va : Nat} (hva : va < (s.machine.proc p).sz) :
    Tracked s.map (vpn va) := by
  obtain ⟨b, hb⟩ := h.shape
  refine (hb.iff _).mpr (.inl ?_)
  simp only [npages, vpn, pgsize]
  omega

/-- `kalloc` succeeds in `growproc`. -/
def growSupplied (c : Config) (p : Nat) (n : Int) (m : Machine) : Prop :=
  let sz := (m.proc p).sz
  let newsz := ((sz + n) % 2 ^ 32).toNat
  allocSupplied c p (m.proc p).pgdir sz newsz
    ((newsz - pgroundup sz + (pgsize - 1)) / pgsize) (pgroundup sz) m

instance (c : Config) (p : Nat) (n : Int) (m : Machine) : Decidable (growSupplied c p n m) :=
  inferInstanceAs (Decidable (allocSupplied _ _ _ _ _ _ _ _))

/-- The outcome of a growth: moves, and a new size. -/
def Grown (c : Config) (p : Nat) (s : Space) (m' : Machine) : Prop :=
  ∃ (s1 : Space) (sz b : Nat), Moves c p s s1 ∧ Quota s1.map ∧ (s.machine.proc p).sz ≤ sz ∧
    Shape s1.map (npages sz) b ∧ m' = s1.machine.setProc p ((s1.machine.proc p).setSz sz)

theorem setSz_self (m : Machine) (p : Nat) : m.setProc p ((m.proc p).setSz (m.proc p).sz) = m :=
  Machine.setProc_self m p

theorem setSz_pte (w : Nat) :
    (m.setProc p ((m.proc p).setSz sz)).pte p w = m.pte p w :=
  setProc_pte ((m.proc p).setSz sz) rfl w

theorem Steady.setSz (hs : Steady c p s) (sz : Nat) :
    Steady c p ⟨s.machine.setProc p ((s.machine.proc p).setSz sz), s.map, s.list⟩ := by
  have h := hs.paged
  have hrec : ((s.machine.proc p).setSz sz).Records s.map s.list :=
    { h.records with listed := ⟨h.listed.isList, h.listed.lt⟩ }
  refine ⟨h.setProc hrec rfl rfl h.opened, ?_, ?_, hs.quota, ?_, ?_⟩
  · intro v w hv hw huv huw
    rw [setSz_pte] at huv huw
    exact hs.guarded v w hv hw huv huw
  · intro v hv
    rw [setSz_pte]
    exact hs.writable v hv
  · simpa [Proc.setSz] using hs.file
  · simpa [Proc.setSz] using hs.alive

/-- Growing by a positive number of bytes. -/
theorem growproc_grow {k : Int} (hs : Running c p s) (hpages : c.pages p)
    (hfuel : 2 * maxTotalPages ≤ c.fuel) (hk : 0 < k) (hsup : growSupplied c p k s.machine) :
    wp (growproc c p k) (fun _ m' => Grown c p s m') noStop s.machine := by
  obtain ⟨b, hb⟩ := hs.shape
  have hszle := hs.sz_le
  have hround : pgroundup (s.machine.proc p).sz = pgsize * npages (s.machine.proc p).sz :=
    pgroundup_eq (by simp only [pgsize, maxTotalPages] at *; omega)
  -- Where the size stays, nothing happens at all.
  have hstay : Grown c p s s.machine :=
    ⟨s, (s.machine.proc p).sz, b, .refl, hs.quota, le_refl _, hb, (setSz_self _ _).symm⟩
  simp only [growSupplied, hround] at hsup
  simp only [growproc, wp_bind, wp_getProc, if_pos hk, allocuvm]
  generalize (((s.machine.proc p).sz + k) % 2 ^ 32).toNat = newsz at hsup ⊢
  by_cases hkern : kernbase ≤ newsz
  · simp only [if_pos hkern, wp_pure, if_true]
    exact hstay
  rw [if_neg hkern]
  by_cases hless : newsz < (s.machine.proc p).sz
  · have hpos := hs.sz_pos
    simp only [if_pos hless, wp_pure, if_neg (Nat.pos_iff_ne_zero.mp hpos), wp_bind, wp_modifyProc]
    rw [setSz_self]
    exact hstay
  rw [if_neg hless, hround]
  have hne : s.list ≠ [] := hs.ram_pos ((hb.iff 0).mpr (.inl hs.npages_pos))
  refine wp_post (allocLoop_moves hs.toSteady hpages hfuel (fun hnil => absurd hnil hne) hb
    (hsup.mono (Nat.min_le_left _ _))) ?_
  rintro r m' ⟨s1, rfl, hm, hq, ⟨rfl, hsh⟩ | ⟨rfl, hsh⟩⟩
  · have hpos := hs.sz_pos
    rw [npages_add (by omega)] at hsh
    simp only [if_neg (show ¬ r = 0 by omega), wp_bind, wp_modifyProc, wp_pure]
    exact ⟨s1, r, b, hm, hq, by omega, hsh, rfl⟩
  · simp only [if_true, wp_pure]
    refine ⟨s1, (s.machine.proc p).sz, _, hm, hq, le_refl _, hsh.shrink hb.le, ?_⟩
    rw [← hm.kept.sz, setSz_self]

end Xv6Paging
