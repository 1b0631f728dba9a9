import Xv6Paging.Lease
import Xv6Paging.Sbrk

/-! # Copying and releasing an address space (`copyuvm`, `freevm`)

    `copyuvm` takes frames for the new directory and for page tables on demand and raises the
    counts of the frames it shares. `freevm` walks the whole user half, jumps over the page
    tables that are missing, and gives everything back.
-/

namespace Xv6Paging

open List Wp Function

variable {c : Config} {p d D : Nat} {m0 m m' : Machine} {v w : Nat}
  {table : Nat → Option Nat} {k n sz : Nat} {found : Bool} {E : Stop → Machine → Prop}
  {ks : List Nat}

/-! ## The loop of `freevm` -/

/-- The user pages from page `v` on whose PTE exists, given the page tables of a directory. -/
def visited (table : Nat → Option Nat) (v : Nat) : List Nat :=
  (List.range' v (nuserPages - v)).filter fun w => (table (w / nptentries)).isSome

theorem mem_visited :
    w ∈ visited table v ↔ v ≤ w ∧ w < nuserPages ∧ table (w / nptentries) ≠ none := by
  simp only [visited, mem_filter, mem_range'_1, Option.isSome_iff_ne_none]
  constructor
  · rintro ⟨⟨hle, hlt⟩, ht⟩
    exact ⟨hle, by omega, ht⟩
  · rintro ⟨hle, hlt, ht⟩
    exact ⟨⟨hle, by omega⟩, ht⟩

theorem visited_nodup (table : Nat → Option Nat) (v : Nat) : (visited table v).Nodup :=
  List.Nodup.filter _ nodup_range'

theorem visited_end (table : Nat → Option Nat) (hv : nuserPages ≤ v) : visited table v = [] := by
  rw [visited, Nat.sub_eq_zero_of_le hv]
  rfl

theorem visited_cons (hv : v < nuserPages) :
    visited table v = if (table (v / nptentries)).isSome then v :: visited table (v + 1)
      else visited table (v + 1) := by
  have hlen : nuserPages - v = (nuserPages - (v + 1)) + 1 := by omega
  rw [visited, hlen, range'_succ, filter_cons]
  rfl

/-- The pages of a missing table are not visited. -/
theorem visited_skip (ht : table (v / nptentries) = none)
    (hk : (v + k) ≤ nptentries * (v / nptentries + 1)) (hlt : v + k ≤ nuserPages) :
    visited table v = visited table (v + k) := by
  induction k with
  | zero => rfl
  | succ k ih =>
    have hsame : (v + k) / nptentries = v / nptentries := by
      simp only [nptentries] at *
      omega
    rw [ih (by omega) (by omega), visited_cons (by omega), hsame, ht]
    rfl

attribute [irreducible] visited

/-- What `deallocuvm` does with the pages `vs` of a directory that is not the running
    process's. -/
def sweep (c : Config) (d : Nat) : List Nat → K Unit
  | [] => pure ()
  | v :: vs => do
    let pte ← getPte d v
    if pte.p = true then
      if pte.frame = 0 then
        throw (.panic "kfree (deallocuvm)")
      else
        kfree c pte.frame
        setPte d v Pte.zero
        sweep c d vs
    else
      sweep c d vs

/-- A present page of a directory that is not the running process's has no entry to give up. -/
theorem wp_deallocPresent_foreign {a : Nat} {Q : Bool → Machine → Prop}
    (hpgdir : (m.proc p).pgdir ≠ d) :
    wp (deallocPresent c p d a v found) Q E m ↔
      wp (if ((m.dirs d).pte v).frame = 0 then throw (.panic "kfree (deallocuvm)")
        else do
          kfree c ((m.dirs d).pte v).frame
          setPte d v Pte.zero) (fun _ m' => Q found m') E m := by
  rw [deallocPresent, wp_bind, wp_getPte]
  by_cases hframe : ((m.dirs d).pte v).frame = 0
  · rw [if_pos hframe, if_pos hframe]
    exact Iff.rfl
  · rw [if_neg hframe, if_neg hframe, wp_bind, wp_bind, wp_kfree, wp_kfree]
    have hno : ∀ f, ¬ (c.selection ≠ .NONE ∧
        (((m.dropRef f).setPte d v Pte.zero).proc p).pgdir = d) := fun f h => hpgdir h.2
    simp only [wp_bind, wp_setPte, wp_getProc, if_neg (hno _), wp_pure]

/-- The loop of `deallocuvm` over a directory that is not the running process's visits each page
    whose PTE exists once, in the order of the addresses. -/
theorem wp_deallocLoop_foreign {fuel : Nat} {Q : Unit → Machine → Prop}
    (hl : (m.dirs d).live = true) (hpgdir : (m.proc p).pgdir ≠ d) (hfuel : nuserPages - v < fuel) :
    wp (deallocLoop c p d kernbase fuel (pgsize * v) found) Q E m ↔
      wp (sweep c d (visited (m.dirs d).table v)) Q E m := by
  induction fuel generalizing m v found with
  | zero => omega
  | succ fuel ih =>
    rw [deallocLoop]
    by_cases hv : v < nuserPages
    · have hlt : pgsize * v < kernbase := by
        simp only [pgsize, kernbase, nuserPages] at *
        omega
      have hpdx : pdx (pgsize * v) = v / nptentries := by rw [pdx, pgsize_mul_div]
      have hnext : pgsize * v + pgsize = pgsize * (v + 1) := by rw [Nat.mul_succ]
      rw [if_pos hlt, wp_bind, wp_walkpgdir, hpdx]
      simp only [hl, not_true_eq_false, false_implies, and_true, true_implies]
      cases ht : (m.dirs d).table (v / nptentries) with
      | none =>
        -- The loop goes on behind the missing table.
        obtain ⟨k, hk⟩ : ∃ k, nptentries * (v / nptentries + 1) = v + k := by
          refine ⟨nptentries * (v / nptentries + 1) - v, ?_⟩
          simp only [nptentries]
          omega
        have hle : v + k ≤ nuserPages ∧ v < v + k := by
          simp only [nptentries, nuserPages] at *
          omega
        rw [nextTable_mul hv, hk, visited_skip ht hk.ge hle.1]
        simp only [forall_const, ne_eq, not_true_eq_false, false_implies, and_true]
        exact ih hl hpgdir (by omega)
      | some t =>
        rw [visited_cons hv, ht]
        simp only [reduceCtorEq, false_implies, ne_eq, not_false_eq_true, true_implies, true_and,
          vpn_mul, Option.isSome_some, if_true, sweep, wp_bind, wp_getPte, wp_getProc]
        by_cases hp : ((m.dirs d).pte v).p = true
        · -- Behind the page that goes the tables are the same.
          have hrest : ∀ f, wp (deallocLoop c p d kernbase fuel (pgsize * (v + 1)) found) Q E
                ((m.dropRef f).setPte d v Pte.zero) ↔
              wp (sweep c d (visited (m.dirs d).table (v + 1))) Q E
                ((m.dropRef f).setPte d v Pte.zero) := by
            intro f
            have hl' : (((m.dropRef f).setPte d v Pte.zero).dirs d).live = true := by simpa using hl
            rw [ih hl' hpgdir (by omega), setPte_table]
            exact Iff.rfl
          rw [if_pos hp, if_pos hp, wp_bind, wp_deallocPresent_foreign hpgdir, hnext]
          by_cases hframe : ((m.dirs d).pte v).frame = 0
          · rw [if_pos hframe, if_pos hframe]
            exact Iff.rfl
          · rw [if_neg hframe, if_neg hframe, wp_bind, wp_bind, wp_kfree, wp_kfree]
            simp only [wp_bind, wp_setPte, hrest]
        · have hno : ¬ (c.selection ≠ .NONE ∧ ((m.dirs d).pte v).pg = true ∧
              (m.proc p).pgdir = d) := fun h => hpgdir h.2.2
          rw [if_neg hp, if_neg hp, if_neg hno, hnext]
          exact ih hl hpgdir (by omega)
    · have hge : ¬ pgsize * v < kernbase := by
        simp only [pgsize, kernbase, nuserPages] at *
        omega
      rw [if_neg hge, visited_end _ (by omega)]
      exact Iff.rfl

/-! ## Giving everything back -/

/-- Each page that is visited and present gives its frame back. -/
theorem sweep_lent {vs : List Nat} (h : Lent c d D m0 m []) (hkend : 0 < c.kend)
    (hl : (m.dirs d).live = true)
    (hvs : ∀ v ∈ vs, v < nuserPages ∧ (m.dirs d).table (v / nptentries) ≠ none) :
    wp (sweep c d vs) (fun _ m' => Lent c d D m0 m' [] ∧ Cleared d m m' ∧
      ∀ v ∈ vs, ((m'.dirs d).pte v).p = false) noStop m := by
  induction vs generalizing m with
  | nil => exact ⟨h, .refl d m, nofun⟩
  | cons v vs ih =>
    obtain ⟨hv, ht⟩ := hvs v (by simp)
    have hvs' : ∀ w ∈ vs, w < nuserPages ∧ (m.dirs d).table (w / nptentries) ≠ none :=
      fun w hw => hvs w (mem_cons_of_mem v hw)
    -- The other pages, once page `v` is not present.
    have hrest : ∀ m1, Lent c d D m0 m1 [] → Cleared d m m1 → ((m1.dirs d).pte v).p = false →
        wp (sweep c d vs) (fun _ m' => Lent c d D m0 m' [] ∧ Cleared d m m' ∧
          ∀ w ∈ v :: vs, ((m'.dirs d).pte w).p = false) noStop m1 := by
      intro m1 h1 hc1 hp1
      refine wp_post (ih h1 (by rw [hc1.live]; exact hl) (by rw [hc1.table]; exact hvs')) ?_
      rintro _ m2 ⟨h2, hc2, hclear⟩
      refine ⟨h2, hc1.trans hc2, fun w hw => ?_⟩
      rcases mem_cons.mp hw with rfl | hw
      · by_contra hp
        rw [hc2.pte w (by simpa using hp)] at hp1
        cases hp1
      · exact hclear w hw
    rw [sweep, wp_bind, wp_getPte]
    by_cases hp : ((m.dirs d).pte v).p = true
    · have hun := h.unmap hv (PageDir.maps_iff.mpr ⟨hl, ht, hp⟩)
      obtain ⟨hman, hpos'⟩ := hun.pos_of_flight
      have hpos : 0 < m.referenceCounters ((m.dirs d).pte v).frame := hpos'
      have hframe : ((m.dirs d).pte v).frame ≠ 0 := by
        have := hman.1
        omega
      rw [if_pos hp, if_neg hframe, wp_bind, wp_kfree_of_pos _ hman hpos, wp_bind, wp_setPte]
      exact hrest _ hun.drop (.drop m d v _) (by simp [Pte.zero])
    · rw [if_neg hp]
      exact hrest m h (.refl d m) (by simpa using hp)

theorem lent_dirRules : DirRules c d (Lent c d D m0) noStop where
  kfree h := (wp_kfree_of_pos _ h.pos_of_flight.1 h.pos_of_flight.2).mpr ⟨rfl, h.drop⟩
  kernelTable h hf hl hnone hlow hk := h.kernelTable hf hl hnone hlow hk
  delTable h hl hk hlt hclear := h.delTable hl hk hlt hclear
  killDir h hl hnone := h.killDir hl hnone
  global g h := h.global g

/-- `freevm` returns, and has given back all that the directory had borrowed. -/
theorem freevm_returned (h : Lent c d D m0 m []) (h0 : Consistent c m0) (hkend : 0 < c.kend)
    (hl : (m.dirs d).live = true) (hpgdir : (m.proc p).pgdir ≠ d) :
    wp (freevm c p d) (fun _ m' => Returned c d D m0 m') noStop m := by
  have hd : d ≠ 0 := by
    have hman : managed c d := h.balanced.target_ok dir_mem_placesOf (if_pos hl)
    have := hman.1
    omega
  rw [freevm, if_neg hd]
  simp only [wp_bind, wp_modify]
  have hks : ∀ k, k ∈ List.range npdentries ↔ k < npdentries := fun k => mem_range
  generalize List.range npdentries = ks at hks
  have h1 := h.global (some d)
  generalize hm1 : ({ m with globalPgdir := some d } : Machine) = m1 at h1
  have hl1 : (m1.dirs d).live = true := by rw [← hm1]; exact hl
  have hpgdir1 : (m1.proc p).pgdir ≠ d := by rw [← hm1]; exact hpgdir
  rw [deallocuvm, if_neg (by decide), wp_bind,
    show pgroundup 0 = pgsize * 0 by simp [pgroundup, pgsize]]
  rw [wp_deallocLoop_foreign hl1 hpgdir1 (by simp [kernbase, pgsize, nuserPages])]
  refine wp_post (sweep_lent h1 hkend hl1 fun v hv => (mem_visited.mp hv).2) ?_
  rintro _ m2 ⟨h2, hc2, hclear⟩
  rw [wp_pure]
  refine wp_post (lent_dirRules.release h2 (by rw [hc2.live]; exact hl1) ?_ hks) ?_
  · intro v hv ht
    rw [hc2.table] at ht
    exact hclear v (mem_visited.mpr ⟨Nat.zero_le v, hv, ht⟩)
  · exact fun _ _ h3 => wp_post h3 fun _ _ h4 => h4.1.returned h0 h4.2.2

theorem Returned.refl (d D : Nat) (m : Machine) : Returned c d D m m :=
  ⟨rfl, .refl _, rfl, fun _ _ _ => rfl, .refl _, fun _ _ _ => rfl⟩

/-! ## A new directory -/

/-- Directory `d` has page tables for the pages below page `v` and no page from `v` on. When it
    was new there were `n` free frames. -/
structure Filling (c : Config) (d D : Nat) (m0 m : Machine) (n v : Nat) : Prop where
  lent : Lent c d D m0 m []
  live : (m.dirs d).live = true
  absent : ∀ w, v ≤ w → w < nuserPages → ((m.dirs d).pte w).p = false
  table : ∀ k, k * nptentries < nuserPages → ((m.dirs d).table k ≠ none ↔ k * nptentries < v)
  count : m.freelist.length + (v + (nptentries - 1)) / nptentries = n

/-- Frames that `setupkvm` takes: the directory and the page tables of the kernel half. -/
def setupkvmFrames : Nat := kmapSlots.length + 1

/-- `setupkvm` returns a directory to be filled, or has given everything back. -/
theorem setupkvm_filling (h0 : Consistent c m0) (hkend : 0 < c.kend) (hD : D ∉ m0.freelist)
    (hp : (m0.proc p).pgdir ∉ m0.freelist) :
    wp (setupkvm c p) (fun r m' =>
      (r = none → m0.freelist.length < setupkvmFrames ∧ ∃ d, Returned c d D m0 m') ∧
      (∀ d, r = some d → d ∈ m0.freelist ∧ ∃ n, m0.freelist.length = setupkvmFrames + n ∧
        Filling c d D m0 m' n 0)) noStop m0 := by
  rw [setupkvm, wp_bind, wp_kalloc]
  refine ⟨fun hnil => ?_, fun d rest hf => ?_⟩
  · rw [wp_pure]
    exact ⟨fun _ => ⟨by simp [hnil, setupkvmFrames], 0, .refl 0 D m0⟩, by rintro _ ⟨⟩⟩
  have hmem : d ∈ m0.freelist := by simp [hf]
  have hne : D ≠ d := fun heq => hD (heq ▸ hmem)
  have hpgdir : (m0.proc p).pgdir ≠ d := fun heq => hp (heq ▸ hmem)
  have h1 := Lent.start h0 hf hne
  have hdir : ((m0.takeFrame d rest).setDir d (PageDir.fresh c)).dirs d = PageDir.fresh c := by simp
  have hlen : m0.freelist.length =
      ((m0.takeFrame d rest).setDir d (PageDir.fresh c)).freelist.length + 1 := by
    rw [hf]
    rfl
  simp only [wp_bind, wp_modify, setupkvmFrames]
  have hnd := kmapSlots_nodup
  have hrange := kmapSlots_range
  generalize kmapSlots = ks at hnd hrange
  refine wp_post (lent_dirRules.mapKernel hnd ?_ (by rw [hdir]; rfl) h1) ?_
  · intro k hk
    exact ⟨(hrange k hk).1, (hrange k hk).2, by rw [hdir]; rfl⟩
  rintro ok m2 ⟨h2, -, hl2, hpte2, htable2, hres⟩
  rw [wp_ite]
  refine ⟨fun hok => ?_, fun hok => ?_⟩
  · rw [wp_pure]
    refine ⟨by rintro ⟨⟩, fun e he => ?_⟩
    cases he
    refine ⟨hmem, m2.freelist.length, ?_, h2, hl2, fun w _ hw => ?_, fun k hk => ?_, ?_⟩
    · have := hres.resolve_right (by simp [hok])
      omega
    · rw [hpte2, hdir]
      simp [PageDir.fresh, kmapPte, hw, Pte.zero]
    · rw [htable2 k hk, hdir]
      simp [PageDir.fresh]
    · simp [nptentries]
  · rw [wp_bind]
    have hpgdir2 : (m2.proc p).pgdir ≠ d := by
      rw [h2.rest]
      exact hpgdir
    refine wp_post (freevm_returned h2 h0 hkend hl2 hpgdir2) ?_
    intro _ m3 h3
    rw [wp_pure]
    have := hres.resolve_left (by simp [hok])
    exact ⟨fun _ => ⟨by omega, d, h3⟩, by rintro _ ⟨⟩⟩

/-! ## Filling it -/

/-- The parent's address space as far as `copyuvm` reads it: the pages below `sz` are in frames
    in use or in the swap file. -/
structure Copyable (c : Config) (D sz : Nat) (m : Machine) : Prop where
  live : (m.dirs D).live = true
  le : sz ≤ kernbase
  mapped : ∀ v, pgsize * v < sz → (m.dirs D).table (v / nptentries) ≠ none ∧
    (((m.dirs D).pte v).p = true ∨ ((m.dirs D).pte v).pg = true)
  frame : ∀ v, pgsize * v < sz → ((m.dirs D).pte v).p = true →
    managed c ((m.dirs D).pte v).frame ∧ m.referenceCounters ((m.dirs D).pte v).frame ≠ 0
  held : D ∉ m.freelist

/-- The page table for page `v` of the new directory: it is there or is made of a free frame. -/
theorem walkpgdir_filling (h : Filling c d D m0 m n v)
    (hv : v < nuserPages) (hnone : v = nptentries * n → Q none m)
    (hsome : ∀ m', Lent c d D m0 m' [] → (m'.dirs d).live = true → (m'.dirs d).table (v / nptentries) ≠ none →
      (∀ w, v ≤ w → w < nuserPages → ((m'.dirs d).pte w).p = false) →
      (∀ k, k * nptentries < nuserPages → ((m'.dirs d).table k ≠ none ↔ k * nptentries < v + 1)) →
      m'.freelist.length + (v + 1 + (nptentries - 1)) / nptentries = n → Q (some v) m') :
    wp (walkpgdir d (v * pgsize) true) Q E m := by
  have hpdx : pdx (v * pgsize) = v / nptentries := by rw [pdx, Nat.mul_div_cancel _ pgsize_pos]
  have hvpn : vpn (v * pgsize) = v := by simp [vpn]
  have hk : v / nptentries * nptentries < nuserPages := by
    simp only [nptentries, nuserPages] at *
    omega
  have hcount := h.count
  have htab := h.table (v / nptentries) hk
  simp only [walkpgdir, wp_bind, wp_get, h.live, if_true, hpdx, hvpn]
  cases ht : (m.dirs d).table (v / nptentries) with
  | some t =>
    rw [wp_pure]
    have hlt : v / nptentries * nptentries < v := htab.mp (by simp [ht])
    refine hsome m h.lent h.live (by simp [ht]) h.absent (fun k hk' => ?_) ?_
    · rw [h.table k hk']
      simp only [nptentries] at *
      omega
    · simp only [nptentries] at *
      omega
  | none =>
    have hge : ¬ v / nptentries * nptentries < v := fun hlt => htab.mpr hlt ht
    rw [wp_bind, wp_kalloc]
    refine ⟨fun hnil => ?_, fun f rest hf => ?_⟩
    · rw [wp_pure]
      refine hnone ?_
      rw [hnil] at hcount
      simp only [nptentries, length_nil] at *
      omega
    · simp only [wp_bind, wp_modify, wp_pure]
      have hdir : ((m.takeFrame f rest).addTable d (v / nptentries) f).dirs d =
          ⟨(m.dirs d).live, update (m.dirs d).table (v / nptentries) (some f),
            fun w => if w / nptentries = v / nptentries then Pte.zero else (m.dirs d).pte w⟩ := by
        simp [Machine.addTable]
      refine hsome _ (h.lent.table hf h.live ht hk) (by rw [hdir]; exact h.live) (by rw [hdir]; simp)
        (fun w hvw hw => ?_) (fun k hk' => ?_) ?_
      · rw [hdir]
        dsimp only
        split
        · rfl
        · exact h.absent w hvw hw
      · rw [hdir]
        by_cases hkv : k = v / nptentries
        · subst hkv
          simp only [update_self, ne_eq, reduceCtorEq, not_false_eq_true, true_iff]
          simp only [nptentries] at *
          omega
        · simp only [update_of_ne hkv, h.table k hk']
          simp only [nptentries] at *
          omega
      · have hlen : ((m.takeFrame f rest).addTable d (v / nptentries) f).freelist.length + 1 =
            m.freelist.length := by
          rw [hf]
          rfl
        simp only [nptentries] at *
        omega

/-- The entry of page `v` is written once its page table is there. -/
theorem Filling.setPte (h : Lent c d D m0 (m.setPte d v x) []) (hl : (m.dirs d).live = true)
    (habsent : ∀ w, v ≤ w → w < nuserPages → ((m.dirs d).pte w).p = false)
    (htable : ∀ k, k * nptentries < nuserPages → ((m.dirs d).table k ≠ none ↔ k * nptentries < v + 1))
    (hcount : m.freelist.length + (v + 1 + (nptentries - 1)) / nptentries = n) :
    Filling c d D m0 (m.setPte d v x) n (v + 1) := by
  refine ⟨h, by rwa [setPte_live], fun w hvw hw => ?_, fun k hk => by rw [setPte_table]; exact htable k hk,
    hcount⟩
  have hne : w ≠ v := by omega
  simpa [update_of_ne hne] using habsent w (by omega) hw

/-- The loop of `copyuvm` from page `v` on. Without a frame for a page table it fails at a present
    page and follows a null pointer at a page in the swap file. -/
theorem copyuvmLoop_filling (hcopy : Copyable c D sz m0) (h : Filling c d D m0 m n v)
    (hvk : v + k = npages sz) :
    wp (copyuvmLoop c D d k v) (fun ok m' => Lent c d D m0 m' [] ∧ (m'.dirs d).live = true ∧
        (ok = true → npages sz ≤ nptentries * n) ∧
        (ok = false → nptentries * n < npages sz ∧ ((m0.dirs D).pte (nptentries * n)).p = true))
      (fun e _ => e = .nullDeref ∧ nptentries * n < npages sz ∧
        ((m0.dirs D).pte (nptentries * n)).p = false) m := by
  induction k generalizing m v with
  | zero =>
    rw [copyuvmLoop, wp_pure]
    refine ⟨h.lent, h.live, fun _ => ?_, fun hf => by simp at hf⟩
    have hcount := h.count
    rw [Nat.add_zero] at hvk
    rw [hvk] at hcount
    simp only [nptentries] at *
    omega
  | succ k ih =>
    have hvn : v < npages sz := by omega
    have hlt : pgsize * v < sz := (npages_lt_iff sz v).mpr hvn
    have hle := hcopy.le
    have hv : v < nuserPages := by
      simp only [kernbase, pgsize, nuserPages] at *
      omega
    have hvpn : vpn (v * pgsize) = v := by simp [vpn]
    have hpdx : pdx (v * pgsize) = v / nptentries := by
      rw [pdx, Nat.mul_div_cancel _ pgsize_pos]
    obtain ⟨htD, hpp⟩ := hcopy.mapped v hlt
    have hparent := h.lent.parent
    rw [copyuvmLoop, wp_bind, wp_walkpgdir_mapped _ (by rw [hparent.live]; exact hcopy.live)
      (by rw [hpdx, hparent.table]; exact htD)]
    simp only [hvpn, wp_bind, wp_getPte]
    rw [wp_ite]
    refine ⟨fun hp => ?_, fun hp => ?_⟩
    · -- A present page is shared.
      have hp0 : ((m0.dirs D).pte v).p = true := by rwa [hparent.p] at hp
      obtain ⟨hman, hne⟩ := hcopy.frame v hlt hp0
      rw [← hparent.frame v] at hman hne
      have hD : D ≠ d := h.lent.ne
      have h1 : Filling c d D m0 (m.setPte D v ((m.dirs D).pte v).share) n v := by
        refine ⟨h.lent.sharePte hp, ?_, ?_, ?_, h.count⟩
        · rw [setPte_live]
          exact h.live
        · simpa [update_of_ne hD.symm] using h.absent
        · rw [setPte_table]
          exact h.table
      generalize (m.dirs D).pte v = pte at hman hne h1
      rw [wp_bind, wp_setPte, wp_bind, mappages, wp_bind]
      refine walkpgdir_filling h1 hv (fun hvn' => ?_) fun m2 h2 hl2 ht2 habs2 htab2 hcount2 => ?_
      · simp only [wp_pure, Bool.false_eq_true, if_false]
        rw [← hvn']
        exact ⟨h1.lent, h1.live, fun hf => by simp at hf, fun _ => ⟨hvn, hp0⟩⟩
      · have hp2 := habs2 v (le_refl v) hv
        simp only [wp_bind, wp_getPte, hp2, Bool.false_eq_true, if_false, wp_setPte, wp_pure,
          if_true, incrementRef, if_pos hman, wp_modify]
        have h3 : Lent c d D m0 ((m2.moreRef pte.frame).setPte d v (pte.share.mapTo pte.frame)) [] :=
          (h2.double hman hne).map (x := pte.share.mapTo pte.frame) hv hl2 ht2 hp2 rfl
        exact ih (Filling.setPte (m := m2.moreRef pte.frame) h3 hl2 habs2 htab2 hcount2) (by omega)
    · have hpg : ((m.dirs D).pte v).pg = true := by
        rw [hparent.pg]
        refine hpp.resolve_left ?_
        rwa [← hparent.p]
      have hp0 : ((m0.dirs D).pte v).p = false := by
        rw [← hparent.p]
        simpa using hp
      rw [if_pos hpg, wp_bind]
      refine walkpgdir_filling h hv (fun hvn' => ?_) fun m2 h2 hl2 _ habs2 htab2 hcount2 => ?_
      · rw [← hvn']
        exact ⟨rfl, hvn, hp0⟩
      · simp only [wp_bind, wp_setPte]
        have h3 := h2.setAbsent (x := { (m.dirs D).pte v with frame := 0 }) (habs2 v (le_refl v) hv)
          (by simpa using hp)
        exact ih (Filling.setPte h3 hl2 habs2 htab2 hcount2) (by omega)

/-- `copyuvm` runs out of frames at a page in the swap file: it needs a page table for the page
    and there is none left. -/
def Stuck (D sz : Nat) (m : Machine) : Prop :=
  ∃ r, m.freelist.length = setupkvmFrames + r ∧ nptentries * r < npages sz ∧
    ((m.dirs D).pte (nptentries * r)).p = false

/-- `copyuvm` returns a copy, or fails and has given everything back, or is stuck. -/
theorem copyuvm_cases (hcopy : Copyable c D sz m0) (h0 : Consistent c m0) (hkend : 0 < c.kend)
    (hp : (m0.proc p).pgdir ∉ m0.freelist) :
    wp (copyuvm c p D sz) (fun r m' =>
      (∀ d, r = some d → Lent c d D m0 m' [] ∧ (m'.dirs d).live = true ∧ d ∈ m0.freelist ∧
        ∃ n, m0.freelist.length = setupkvmFrames + n ∧ npages sz ≤ nptentries * n) ∧
      (r = none → (∃ d, Returned c d D m0 m') ∧ ¬ Stuck D sz m0))
      (fun e _ => e = .nullDeref ∧ Stuck D sz m0) m0 := by
  rw [copyuvm, wp_bind]
  refine wp_mono (setupkvm_filling h0 hkend hcopy.held hp) ?_ (fun _ _ hf => hf.elim)
  rintro r m1 ⟨hnone, hsome⟩
  cases r with
  | none =>
    obtain ⟨hlen, hret⟩ := hnone rfl
    rw [wp_pure]
    refine ⟨by rintro _ ⟨⟩, fun _ => ⟨hret, ?_⟩⟩
    rintro ⟨r, hr, -⟩
    omega
  | some d =>
    obtain ⟨hmem, n, hn, h1⟩ := hsome d rfl
    rw [wp_bind]
    refine wp_mono (copyuvmLoop_filling hcopy h1 (Nat.zero_add _)) ?_ ?_
    · rintro ok m2 ⟨h2, hl2, htrue, hfalse⟩
      rw [wp_ite]
      refine ⟨fun hok => ?_, fun hok => ?_⟩
      · rw [wp_pure]
        refine ⟨fun e he => ?_, by rintro ⟨⟩⟩
        cases he
        exact ⟨h2, hl2, hmem, n, hn, htrue hok⟩
      · obtain ⟨-, hpresent⟩ := hfalse (by simpa using hok)
        have hpgdir : (m2.proc p).pgdir ≠ d := by
          rw [h2.rest]
          exact fun heq => hp (heq ▸ hmem)
        rw [wp_bind]
        refine wp_mono (freevm_returned h2 h0 hkend hl2 hpgdir) ?_ (fun _ _ hf => hf.elim)
        intro _ m3 h3
        rw [wp_pure]
        refine ⟨by rintro _ ⟨⟩, fun _ => ⟨⟨d, h3⟩, ?_⟩⟩
        rintro ⟨r, hr, -, habsent⟩
        obtain rfl : r = n := by omega
        rw [hpresent] at habsent
        cases habsent
    · rintro e m2 ⟨he, hlt, habsent⟩
      exact ⟨he, n, hn, hlt, habsent⟩

/-! ## Copying and then releasing -/

/-- `deallocuvm` of the whole user half of `d`, called by process `q`, visits exactly the pages
    whose PTE exists, and each that is present once. -/
def SweepsOnce (c : Config) (q d : Nat) (m : Machine) : Prop :=
  deallocuvm c q d kernbase 0 m = (do sweep c d (visited (m.dirs d).table 0); pure 0) m ∧
  ∀ v < nuserPages, (m.dirs d).maps v = true → (visited (m.dirs d).table 0).count v = 1

theorem sweepsOnce (hl : (m.dirs d).live = true) (hpgdir : (m.proc q).pgdir ≠ d) : SweepsOnce c q d m := by
  refine ⟨eq_of_wp_iff fun Q E => ?_, fun v hv hmaps => ?_⟩
  · rw [deallocuvm, if_neg (by decide), wp_bind, wp_bind,
      show pgroundup 0 = pgsize * 0 by simp [pgroundup, pgsize]]
    exact wp_deallocLoop_foreign hl hpgdir (by simp [kernbase, pgsize, nuserPages])
  · have ht := (PageDir.maps_iff.mp hmaps).2.1
    exact count_eq_one_of_mem (visited_nodup _ _) (mem_visited.mpr ⟨Nat.zero_le v, hv, ht⟩)

/-- Copying an address space and releasing the copy, by a process with another directory, leaves
    counters and free frames as they were, and the parent's pages up to `PTE_COW`. -/
theorem freevm_copyuvm {sz : Nat} (hcopy : Copyable c D sz m) (h0 : Consistent c m)
    (hkend : 0 < c.kend) (hp : (m.proc p).pgdir ∉ m.freelist) :
    wp (copyuvm c p D sz) (fun r m1 => ∀ d, r = some d → ∀ q, (m1.proc q).pgdir ≠ d →
      SweepsOnce c q d { m1 with globalPgdir := some d } ∧
      wp (freevm c q d) (fun _ m2 => Returned c d D m m2) noStop m1) anyStop m := by
  refine wp_mono (copyuvm_cases hcopy h0 hkend hp) ?_ (fun _ _ _ => trivial)
  rintro r m1 ⟨hsome, -⟩ d hr q hq
  obtain ⟨h1, hl1, -⟩ := hsome d hr
  exact ⟨sweepsOnce hl1 hq, freevm_returned h1 h0 hkend hl1 hq⟩

/-- The sample process, with all the frames from 2000 on free. -/
theorem sample_consistent (sel : Selection) :
    Consistent (sampleConfig sel) (sample (sampleConfig sel) (nframes - 2000)) := by
  refine ⟨nodup_range', fun {f} => ?_⟩
  simp only [sample, mem_range'_1, managed, sampleConfig, nframes]
  split <;> omega

theorem sample_copyable (sel : Selection) :
    Copyable (sampleConfig sel) 900 (3 * pgsize) (sample (sampleConfig sel) (nframes - 2000)) := by
  have hlt : ∀ v, pgsize * v < 3 * pgsize → v < 3 := by
    intro v hv
    simp only [pgsize] at hv
    omega
  refine ⟨rfl, by decide, fun v hv => ?_, fun v hv _ => ?_, ?_⟩
  · have hv3 := hlt v hv
    have htab : v / nptentries = 0 := Nat.div_eq_of_lt (by simp only [nptentries]; omega)
    simp [sample, samplePte, htab, hv3]
  · have hv3 := hlt v hv
    simp only [sample, samplePte, managed, sampleConfig, nframes, hv3, if_true]
    rw [if_pos (by omega)]
    omega
  · simp [sample, nframes]

/-- The sample process is copied into directory 2000, and the copy released by process 3 itself. -/
theorem freevm_copyuvm_sample :
    ∃ m1, copyuvm (sampleConfig .SCFIFO) 3 900 (3 * pgsize)
        (sample (sampleConfig .SCFIFO) (nframes - 2000)) = .ok (some 2000) m1 ∧
      (m1.proc 3).pgdir ≠ 2000 ∧
      SweepsOnce (sampleConfig .SCFIFO) 3 2000 { m1 with globalPgdir := some 2000 } ∧
      wp (freevm (sampleConfig .SCFIFO) 3 2000) (fun _ m2 => Returned (sampleConfig .SCFIFO) 2000 900
        (sample (sampleConfig .SCFIFO) (nframes - 2000)) m2) noStop m1 := by
  have hcopied : Run.yields (copyuvm (sampleConfig .SCFIFO) 3 900 (3 * pgsize))
      (sample (sampleConfig .SCFIFO) (nframes - 2000)) (fun r => r = some 2000) = true := by
    decide +kernel
  obtain ⟨r, m1, hrun, hr⟩ := Run.exists_of_yields hcopied
  obtain rfl := of_decide_eq_true hr
  have hcopy := sample_copyable .SCFIFO
  have h0 := sample_consistent .SCFIFO
  have hp : sampleProc.pgdir ∉ List.range' 2000 (nframes - 2000) := by
    simp [sampleProc, nframes]
  obtain ⟨h1, -⟩ := ((wp_of_ok hrun).mp (copyuvm_cases hcopy h0 (by decide) hp)).1 2000 rfl
  have hpgdir : (m1.proc 3).pgdir ≠ 2000 := by
    rw [h1.rest]
    exact show 900 ≠ 2000 by decide
  exact ⟨m1, hrun, hpgdir,
    (wp_of_ok hrun).mp (freevm_copyuvm hcopy h0 (by decide) hp) 2000 rfl 3 hpgdir⟩

end Xv6Paging
