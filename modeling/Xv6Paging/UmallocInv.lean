import Xv6Paging.Umalloc

/-! # The heap of a user program

    Free blocks and the blocks of the program tile the memory that `sbrk` gave, and the free
    blocks are in a cycle in the order of their addresses, no two of them adjacent. `free`
    finds the one place in the cycle where its block belongs, wherever it starts, and `malloc`
    visits every free block before it asks for more.
-/

namespace Xv6Paging.Umalloc

open List Wp Run CircularList Tiling Function

/-- Address `x` is in memory that `sbrk` gave. -/
def InRegions (regions : List (Nat × Nat)) (x : Nat) : Prop := ∃ r ∈ regions, r.1 ≤ x ∧ x < r.1 + r.2

/-- `base` and memory from `sbrk`. -/
structure Ground (base : Nat) (s : Sys) : Prop where
  base_pos : 0 < base
  base_size : s.size base = 0
  below : ∀ r ∈ s.regions, base + headerSize ≤ r.1
  bounded : ∀ r ∈ s.regions, r.1 + r.2 < 2 ^ 32

/-- The blocks `bs`, which tile the memory from `sbrk`. -/
structure Blocks (base : Nat) (bs : List Nat) (s : Sys) : Prop where
  ground : Ground base s
  tiled : Tiled headerSize s.size bs (InRegions s.regions)
  aligned : (∀ r ∈ s.regions, headerSize ∣ r.1) → ∀ a ∈ bs, headerSize ∣ a

/-- The free blocks `F`, and other blocks `L`. -/
structure Layout (base : Nat) (F L : List Nat) (s : Sys) : Prop where
  blocks : Blocks base (F ++ L) s
  cycle : IsCycle s.ptr base F
  sorted : (base :: F).Pairwise (· < ·)
  freep : s.freep ∈ base :: F
  gaps : ∀ a ∈ F, ∀ b ∈ F, a + headerSize * s.size a ≠ b

section Blocks

variable {base bp p a b : Nat} {bs cs F L : List Nat} {s s' : Sys}

theorem Ground.congr (h : Ground base s) (hsize : s'.size base = s.size base) (hregions : s'.regions = s.regions) :
    Ground base s' :=
  ⟨h.base_pos, hsize.trans h.base_size, hregions ▸ h.below, hregions ▸ h.bounded⟩

theorem Blocks.perm (h : Blocks base bs s) (hp : bs.Perm cs) : Blocks base cs s :=
  ⟨h.ground, h.tiled.perm hp, fun hr a ha => h.aligned hr a (hp.mem_iff.mpr ha)⟩

/-- Blocks lie above `base` and do not reach the end of the address space. -/
theorem Blocks.bounds (h : Blocks base bs s) (ha : a ∈ bs) :
    base + headerSize ≤ a ∧ 0 < s.size a ∧ a + headerSize * s.size a < 2 ^ 32 := by
  obtain ⟨r, hr, hle, -⟩ := h.tiled.start ha
  obtain ⟨r', hr', -, hlt⟩ := h.tiled.stop ha
  have hbelow := h.ground.below r hr
  have hbounded := h.ground.bounded r' hr'
  exact ⟨by omega, h.tiled.pos a ha, by omega⟩

/-- Pointer arithmetic within a block does not wrap around. -/
theorem Blocks.plus_eq (h : Blocks base bs s) (ha : a ∈ bs) (hn : n ≤ s.size a) :
    plus a n = a + headerSize * n := by
  have hle : headerSize * n ≤ headerSize * s.size a := Nat.mul_le_mul_left _ hn
  exact Nat.mod_eq_of_lt (by have := (h.bounds ha).2.2; omega)

/-- Other sizes of blocks that stay. -/
theorem Blocks.nodup (h : Blocks base bs s) : bs.Nodup := by
  refine h.tiled.apart.imp_of_mem ?_
  intro a b ha _ hab
  rintro rfl
  have hpos : 0 < headerSize * s.size a := Nat.mul_pos (by decide) (h.bounds ha).2.1
  rcases hab with hab | hab <;> omega

end Blocks

/-! ## The place of a block -/

/-- `p` is the last block of the list that lies before `bp`. -/
structure IsPred (base : Nat) (F : List Nat) (bp p : Nat) : Prop where
  mem : p ∈ base :: F
  lt : p < bp
  last : ∀ a ∈ base :: F, a < bp → a ≤ p

section Search

variable {base bp p q a b fuel : Nat} {us bs cs F L : List Nat} {s s' : Sys}

/-- Free blocks are sorted: each points to the next higher one, and the last to `base`. -/
theorem Layout.succ (h : Layout base F L s) (ha : a ∈ base :: F) :
    s.ptr a = base ∧ (∀ b ∈ base :: F, b ≤ a) ∨
      s.ptr a ∈ F ∧ a < s.ptr a ∧ ∀ b ∈ base :: F, b ≤ a ∨ s.ptr a ≤ b := by
  obtain ⟨us, vs, huv⟩ := append_of_mem ha
  have hlinks := h.cycle.links
  have hsorted := h.sorted
  rw [huv] at hlinks hsorted
  have hwhole : us ++ a :: vs ++ [base] = us ++ a :: (vs ++ [base]) := by simp
  rw [hwhole, path_split] at hlinks
  obtain ⟨-, hrest, hseam⟩ := pairwise_append.mp hsorted
  obtain ⟨hafter, hvs⟩ := pairwise_cons.mp hrest
  cases vs with
  | nil =>
    refine .inl ⟨(path_cons_cons.mp hlinks.2).1, ?_⟩
    intro b hb
    rw [huv] at hb
    rcases mem_append.mp hb with hb | hb
    · exact Nat.le_of_lt (hseam b hb a mem_cons_self)
    · rw [mem_singleton.mp hb]
  | cons c vs =>
    have hac : s.ptr a = c := (path_cons_cons.mp hlinks.2).1
    rw [hac]
    refine .inr ⟨?_, hafter c mem_cons_self, ?_⟩
    · have hc : c ∈ base :: F := by
        rw [huv]
        simp
      rcases mem_cons.mp hc with rfl | hc
      · have hle : ∀ b ∈ c :: F, c ≤ b := by
          intro b hb
          rcases mem_cons.mp hb with rfl | hb
          · exact le_rfl
          · exact Nat.le_of_lt ((pairwise_cons.mp h.sorted).1 b hb)
        have := hle a ha
        have := hafter c mem_cons_self
        omega
      · exact hc
    · intro b hb
      rw [huv] at hb
      rcases mem_append.mp hb with hb | hb
      · exact .inl (Nat.le_of_lt (hseam b hb a mem_cons_self))
      · rcases mem_cons.mp hb with rfl | hb
        · exact .inl le_rfl
        · rcases mem_cons.mp hb with rfl | hb
          · exact .inr le_rfl
          · exact .inr (Nat.le_of_lt ((pairwise_cons.mp hvs).1 b hb))

/-- Where `free` stops. -/
theorem Layout.fits_iff (h : Layout base F L s) (hbase : base < bp) (hbp : bp ∉ F) (ha : a ∈ base :: F) :
    fits bp a (s.ptr a) ↔ IsPred base F bp a := by
  have hmin : base ≤ a := by
    rcases mem_cons.mp ha with rfl | hmem
    · exact le_rfl
    · exact Nat.le_of_lt ((pairwise_cons.mp h.sorted).1 a hmem)
  rcases h.succ ha with ⟨hlast, hall⟩ | ⟨hmem, hlt, hall⟩
  · constructor
    · intro hfits
      refine ⟨ha, ?_, fun b hb _ => hall b hb⟩
      rw [hlast] at hfits
      rcases hfits with hfits | hfits <;> omega
    · intro hpred
      rw [hlast]
      exact .inr ⟨hmin, .inl hpred.lt⟩
  · constructor
    · intro hfits
      rcases hfits with ⟨hlow, hhigh⟩ | ⟨hwrap, -⟩
      · refine ⟨ha, hlow, fun b hb hlt' => ?_⟩
        rcases hall b hb with hle | hge
        · exact hle
        · omega
      · omega
    · intro hpred
      refine .inl ⟨hpred.lt, ?_⟩
      by_contra hnot
      have hne : s.ptr a ≠ bp := fun he => hbp (he ▸ hmem)
      have := hpred.last (s.ptr a) (mem_cons_of_mem _ hmem) (by omega)
      omega

theorem exists_isPred (hbase : base < bp) (F : List Nat) : ∃ p, IsPred base F bp p := by
  induction F with
  | nil =>
    refine ⟨base, mem_cons_self, hbase, ?_⟩
    intro a ha _
    rw [mem_singleton.mp ha]
  | cons c F ih =>
    obtain ⟨p, hmem, hlt, hlast⟩ := ih
    by_cases hc : c < bp ∧ p < c
    · refine ⟨c, by simp, hc.1, ?_⟩
      intro a ha hlt'
      rcases mem_cons.mp ha with rfl | ha
      · have := hlast a mem_cons_self hlt'
        omega
      · rcases mem_cons.mp ha with rfl | ha
        · exact le_rfl
        · have := hlast a (mem_cons_of_mem _ ha) hlt'
          omega
    · refine ⟨p, ?_, hlt, ?_⟩
      · rcases mem_cons.mp hmem with rfl | hmem
        · exact mem_cons_self
        · simp [hmem]
      · intro a ha hlt'
        rcases mem_cons.mp ha with rfl | ha
        · exact hlast a mem_cons_self hlt'
        · rcases mem_cons.mp ha with rfl | ha
          · omega
          · exact hlast a (mem_cons_of_mem _ ha) hlt'

theorem search_succ (bp fuel p : Nat) (s : Sys) : search bp (fuel + 1) p s =
    (if fits bp p (s.ptr p) then pure p else search bp fuel (s.ptr p) : M Nat) s := rfl

/-- The loop of `free` goes along a path on which it does not stop. -/
theorem search_path (hpath : Path s.ptr (us ++ [p])) (hhead : (us ++ [p]).head? = some a)
    (hus : ∀ y ∈ us, ¬ fits bp y (s.ptr y)) (hp : fits bp p (s.ptr p)) (hfuel : us.length < fuel) :
    search bp fuel a s = .ok p s := by
  induction us generalizing a fuel with
  | nil =>
    obtain ⟨n, rfl⟩ := Nat.exists_eq_succ_of_ne_zero hfuel.ne'
    cases hhead
    rw [search_succ, if_pos hp]
    rfl
  | cons y us ih =>
    obtain ⟨n, rfl⟩ := Nat.exists_eq_succ_of_ne_zero (Nat.ne_of_gt (Nat.zero_lt_of_lt hfuel))
    cases hhead
    rw [search_succ, if_neg (hus y mem_cons_self)]
    rw [cons_append] at hpath
    have hrest : Path s.ptr (us ++ [p]) ∧ (us ++ [p]).head? = some (s.ptr y) := by
      cases us with
      | nil =>
        obtain ⟨hyp, htail⟩ := path_cons_cons.mp hpath
        exact ⟨htail, by rw [hyp]; rfl⟩
      | cons z us =>
        obtain ⟨hyz, htail⟩ := path_cons_cons.mp hpath
        exact ⟨htail, by rw [hyz]; rfl⟩
    refine ih hrest.1 hrest.2 (fun z hz => hus z (mem_cons_of_mem y hz)) ?_
    simpa using hfuel

/-- `free` finds the place of its block. -/
theorem Layout.search_eq (h : Layout base F L s) (hbase : base < bp) (hbp : bp ∉ F) (hfuel : F.length < fuel)
    (hp : IsPred base F bp p) : search bp fuel s.freep s = .ok p s := by
  obtain ⟨us, hpath, hhead, hnot, hlen, hmem⟩ := h.cycle.way h.freep hp.mem
  refine search_path hpath hhead ?_ ((h.fits_iff hbase hbp hp.mem).mpr hp) (by omega)
  intro y hy hfits
  have hy' := (h.fits_iff hbase hbp (hmem y hy)).mp hfits
  have heq : y = p := Nat.le_antisymm (hp.last y hy'.mem hy'.lt) (hy'.last p hp.mem hp.lt)
  exact hnot (heq ▸ hy)

end Search

/-! ## free -/

/-- A list of free blocks without the block `bp`, which leads on to those after it and is to come
    after `p`. -/
structure Pending (base : Nat) (us F₁ F₂ L : List Nat) (p bp : Nat) (s : Sys) : Prop where
  blocks : Blocks base (F₁ ++ bp :: F₂ ++ L) s
  before : base :: F₁ = us ++ [p]
  front : Path s.ptr (us ++ [p])
  back : Path s.ptr (bp :: (F₂ ++ [base]))
  sorted : (base :: (F₁ ++ bp :: F₂)).Pairwise (· < ·)
  gaps : ∀ a ∈ F₁ ++ bp :: F₂, ∀ b ∈ F₁ ++ bp :: F₂, a + headerSize * s.size a = b → a = p ∧ b = bp

section Free

variable {base bp p q a b fuel : Nat} {us bs cs F F₁ F₂ L : List Nat} {s s' : Sys}

theorem Layout.not_mem (h : Layout base F (bp :: L) s) : bp ∉ F := by
  intro hmem
  exact (nodup_append.mp h.blocks.nodup).2.2 bp hmem bp mem_cons_self rfl

/-- The list of free blocks, cut behind `p`, where `bp` belongs. -/
structure Cut (base : Nat) (us F₁ F₂ L : List Nat) (p bp : Nat) (s : Sys) : Prop where
  layout : Layout base (F₁ ++ F₂) (bp :: L) s
  pred : IsPred base (F₁ ++ F₂) bp p
  before : base :: F₁ = us ++ [p]
  low : ∀ a ∈ base :: F₁, a < bp
  high : ∀ a ∈ F₂, bp < a

theorem Layout.cut (h : Layout base F (bp :: L) s) (hp : IsPred base F bp p) :
    ∃ us F₁ F₂, F = F₁ ++ F₂ ∧ Cut base us F₁ F₂ L p bp s := by
  obtain ⟨us, F₂, huv⟩ := append_of_mem hp.mem
  obtain ⟨F₁, rfl, hbefore⟩ : ∃ F₁, F = F₁ ++ F₂ ∧ base :: F₁ = us ++ [p] := by
    cases us with
    | nil =>
      obtain ⟨rfl, rfl⟩ := List.cons.inj huv
      exact ⟨[], rfl, rfl⟩
    | cons u us =>
      obtain ⟨rfl, rfl⟩ := List.cons.inj huv
      exact ⟨us ++ [p], by simp, rfl⟩
  have hsorted := h.sorted
  rw [huv] at hsorted
  obtain ⟨-, hrest, hseam⟩ := pairwise_append.mp hsorted
  have hlt := hp.lt
  refine ⟨us, F₁, F₂, rfl, h, hp, hbefore, fun a ha => ?_, fun a ha => ?_⟩
  · rw [hbefore] at ha
    rcases mem_append.mp ha with ha | ha
    · exact (hseam a ha p mem_cons_self).trans hlt
    · rwa [mem_singleton.mp ha]
  · have haF : a ∈ F₁ ++ F₂ := mem_append_right _ ha
    have hpa : p < a := (pairwise_cons.mp hrest).1 a ha
    have hne : a ≠ bp := fun he => h.not_mem (he ▸ haF)
    by_contra hle
    have := hp.last a (mem_cons_of_mem _ haF) (by omega)
    omega

theorem perm_block (bp : Nat) (F₁ F₂ L : List Nat) : (F₁ ++ bp :: F₂ ++ L).Perm (bp :: (F₁ ++ F₂ ++ L)) := by
  rw [append_assoc, append_assoc]
  exact perm_middle

theorem mem_other (ha : a ∈ F₁ ++ bp :: F₂) (hne : a ≠ bp) : a ∈ F₁ ++ F₂ := by
  simp only [mem_append, mem_cons, hne, false_or] at ha ⊢
  exact ha

/-- `bp` is joined with the block after it. -/
theorem Blocks.join (h : Blocks base (a :: b :: bs) s) (s' : Sys) (hab : a + headerSize * s.size a = b)
    (hsize : s'.size = update s.size a ((s.size a + s.size b) % 2 ^ 32)) (hregions : s'.regions = s.regions) :
    Blocks base (a :: bs) s' ∧ s'.size a = s.size a + s.size b := by
  have ha := h.bounds (a := a) (by simp)
  have hb := h.bounds (a := b) (by simp)
  have hunit : headerSize = 8 := rfl
  have hmod : (s.size a + s.size b) % 2 ^ 32 = s.size a + s.size b := by
    rw [hunit] at hab ha hb
    exact Nat.mod_eq_of_lt (by omega)
  rw [hmod] at hsize
  refine ⟨⟨h.ground.congr ?_ hregions, ?_, ?_⟩, by rw [hsize, update_self]⟩
  · have hne : base ≠ a := by omega
    rw [hsize, update_of_ne hne]
  · rw [hregions, hsize]
    exact h.tiled.join hab
  · rw [hregions]
    intro hr c hc
    refine h.aligned hr c ?_
    rcases mem_cons.mp hc with rfl | hc
    · simp
    · simp [hc]

theorem Blocks.congr (h : Blocks base bs s) (hsize : ∀ a ∈ base :: bs, s'.size a = s.size a)
    (hregions : s'.regions = s.regions) : Blocks base bs s' := by
  refine ⟨h.ground.congr (hsize base mem_cons_self) hregions, ?_, hregions ▸ h.aligned⟩
  rw [hregions]
  exact h.tiled.congr fun a ha => hsize a (mem_cons_of_mem base ha)

section Cut

variable (h : Cut base us F₁ F₂ L p bp s)
include h

theorem Cut.blocks : Blocks base (F₁ ++ bp :: F₂ ++ L) s :=
  h.layout.blocks.perm (perm_middle.trans (perm_block bp F₁ F₂ L).symm)

theorem Cut.paths : Path s.ptr (us ++ [p]) ∧ Path s.ptr (p :: (F₂ ++ [base])) := by
  obtain ⟨hfront, hback, -⟩ := (isCycle_iff h.before).mp h.layout.cycle
  exact ⟨hfront, hback⟩

theorem Cut.not_before : bp ∉ us := by
  intro hmem
  refine lt_irrefl bp (h.low bp ?_)
  rw [h.before]
  exact mem_append_left _ hmem

theorem Cut.not_after : bp ∉ F₂ := fun hmem => lt_irrefl bp (h.high bp hmem)

/-- The free blocks with `bp`, in the order of addresses. -/
theorem Cut.sorted : (base :: (F₁ ++ bp :: F₂)).Pairwise (· < ·) := by
  have hsorted : (base :: F₁ ++ F₂).Pairwise (· < ·) := h.layout.sorted
  obtain ⟨hfirst, hsecond, hseam⟩ := pairwise_append.mp hsorted
  show (base :: F₁ ++ bp :: F₂).Pairwise (· < ·)
  refine pairwise_append.mpr ⟨hfirst, pairwise_cons.mpr ⟨h.high, hsecond⟩, ?_⟩
  intro a ha b hb
  rcases mem_cons.mp hb with rfl | hb
  · exact h.low a ha
  · exact hseam a ha b hb

theorem Cut.size_pos : 0 < headerSize * s.size bp := Nat.mul_pos (by decide) (h.blocks.bounds (by simp)).2.1

/-- A block that ends where `bp` starts is the one before it in the list. -/
theorem Cut.eq_pred (ha : a ∈ F₁ ++ bp :: F₂) (hab : a + headerSize * s.size a = bp) : a = p := by
  have hbounds := h.blocks.bounds (mem_append_left L ha)
  have hpos : 0 < headerSize * s.size a := Nat.mul_pos (by decide) hbounds.2.1
  have haF : a ∈ F₁ ++ F₂ := mem_other ha (by omega)
  have hle := h.pred.last a (mem_cons_of_mem _ haF) (by omega)
  have hlt := h.pred.lt
  by_contra hne
  have hpF : p ∈ F₁ ++ F₂ := (mem_cons.mp h.pred.mem).resolve_left (by omega)
  have hstop := h.layout.blocks.tiled.stop_le (mem_append_left _ haF) (mem_append_left _ hpF) (by omega)
  omega

/-- A block that starts where `bp` ends is the one after it in the list. -/
theorem Cut.eq_succ (hb : b ∈ F₁ ++ F₂) (hab : bp + headerSize * s.size bp = b) : b = s.ptr p := by
  have hpos := h.size_pos
  have hbF : b ∈ F₂ := by
    rcases mem_append.mp hb with hb | hb
    · have := h.low b (mem_cons_of_mem _ hb)
      omega
    · exact hb
  have hsorted := (pairwise_append.mp (pairwise_cons.mp h.layout.sorted).2).2.1
  cases F₂ with
  | nil => cases hbF
  | cons q F₂ =>
    rw [(path_cons_cons.mp h.paths.2).1]
    have hstop := h.blocks.tiled.stop_le (a := bp) (b := q) (by simp) (by simp) (h.high q mem_cons_self)
    rcases mem_cons.mp hbF with rfl | hbF
    · rfl
    · have := (pairwise_cons.mp hsorted).1 b hbF
      omega

/-- `bp` leads to the block after it. -/
theorem Cut.lead (hq : bp + headerSize * s.size bp ≠ s.ptr p) :
    Pending base us F₁ F₂ L p bp (s.setPtr bp (s.ptr p)) := by
  refine ⟨h.blocks.congr (fun _ _ => rfl) rfl, h.before, path_update h.paths.1 h.not_before,
    path_relink h.paths.2 h.not_after, h.sorted, ?_⟩
  intro a ha b hb hab
  change a + headerSize * s.size a = b at hab
  by_cases hbbp : b = bp
  · exact ⟨h.eq_pred ha (hab.trans hbbp), hbbp⟩
  · have hbF := mem_other hb hbbp
    by_cases habp : a = bp
    · rw [habp] at hab
      exact absurd (hab.trans (h.eq_succ hbF hab)) hq
    · exact absurd hab (h.layout.gaps a (mem_other ha habp) b hbF)

end Cut

/-- `bp` is joined with the block after it. -/
theorem Cut.join (h : Cut base us F₁ (q :: F₂) L p bp s) (hq : bp + headerSize * s.size bp = q)
    (hs' : s' = (s.setSize bp ((s.size bp + s.size q) % 2 ^ 32)).setPtr bp (s.ptr q)) :
    Pending base us F₁ F₂ L p bp s' ∧ s.size bp ≤ s'.size bp := by
  have hsub : (F₁ ++ F₂).Sublist (F₁ ++ q :: F₂) := (sublist_cons_self q F₂).append_left F₁
  obtain ⟨hjoined, hsize⟩ := (h.blocks.perm ((perm_block bp F₁ (q :: F₂) L).trans
    ((perm_block q F₁ F₂ L).cons bp))).join s' hq (by rw [hs']; rfl) (by rw [hs']; rfl)
  have hkeep : ∀ x, x ≠ bp → s'.size x = s.size x := by
    intro x hx
    rw [hs']
    exact update_of_ne hx ..
  refine ⟨⟨hjoined.perm (perm_block bp F₁ F₂ L).symm, h.before, ?_, ?_, ?_, ?_⟩, by omega⟩
  · rw [hs']
    exact path_update h.paths.1 h.not_before
  · rw [hs']
    exact path_relink (path_cons_cons.mp h.paths.2).2 fun hmem => h.not_after (mem_cons_of_mem q hmem)
  · exact h.sorted.sublist ((((sublist_cons_self q F₂).cons_cons bp).append_left F₁).cons_cons base)
  · intro a ha b hb hab
    have hpos := h.size_pos
    by_cases habp : a = bp
    · -- the joined block ends where `q` ended
      rw [habp, hsize, Nat.mul_add] at hab
      have hbF := hsub.mem (mem_other hb (by omega))
      exact absurd (by omega) (h.layout.gaps q (by simp) b hbF)
    · rw [hkeep a habp] at hab
      have haF := hsub.mem (mem_other ha habp)
      by_cases hbbp : b = bp
      · refine ⟨h.eq_pred ?_ (hab.trans hbbp), hbbp⟩
        exact ((sublist_cons_self bp _).append_left F₁).mem haF
      · exact absurd hab (h.layout.gaps a haF b (hsub.mem (mem_other hb hbbp)))

/-- `free` joins the block with the free block behind it. -/
theorem Layout.joinNext (h : Layout base F (bp :: L) s) (hp : IsPred base F bp p) :
    ∃ us F₁ F₂, Pending base us F₁ F₂ L p bp (joinNext s p bp) ∧ F₁.length + F₂.length ≤ F.length ∧
      s.size bp ≤ (joinNext s p bp).size bp := by
  obtain ⟨us, F₁, F₂, rfl, hcut⟩ := h.cut hp
  have hplus := hcut.blocks.plus_eq (a := bp) (by simp) le_rfl
  unfold Umalloc.joinNext
  by_cases hq : plus bp (s.size bp) = s.ptr p
  · rw [if_pos hq]
    have hback := hcut.paths.2
    cases F₂ with
    | nil =>
      -- the list goes back to `base`, which lies before `bp`
      rw [hplus, (path_cons_cons.mp hback).1] at hq
      have := hcut.low base mem_cons_self
      omega
    | cons q F₂ =>
      rw [(path_cons_cons.mp hback).1] at hq ⊢
      obtain ⟨hpending, hsize⟩ := hcut.join (hplus.symm.trans hq) rfl
      exact ⟨us, F₁, F₂, hpending, by simp, hsize⟩
  · rw [if_neg hq]
    rw [hplus] at hq
    exact ⟨us, F₁, F₂, hcut.lead hq, by simp, le_rfl⟩

section Pending

variable (h : Pending base us F₁ F₂ L p bp s)
include h

theorem Pending.mem : p ∈ base :: F₁ := by
  rw [h.before]
  simp

theorem Pending.apart : p < bp ∧ p ∉ us ∧ p ∉ F₂ := by
  have hsorted : (base :: F₁ ++ bp :: F₂).Pairwise (· < ·) := h.sorted
  rw [h.before] at hsorted
  obtain ⟨hfirst, -, hseam⟩ := pairwise_append.mp hsorted
  refine ⟨hseam p (by simp) bp mem_cons_self, fun hp => ?_, fun hp => ?_⟩
  · exact lt_irrefl p ((pairwise_append.mp hfirst).2.2 p hp p mem_cons_self)
  · exact lt_irrefl p (hseam p (by simp) p (mem_cons_of_mem _ hp))

/-- The block before `bp` leads to it. -/
theorem Pending.lead (hp : p ∈ F₁ ++ bp :: F₂ → p + headerSize * s.size p ≠ bp) :
    Layout base (F₁ ++ bp :: F₂) L { s.setPtr p bp with freep := p } := by
  obtain ⟨hlt, hus, hF₂⟩ := h.apart
  have hback : Path s.ptr (bp :: F₂ ++ [base]) := h.back
  have hpb : p ∉ bp :: F₂ := not_mem_cons_of_ne_of_not_mem hlt.ne hF₂
  refine ⟨h.blocks.congr (fun _ _ => rfl) rfl, (isCycle_iff h.before).mpr ⟨path_update h.front hus,
    path_cons_cons.mpr ⟨update_self .., path_update hback hpb⟩, h.sorted.imp Nat.ne_of_lt⟩, h.sorted,
    mem_append_left _ h.mem, ?_⟩
  intro a ha b hb hab
  obtain ⟨rfl, rfl⟩ := h.gaps a ha b hb hab
  exact hp ha hab

/-- `bp` is joined with the block before it. -/
theorem Pending.join (hpF : p ∈ F₁) (hp : p + headerSize * s.size p = bp)
    (hs' : s' = { (s.setSize p ((s.size p + s.size bp) % 2 ^ 32)).setPtr p (s.ptr bp) with freep := p }) :
    Layout base (F₁ ++ F₂) L s' ∧ s.size bp ≤ s'.size p := by
  obtain ⟨hlt, hus, hF₂⟩ := h.apart
  have hout : (F₁ ++ F₂ ++ L).Perm (p :: (F₁.erase p ++ F₂ ++ L)) :=
    ((perm_cons_erase hpF).append_right F₂).append_right L
  obtain ⟨hjoined, hsize⟩ := (h.blocks.perm ((perm_block bp F₁ F₂ L).trans ((hout.cons bp).trans
    (.swap p bp _)))).join s' hp (by rw [hs']; rfl) (by rw [hs']; rfl)
  have hsub : (F₁ ++ F₂).Sublist (F₁ ++ bp :: F₂) := (sublist_cons_self bp F₂).append_left F₁
  have hsorted := h.sorted.sublist (hsub.cons_cons base)
  refine ⟨⟨hjoined.perm hout.symm, ?_, hsorted, ?_, ?_⟩, by omega⟩
  · rw [hs']
    exact (isCycle_iff h.before).mpr ⟨path_update h.front hus, path_relink h.back hF₂,
      hsorted.imp Nat.ne_of_lt⟩
  · rw [hs']
    exact mem_append_left F₂ h.mem
  · intro a ha b hb hab
    by_cases hap : a = p
    · rw [hap, hsize, Nat.mul_add] at hab
      have hadj := h.gaps bp (by simp) b (hsub.mem hb) (by omega)
      omega
    · have hkeep : s'.size a = s.size a := by
        rw [hs']
        exact update_of_ne hap ..
      rw [hkeep] at hab
      exact hap (h.gaps a (hsub.mem ha) b (hsub.mem hb) hab).1

/-- `free` joins the block with the free block before it. -/
theorem Pending.joinPrev :
    ∃ F, Layout base F L { joinPrev s p bp with freep := p } ∧ F.length ≤ F₁.length + F₂.length + 1 ∧
      ∃ a ∈ F, s.size bp ≤ (joinPrev s p bp).size a := by
  unfold Umalloc.joinPrev
  by_cases hp : plus p (s.size p) = bp
  · rw [if_pos hp]
    -- the block before is not `base`, which is empty
    have hpF : p ∈ F₁ := by
      refine (mem_cons.mp h.mem).resolve_left ?_
      rintro rfl
      have hlt := h.apart.1
      have hbp := h.blocks.bounds (a := bp) (by simp)
      rw [plus, h.blocks.ground.base_size, Nat.mul_zero, Nat.add_zero, Nat.mod_eq_of_lt (by omega)] at hp
      omega
    rw [h.blocks.plus_eq (by simp [hpF]) le_rfl] at hp
    obtain ⟨hlayout, hsize⟩ := h.join hpF hp rfl
    exact ⟨F₁ ++ F₂, hlayout, by simp, p, by simp [hpF], hsize⟩
  · rw [if_neg hp]
    refine ⟨F₁ ++ bp :: F₂, h.lead fun hmem => ?_, by simp; omega, bp, by simp, le_rfl⟩
    rwa [h.blocks.plus_eq (mem_append_left L hmem) le_rfl] at hp

end Pending

theorem joinNext_rest (s : Sys) (p bp : Nat) :
    (Umalloc.joinNext s p bp).regions = s.regions ∧ (Umalloc.joinNext s p bp).live = s.live := by
  unfold Umalloc.joinNext
  split <;> exact ⟨rfl, rfl⟩

theorem joinPrev_rest (s : Sys) (p bp : Nat) :
    (Umalloc.joinPrev s p bp).regions = s.regions ∧ (Umalloc.joinPrev s p bp).live = s.live := by
  unfold Umalloc.joinPrev
  split <;> exact ⟨rfl, rfl⟩

/-- `free` puts the block where it belongs. -/
theorem Layout.wp_free (h : Layout base F (bp :: L) s) (hfuel : F.length < fuel) :
    wp (free fuel (bp + headerSize)) (fun _ s' => s'.regions = s.regions ∧ s'.live = s.live ∧
      ∃ F', Layout base F' L s' ∧ F'.length ≤ F.length + 1 ∧ ∃ a ∈ F', s.size bp ≤ s'.size a) noStop s := by
  have hbp := h.blocks.bounds (a := bp) (by simp)
  have hunit : headerSize = 8 := rfl
  obtain ⟨p, hp⟩ := exists_isPred (show base < bp by omega) F
  have hsearch := h.search_eq (by omega) h.not_mem hfuel hp
  simp only [free, wp_bind, wp_get, Nat.add_sub_cancel]
  rw [wp_of_ok hsearch]
  obtain ⟨us, F1, F2, hpending, hlen, hsize⟩ := h.joinNext hp
  obtain ⟨F', hlayout, hlen', a, ha, hsize'⟩ := hpending.joinPrev
  refine ⟨?_, ?_, F', hlayout, by omega, a, ha, hsize.trans hsize'⟩
  · exact (joinPrev_rest _ p bp).1.trans (joinNext_rest s p bp).1
  · exact (joinPrev_rest _ p bp).2.trans (joinNext_rest s p bp).2

end Free

/-! ## malloc -/

section Malloc

variable {base p q a prevp n nunits fuel : Nat} {us bs pre F L : List Nat} {s s' : Sys} {sbrk : List (Option Nat)}

/-- A region from `sbrk` is one more block. -/
theorem Blocks.addRegion (h : Blocks base bs s) (s' : Sys) (hk : 0 < k) (hfresh : Fresh base s.regions p (headerSize * k))
    (hsize : s'.size = update s.size p k) (hregions : s'.regions = (p, headerSize * k) :: s.regions) :
    Blocks base (p :: bs) s' := by
  have hunit : headerSize = 8 := rfl
  have hbase := hfresh.base
  refine ⟨⟨h.ground.base_pos, ?_, ?_, ?_⟩, ?_, ?_⟩
  · have hne : base ≠ p := by omega
    rw [hsize, update_of_ne hne]
    exact h.ground.base_size
  · rw [hregions]
    exact forall_mem_cons.mpr ⟨hbase, h.ground.below⟩
  · rw [hregions]
    exact forall_mem_cons.mpr ⟨hfresh.fits, h.ground.bounded⟩
  · have hadd := h.tiled.add (a := p) hk (fun x hle hlt => by
      rintro ⟨r, hr, -, hx⟩
      have := hfresh.above r hr
      omega)
    rw [hsize, hregions]
    refine ⟨hadd.unit, hadd.pos, hadd.apart, fun x => ?_⟩
    rw [hadd.cover x]
    simp [InRegions, or_comm]
  · rw [hregions]
    intro hr c hc
    obtain ⟨hp, hr⟩ := forall_mem_cons.mp hr
    rcases mem_cons.mp hc with rfl | hc
    · exact hp
    · exact h.aligned hr c hc

theorem coreUnits_spec (nu : Nat) : 0 < coreUnits nu ∧ nu ≤ coreUnits nu := by
  unfold coreUnits
  split <;> omega

/-- `morecore` adds a block that is large enough. -/
theorem Layout.wp_morecore {rest : List (Option Nat)} (h : Layout base F L s) (hfuel : F.length < fuel)
    (hfresh : Fresh base s.regions p (headerSize * coreUnits nunits)) :
    wp (morecore fuel nunits (some p :: rest)) (fun q s' => q = s'.freep ∧ s'.live = s.live ∧
      ∃ F', Layout base F' L s' ∧ F'.length ≤ F.length + 1 ∧ ∃ a ∈ F', nunits ≤ s'.size a) noStop s := by
  obtain ⟨hpos, hle⟩ := coreUnits_spec nunits
  have hblocks := h.blocks.addRegion
    (({ s with regions := (p, headerSize * coreUnits nunits) :: s.regions } : Sys).setSize p (coreUnits nunits))
    hpos hfresh rfl rfl
  have hnew : p ∉ F ++ L := (nodup_cons.mp hblocks.nodup).1
  have hlayout : Layout base F (p :: L)
      (({ s with regions := (p, headerSize * coreUnits nunits) :: s.regions } : Sys).setSize p (coreUnits nunits)) := by
    refine ⟨hblocks.perm perm_middle.symm, h.cycle, h.sorted, h.freep, ?_⟩
    intro a ha b hb
    have hne : a ≠ p := fun he => hnew (he ▸ mem_append_left L ha)
    rw [Sys.setSize_size, update_of_ne hne]
    exact h.gaps a ha b hb
  simp only [morecore, wp_bind, wp_modify, wp_get, wp_pure]
  refine wp_post (hlayout.wp_free hfuel) ?_
  rintro _ s' ⟨-, hlive, F', hlayout', hlen, a, ha, hsize⟩
  refine ⟨trivial, hlive, F', hlayout', hlen, a, ha, ?_⟩
  rw [Sys.setSize_size, update_self] at hsize
  omega

theorem mallocLoop_succ (nunits fuel n : Nat) (sbrk : List (Option Nat)) (prevp p : Nat) (s : Sys) :
    mallocLoop nunits fuel (n + 1) sbrk prevp p s =
      (if nunits ≤ s.size p then do
          set (carve s nunits prevp p).2
          pure (carve s nunits prevp p).1
        else if p = s.freep then do
          let p ← morecore fuel nunits sbrk
          let s ← get
          if p = 0 then pure 0 else mallocLoop nunits fuel n sbrk.tail p (s.ptr p)
        else
          mallocLoop nunits fuel n sbrk p (s.ptr p) : M Nat) s := rfl

/-- `malloc` passes blocks that are too small. -/
theorem mallocLoop_path (fuel n : Nat) (sbrk : List (Option Nat)) (hpath : Path s.ptr (prevp :: (pre ++ [p])))
    (hsmall : ∀ y ∈ pre, s.size y < nunits ∧ y ≠ s.freep) :
    ∃ prev ∈ prevp :: pre, s.ptr prev = p ∧
      mallocLoop nunits fuel (n + pre.length) sbrk prevp (s.ptr prevp) s = mallocLoop nunits fuel n sbrk prev p s := by
  induction pre generalizing prevp with
  | nil =>
    obtain ⟨hp, -⟩ := path_cons_cons.mp hpath
    exact ⟨prevp, mem_cons_self, hp, by rw [hp]; rfl⟩
  | cons y pre ih =>
    obtain ⟨hy, hrest⟩ := path_cons_cons.mp hpath
    obtain ⟨hysize, hyfreep⟩ := hsmall y mem_cons_self
    obtain ⟨prev, hprev, hp, heq⟩ := ih hrest fun z hz => hsmall z (mem_cons_of_mem y hz)
    refine ⟨prev, mem_cons_of_mem prevp hprev, hp, ?_⟩
    rw [hy, length_cons, ← Nat.add_assoc, mallocLoop_succ, if_neg (not_le.mpr hysize), if_neg hyfreep]
    exact heq

/-- The free blocks in the order in which `malloc` visits them; the last one is that at `freep`. -/
theorem Layout.visits (h : Layout base F L s) : ∃ C, Path s.ptr (s.freep :: (C ++ [s.freep])) ∧
    (s.freep :: C).Nodup ∧ (s.freep :: C).Perm (base :: F) ∧ C.length = F.length := by
  obtain ⟨C, hcycle, hperm⟩ := h.cycle.from h.freep
  exact ⟨C, hcycle.links, hcycle.nodup, hperm, by simpa using hperm.length_eq⟩

/-- The first block that is large enough, in the order in which `malloc` visits them. -/
theorem Layout.first_fit (h : Layout base F L s) (hpos : 0 < nunits) (ha : a ∈ F) (hsize : nunits ≤ s.size a) :
    ∃ pre b, Path s.ptr (s.freep :: (pre ++ [b])) ∧ (∀ y ∈ pre, s.size y < nunits ∧ y ≠ s.freep) ∧
      pre.length ≤ F.length ∧ (∀ y ∈ pre, y ∈ base :: F) ∧ b ∈ F ∧ nunits ≤ s.size b := by
  obtain ⟨C, hpath, hnodup, hperm, hlen⟩ := h.visits
  have hmem : ∀ x, x ∈ C ++ [s.freep] ↔ x ∈ base :: F := by
    intro x
    rw [← hperm.mem_iff]
    simp [or_comm]
  obtain ⟨b, hb⟩ : ∃ b, (C ++ [s.freep]).find? (fun x => nunits ≤ s.size x) = some b := by
    refine Option.isSome_iff_exists.mp (find?_isSome.mpr ⟨a, (hmem a).mpr (mem_cons_of_mem _ ha), ?_⟩)
    simpa using hsize
  obtain ⟨hbsize, pre, post, heq, hpre⟩ := find?_eq_some_iff_append.mp hb
  simp only [decide_eq_true_eq] at hbsize
  rw [heq] at hpath
  have hsplit : s.freep :: (pre ++ b :: post) = (s.freep :: pre) ++ b :: post := rfl
  rw [hsplit, path_split] at hpath
  have hnodup' : (pre ++ b :: post).Nodup := by
    rw [← heq]
    exact (perm_append_singleton s.freep C).nodup_iff.mpr hnodup
  -- the block at `freep` comes last
  have hlast : s.freep ∈ b :: post := by
    have hl := congrArg List.getLast? heq
    rw [getLast?_concat, getLast?_append_of_ne_nil _ (by simp)] at hl
    exact mem_of_getLast? hl.symm
  have hsmall : ∀ y ∈ pre, s.size y < nunits ∧ y ≠ s.freep := by
    intro y hy
    have hlt := hpre y hy
    simp only [Bool.not_eq_true', decide_eq_false_iff_not, not_le] at hlt
    refine ⟨hlt, ?_⟩
    rintro rfl
    exact (nodup_append.mp hnodup').2.2 _ hy _ hlast rfl
  have hprelen : pre.length ≤ F.length := by
    have := congrArg List.length heq
    simp at this
    omega
  have hbF : b ∈ F := by
    have hb' : b ∈ base :: F := (hmem b).mp (by rw [heq]; simp)
    rcases mem_cons.mp hb' with rfl | hb'
    · rw [h.blocks.ground.base_size] at hbsize
      omega
    · exact hb'
  refine ⟨pre, b, hpath.1, hsmall, hprelen, fun y hy => ?_, hbF, hbsize⟩
  exact (hmem y).mp (by rw [heq]; exact mem_append_left _ hy)

/-- `malloc` finds the first block that is large enough. -/
theorem Layout.mallocLoop_found (h : Layout base F L s) (fuel : Nat) (sbrk : List (Option Nat)) (hpos : 0 < nunits) (ha : a ∈ F) (hsize : nunits ≤ s.size a)
    (hn : F.length < n) : ∃ prev a, prev ∈ base :: F ∧ a ∈ F ∧ s.ptr prev = a ∧ nunits ≤ s.size a ∧
      mallocLoop nunits fuel n sbrk s.freep (s.ptr s.freep) s =
        .ok (carve s nunits prev a).1 (carve s nunits prev a).2 := by
  obtain ⟨pre, b, hpath, hsmall, hprelen, hpre, hbF, hbsize⟩ := h.first_fit hpos ha hsize
  obtain ⟨m, rfl⟩ : ∃ m, n = m + 1 + pre.length := ⟨n - 1 - pre.length, by omega⟩
  obtain ⟨prev, hprev, hptr, hloop⟩ := mallocLoop_path fuel (m + 1) sbrk hpath hsmall
  refine ⟨prev, b, ?_, hbF, hptr, hbsize, ?_⟩
  · rcases mem_cons.mp hprev with rfl | hprev
    · exact h.freep
    · exact hpre prev hprev
  · rw [hloop, mallocLoop_succ, if_pos hbsize]
    rfl

/-- When no block is large enough, `malloc` asks for more after it has visited all of them. -/
theorem Layout.mallocLoop_full (h : Layout base F L s) (fuel n : Nat) (sbrk : List (Option Nat)) (hsmall : ∀ a ∈ base :: F, s.size a < nunits) :
    mallocLoop nunits fuel (n + 1 + F.length) sbrk s.freep (s.ptr s.freep) s = (do
      let p ← morecore fuel nunits sbrk
      let s ← get
      if p = 0 then pure 0 else mallocLoop nunits fuel n sbrk.tail p (s.ptr p) : M Nat) s := by
  obtain ⟨C, hpath, hnodup, hperm, hlen⟩ := h.visits
  have hC : ∀ y ∈ C, s.size y < nunits ∧ y ≠ s.freep := by
    intro y hy
    refine ⟨hsmall y (hperm.mem_iff.mp (mem_cons_of_mem _ hy)), ?_⟩
    rintro rfl
    exact (nodup_cons.mp hnodup).1 hy
  obtain ⟨prev, -, -, hloop⟩ :=
    mallocLoop_path fuel (n + 1) sbrk hpath hC
  rw [← hlen, hloop, mallocLoop_succ, if_neg (not_le.mpr (hsmall _ h.freep)), if_pos rfl]

theorem Blocks.split (h : Blocks base (a :: bs) s) (s' : Sys) (hpos : 0 < n) (hlt : n < s.size a)
    (hq : q = a + headerSize * (s.size a - n))
    (hsize : s'.size = update (update s.size a (s.size a - n)) q n)
    (hregions : s'.regions = s.regions) : Blocks base (q :: a :: bs) s' := by
  have hunit : headerSize = 8 := rfl
  have ha := h.bounds (a := a) (by simp)
  refine ⟨h.ground.congr ?_ hregions, ?_, ?_⟩
  · have hqb : base ≠ q := by omega
    have hab : base ≠ a := by omega
    rw [hsize, update_of_ne hqb, update_of_ne hab]
  · rw [hsize, hregions]
    exact h.tiled.split hpos hlt hq
  · rw [hregions]
    intro hr c hc
    have haligned := h.aligned hr a mem_cons_self
    rcases mem_cons.mp hc with rfl | hc
    · rw [hq]
      exact Nat.dvd_add haligned (Nat.dvd_mul_right _ _)
    · exact h.aligned hr c hc

/-- `malloc` takes its block out of a free one. -/
theorem Layout.carve_spec (h : Layout base F L s) (hpos : 0 < nunits) (hprev : prevp ∈ base :: F) (ha : a ∈ F)
    (hptr : s.ptr prevp = a) (hsize : nunits ≤ s.size a) :
    ∃ F' b, (carve s nunits prevp a).1 = b + headerSize ∧ Layout base F' (b :: L) (carve s nunits prevp a).2 ∧
      F'.length ≤ F.length ∧ (carve s nunits prevp a).2.size b = nunits ∧
      (carve s nunits prevp a).2.live = s.live := by
  have hunit : headerSize = 8 := rfl
  have hbounds := h.blocks.bounds (mem_append_left L ha)
  have hab : a ≠ base := by
    rintro rfl
    omega
  unfold carve
  by_cases heq : s.size a = nunits
  · rw [if_pos heq]
    obtain ⟨us, xs, ys, rfl, hbefore⟩ := h.cycle.split hprev hptr hab
    have hcycle := h.cycle
    rw [isCycle_iff hbefore] at hcycle
    obtain ⟨hfront, hback, -⟩ := hcycle
    have hrest : Path s.ptr (a :: (ys ++ [base])) := (path_cons_cons.mp hback).2
    have hsub : (xs ++ ys).Sublist (xs ++ a :: ys) := (sublist_cons_self a ys).append_left xs
    have hsorted : (base :: (xs ++ ys)).Pairwise (· < ·) := h.sorted.sublist (hsub.cons_cons base)
    have hnodup : (us ++ [prevp] ++ ys).Nodup := by
      rw [← hbefore]
      exact hsorted.imp Nat.ne_of_lt
    obtain ⟨hfirst, -, hseam⟩ := nodup_append.mp hnodup
    have hus : prevp ∉ us := fun hmem => (nodup_append.mp hfirst).2.2 prevp hmem prevp mem_cons_self rfl
    have hys : prevp ∉ ys := fun hmem => hseam prevp (by simp) prevp hmem rfl
    have hmem : prevp ∈ base :: xs := by
      rw [hbefore]
      simp
    refine ⟨xs ++ ys, a, h.blocks.plus_eq (mem_append_left L ha) (by omega), ⟨?_, ?_, hsorted,
      mem_append_left ys hmem, ?_⟩, by simp, heq, rfl⟩
    · refine (h.blocks.perm ?_).congr (fun _ _ => rfl) rfl
      exact (perm_block a xs ys L).trans perm_middle.symm
    · exact (isCycle_iff hbefore).mpr ⟨path_update hfront hus, path_relink hrest hys, hsorted.imp Nat.ne_of_lt⟩
    · intro b hb c hc
      exact h.gaps b (hsub.mem hb) c (hsub.mem hc)
  · rw [if_neg heq]
    have hlt : nunits < s.size a := by omega
    have hq : plus a (s.size a - nunits) = a + headerSize * (s.size a - nunits) :=
      h.blocks.plus_eq (mem_append_left L ha) (by omega)
    obtain ⟨xs, ys, rfl⟩ := append_of_mem ha
    have hblocks := (h.blocks.perm (perm_block a xs ys L)).split
      { (s.setSize a (s.size a - nunits)).setSize (plus a (s.size a - nunits)) nunits with freep := prevp }
      hpos hlt hq rfl rfl
    generalize hqd : plus a (s.size a - nunits) = q at *
    have hperm : (q :: a :: (xs ++ ys ++ L)).Perm (xs ++ a :: ys ++ q :: L) :=
      ((perm_block a xs ys L).symm.cons q).trans perm_middle.symm
    have hnew := hblocks.perm hperm
    have hqF : q ∉ xs ++ a :: ys := by
      intro hmem
      exact (nodup_append.mp hnew.nodup).2.2 q hmem q mem_cons_self rfl
    have hqa : a ≠ q := fun he => hqF (he ▸ ha)
    have hqsize : ((s.setSize a (s.size a - nunits)).setSize q nunits).size q = nunits := update_self ..
    refine ⟨xs ++ a :: ys, q, ?_, ⟨hnew, h.cycle, h.sorted, hprev, ?_⟩, le_rfl, hqsize, rfl⟩
    · refine hnew.plus_eq (by simp) ?_
      show 1 ≤ ((s.setSize a (s.size a - nunits)).setSize q nunits).size q
      rw [hqsize]
      omega
    · intro b hb c hc hbc
      change b + headerSize * ((s.setSize a (s.size a - nunits)).setSize q nunits).size b = c at hbc
      have hbq : b ≠ q := fun he => hqF (he ▸ hb)
      rw [Sys.setSize_size, update_of_ne hbq, Sys.setSize_size] at hbc
      by_cases hba : b = a
      · rw [hba, update_self, ← hq] at hbc
        exact hqF (hbc ▸ hc)
      · rw [update_of_ne hba] at hbc
        exact h.gaps b hb c hc hbc

end Malloc

/-! ## Runs -/

section Runs

variable {base nunits fuel m : Nat} {F L : List Nat} {s s' : Sys} {sbrk : List (Option Nat)}

theorem units_pos (nbytes : UInt32) : 0 < units nbytes := by
  unfold units
  rw [UInt32.toNat_add, UInt32.toNat_div]
  have hlt : (nbytes + 7).toNat < 2 ^ 32 := UInt32.toNat_lt _
  have h8 : (8 : UInt32).toNat = 8 := rfl
  have h1 : (1 : UInt32).toNat = 1 := rfl
  rw [h8, h1, Nat.mod_eq_of_lt (by omega)]
  omega

theorem Layout.freep_pos (h : Layout base F L s) : 0 < s.freep := by
  have hbase := h.blocks.ground.base_pos
  rcases mem_cons.mp h.freep with he | hmem
  · omega
  · have := (pairwise_cons.mp h.sorted).1 _ hmem
    omega

/-- What `malloc` does when a free block is large enough. -/
theorem Layout.wp_found (h : Layout base F L s) (hpos : 0 < nunits) (ha : a ∈ F)
    (hsize : nunits ≤ s.size a) (hn : F.length < n) :
    wp (mallocLoop nunits fuel n sbrk s.freep (s.ptr s.freep)) (fun ap s' => s'.live = s.live ∧
      ∃ F' b, F'.length ≤ F.length ∧ ap = b + headerSize ∧ Layout base F' (b :: L) s' ∧ s'.size b = nunits)
      noStop s := by
  obtain ⟨prev, a, hprev, ha, hptr, hsize, hloop⟩ := h.mallocLoop_found fuel sbrk hpos ha hsize hn
  rw [wp_of_ok hloop]
  obtain ⟨F', b, hap, hlayout, hlen, hb, hlive⟩ := h.carve_spec hpos hprev ha hptr hsize
  exact ⟨hlive, F', b, hlen, hap, hlayout, hb⟩

/-- The list after `malloc`: with a new block for the program, or without. -/
def Malloced (base : Nat) (F L : List Nat) (nunits : Nat) (s : Sys) (ap : Nat) (s' : Sys) : Prop :=
  s'.live = s.live ∧ ∃ F', F'.length ≤ F.length + 1 ∧
    (ap = 0 ∧ Layout base F' L s' ∨
      ∃ b, ap = b + headerSize ∧ Layout base F' (b :: L) s' ∧ s'.size b = nunits)

section Layout

variable (h : Layout base F L s)

include h

/-- No block is large enough, and `sbrk` fails. -/
theorem Layout.mallocLoop_null (hfuel : F.length < fuel)
    (hsmall : ∀ a ∈ base :: F, s.size a < nunits) (hnone : ∀ p, sbrk.head? ≠ some (some p)) :
    mallocLoop nunits fuel fuel sbrk s.freep (s.ptr s.freep) s = .ok 0 s := by
  obtain ⟨n, hn⟩ : ∃ n, fuel = n + 1 + F.length := ⟨fuel - 1 - F.length, by omega⟩
  have hfull := h.mallocLoop_full fuel n sbrk hsmall
  rw [← hn] at hfull
  rw [hfull]
  cases sbrk with
  | nil => rfl
  | cons answer rest =>
    cases answer with
    | none => rfl
    | some p => exact absurd rfl (hnone p)

/-- No block is large enough, and `sbrk` gives more. -/
theorem Layout.wp_grown {rest : List (Option Nat)} (hpos : 0 < nunits)
    (hfuel : 2 * F.length + 3 ≤ fuel) (hsmall : ∀ a ∈ base :: F, s.size a < nunits)
    (hfresh : Fresh base s.regions p (headerSize * coreUnits nunits)) :
    wp (mallocLoop nunits fuel fuel (some p :: rest) s.freep (s.ptr s.freep)) (fun ap s' => s'.live = s.live ∧
      ∃ F' b, F'.length ≤ F.length + 1 ∧ ap = b + headerSize ∧ Layout base F' (b :: L) s' ∧
        s'.size b = nunits) noStop s := by
  obtain ⟨n, hn⟩ : ∃ n, fuel = n + 1 + F.length := ⟨fuel - 1 - F.length, by omega⟩
  have hfull := h.mallocLoop_full fuel n (some p :: rest) hsmall
  rw [← hn] at hfull
  refine wp_of_eq hfull ?_
  simp only [wp_bind, wp_get, wp_ite, wp_pure]
  refine wp_post (h.wp_morecore (by omega) hfresh) ?_
  rintro q s' ⟨rfl, hlive, F', hlayout, hlen, a, ha, hsize⟩
  refine ⟨fun hzero => ?_, fun _ => ?_⟩
  · have := hlayout.freep_pos
    omega
  · refine wp_post (hlayout.wp_found hpos ha hsize (by omega)) ?_
    rintro ap t ⟨hlive', F'', b, hlen', hap, hlayout', hb⟩
    exact ⟨hlive'.trans hlive, F'', b, by omega, hap, hlayout', hb⟩

/-- `base` is too small for any block. -/
theorem Layout.mem_of_large (hpos : 0 < nunits) (ha : a ∈ base :: F) (hsize : nunits ≤ s.size a) : a ∈ F := by
  rcases mem_cons.mp ha with rfl | ha
  · rw [h.blocks.ground.base_size] at hsize
    omega
  · exact ha

theorem Layout.wp_mallocLoop (hpos : 0 < nunits) (hfuel : 2 * F.length + 3 ≤ fuel)
    (hfresh : ∀ p, sbrk.head? = some (some p) → Fresh base s.regions p (headerSize * coreUnits nunits)) :
    wp (mallocLoop nunits fuel fuel sbrk s.freep (s.ptr s.freep)) (Malloced base F L nunits s) noStop s := by
  by_cases hsmall : ∀ a ∈ base :: F, s.size a < nunits
  · by_cases hnone : ∀ p, sbrk.head? ≠ some (some p)
    · rw [wp_of_ok (h.mallocLoop_null (by omega) hsmall hnone)]
      exact ⟨rfl, F, Nat.le_succ _, .inl ⟨rfl, h⟩⟩
    · simp only [not_forall, Decidable.not_not] at hnone
      obtain ⟨p, hp⟩ := hnone
      obtain ⟨rest, rfl⟩ := head?_eq_some_iff.mp hp
      refine wp_post (h.wp_grown hpos hfuel hsmall (hfresh p rfl)) ?_
      rintro ap t ⟨hlive, F', b, hlen, hap, hlayout, hb⟩
      exact ⟨hlive, F', hlen, .inr ⟨b, hap, hlayout, hb⟩⟩
  · simp only [not_forall, not_lt] at hsmall
    obtain ⟨a, ha, hsize⟩ := hsmall
    refine wp_post (h.wp_found hpos (h.mem_of_large hpos ha hsize) hsize (by omega)) ?_
    rintro ap s' ⟨hlive, F', b, hlen, hap, hlayout, hb⟩
    exact ⟨hlive, F', by omega, .inr ⟨b, hap, hlayout, hb⟩⟩

/-- Nothing but the memory between the headers of blocks changes. -/
theorem Layout.congr (hptr : ∀ a ∈ base :: F, s'.ptr a = s.ptr a)
    (hsize : ∀ a ∈ base :: (F ++ L), s'.size a = s.size a) (hfreep : s'.freep = s.freep)
    (hregions : s'.regions = s.regions) : Layout base F L s' := by
  refine ⟨h.blocks.congr hsize hregions, ⟨path_congr h.cycle.links hptr, h.cycle.nodup⟩, h.sorted,
    hfreep ▸ h.freep, fun a ha b hb => ?_⟩
  rw [hsize a (mem_cons_of_mem base (mem_append_left L ha))]
  exact h.gaps a ha b hb

/-- No header lies inside of a block. -/
theorem Layout.not_inside (ha : a ∈ F ++ L) (hx : x ∈ base :: (F ++ L))
    (hlow : a < x) : a + headerSize * s.size a ≤ x := by
  rcases mem_cons.mp hx with rfl | hx
  · have := (h.blocks.bounds ha).1
    have hunit : headerSize = 8 := rfl
    omega
  · exact h.blocks.tiled.stop_le ha hx hlow

end Layout

/-- The heap before the first call of `malloc`, or with a list of at most `m` free blocks. -/
def HeapOk (base m : Nat) (s : Sys) : Prop :=
  s.freep = 0 ∧ s.regions = [] ∧ s.live = [] ∨ ∃ F, Layout base F s.live s ∧ F.length ≤ m

theorem HeapOk.init (hbase : 0 < base) (h : HeapOk base m s) :
    ∃ F, Layout base F (initFree base s).live (initFree base s) ∧ F.length ≤ m ∧
      (initFree base s).live = s.live ∧ (initFree base s).regions = s.regions := by
  rcases h with ⟨hfreep, hregions, hlive⟩ | ⟨F, hlayout, hlen⟩
  · refine ⟨[], ?_, Nat.zero_le m, ?_, ?_⟩
    all_goals
      unfold initFree
      rw [if_pos hfreep]
    · have hnone : ∀ r ∈ s.regions, False := by
        rw [hregions]
        nofun
      refine ⟨⟨⟨hbase, update_self .., fun r hr => (hnone r hr).elim, fun r hr => (hnone r hr).elim⟩, ?_, ?_⟩,
        isCycle_nil (update_self ..), pairwise_singleton _ _, mem_cons_self, nofun⟩
      · show Tiled _ _ ([] ++ s.live) (InRegions s.regions)
        rw [hlive, hregions]
        have hempty := tiled_nil (u := headerSize) (by decide) (update s.size base 0)
        exact ⟨hempty.unit, hempty.pos, hempty.apart, fun x => by simp [InRegions]⟩
      · intro _ a ha
        change a ∈ [] ++ s.live at ha
        rw [hlive] at ha
        exact nomatch ha
    · rfl
    · rfl
  · have hkeep : initFree base s = s := if_neg hlayout.freep_pos.ne'
    rw [hkeep]
    exact ⟨F, hlayout, hlen, rfl, rfl⟩

/-- A call keeps the heap, with at most one free block more. -/
theorem HeapOk.wp_call (hbase : 0 < base) (h : HeapOk base m s) (c : Call) (hok : Proper base c s)
    (hfuel : 2 * m + 3 ≤ fuel) : wp (c.exec base fuel) (fun _ s' => HeapOk base (m + 1) s') noStop s := by
  cases c with
  | malloc nbytes sbrk =>
    obtain ⟨F, hlayout, hlen, hlive, hregions⟩ := h.init hbase
    obtain ⟨-, hfresh⟩ := hok
    rw [← hregions] at hfresh
    simp only [Call.exec, malloc, wp_bind, wp_modify, wp_get]
    refine wp_post (hlayout.wp_mallocLoop (units_pos nbytes) (by omega) hfresh) ?_
    rintro ap s' ⟨hlive', F', hlen', hcase⟩
    rw [wp_ite]
    constructor
    · rintro rfl
      rcases hcase with ⟨-, hlayout'⟩ | ⟨b, hap, -⟩
      · rw [← hlive'] at hlayout'
        exact .inr ⟨F', hlayout', by omega⟩
      · have hunit : headerSize = 8 := rfl
        omega
    · intro hne
      rcases hcase with ⟨hzero, -⟩ | ⟨b, rfl, hlayout', -⟩
      · exact absurd hzero hne
      · refine .inr ⟨F', ?_, by omega⟩
        show Layout base F' ((b + headerSize - headerSize) :: s'.live) _
        rw [Nat.add_sub_cancel, hlive']
        exact hlayout'.congr (fun _ _ => rfl) (fun _ _ => rfl) rfl rfl
  | free ap =>
    obtain ⟨a, ha, rfl⟩ := hok
    rcases h with ⟨-, -, hlive⟩ | ⟨F, hlayout, hlen⟩
    · rw [hlive] at ha
      cases ha
    · have hperm : (F ++ s.live).Perm (F ++ a :: s.live.erase a) :=
        (perm_cons_erase ha).append_left F
      have hready : Layout base F (a :: s.live.erase a) { s with live := s.live.erase a } :=
        ⟨(hlayout.blocks.perm hperm).congr (fun _ _ => rfl) rfl, hlayout.cycle, hlayout.sorted, hlayout.freep, hlayout.gaps⟩
      simp only [Call.exec, wp_bind, wp_modify, wp_pure, Nat.add_sub_cancel]
      refine wp_post (hready.wp_free (by omega)) ?_
      rintro _ s' ⟨-, hlive, F', hlayout', hlen', -⟩
      refine .inr ⟨F', ?_, by omega⟩
      rw [hlive]
      exact hlayout'
  | write ptr size =>
    rcases h with ⟨hfreep, hregions, hlive⟩ | ⟨F, hlayout, hlen⟩
    · exact .inl ⟨hfreep, hregions, hlive⟩
    · have hsame : ∀ x ∈ base :: (F ++ s.live), ptr x = s.ptr x ∧ size x = s.size x := by
        intro x hx
        by_contra hne
        rw [not_and_or] at hne
        obtain ⟨a, ha, hlow, hhigh⟩ := hok x hne
        have := hlayout.not_inside (mem_append_right F ha) hx hlow
        omega
      refine .inr ⟨F, hlayout.congr ?_ ?_ rfl rfl, by omega⟩
      · intro a ha
        refine (hsame a ?_).1
        rcases mem_cons.mp ha with rfl | ha
        · exact mem_cons_self
        · exact mem_cons_of_mem _ (mem_append_left _ ha)
      · exact fun a ha => (hsame a ha).2

theorem HeapOk.wp_run {calls : List Call} (hbase : 0 < base) (h : HeapOk base m s)
    (hfuel : 2 * (m + calls.length) + 3 ≤ fuel) (hok : Along (Call.exec base fuel) (Proper base) calls s) :
    wp (run (Call.exec base fuel) calls) (fun _ s' => HeapOk base (m + calls.length) s') noStop s := by
  induction calls generalizing s m with
  | nil => exact h
  | cons c calls ih =>
    rw [length_cons] at hfuel ⊢
    simp only [run, wp_bind, wp_pure]
    refine wp_post (wp_run (h.wp_call hbase c hok.1 (by omega))) ?_
    rintro out s' ⟨hrun, h'⟩
    refine wp_post (ih h' (by omega) (hok.tail hrun)) ?_
    intro _ t ht
    rw [Nat.add_right_comm] at ht
    exact ht

end Runs

/-- Whatever a program allocates, frees and writes to its blocks, and whatever `sbrk` gives: `malloc` and
    `free` return, the free blocks are in a cycle in the order of addresses and are not adjacent, and
    free blocks and blocks of the program tile the memory from `sbrk` and are aligned like it. -/
theorem heap_invariant (base : Nat) (hbase : 0 < base) (ptr size : Nat → Nat) (calls : List Call) (fuel : Nat)
    (hfuel : 2 * calls.length + 3 ≤ fuel)
    (hok : Along (Call.exec base fuel) (Proper base) calls (start ptr size)) :
    wp (run (Call.exec base fuel) calls) (fun _ s => s.freep = 0 ∧ s.regions = [] ∧ s.live = [] ∨
      ∃ F, Layout base F s.live s) noStop (start ptr size) := by
  have hstart : HeapOk base 0 (start ptr size) := .inl ⟨rfl, rfl, rfl⟩
  refine wp_post (hstart.wp_run hbase (by omega) hok) ?_
  rintro _ s (hinit | ⟨F, hlayout, -⟩)
  · exact .inl hinit
  · exact .inr ⟨F, hlayout⟩

/-- The program gets two blocks out of one region, and frees the first. -/
def sampleCalls : List Call := [.malloc 10 [some 4096], .malloc 100 [], .free 36848]

theorem sampleCalls_proper :
    Along (Call.exec 1024 9) (Proper 1024) sampleCalls (start (fun _ => 0) fun _ => 0) := by
  refine Along.of_final ⟨by decide, ?_⟩ (Along.of_final ⟨by decide, nofun⟩ (Along.of_final ?_ trivial))
  · intro p hp
    cases hp
    exact ⟨by decide, nofun, by decide⟩
  · show ∃ a ∈ Sys.live _, 36848 = a + headerSize
    decide +kernel

theorem heap_invariant_sampleCalls : ∃ outs s,
    run (Call.exec 1024 9) sampleCalls (start (fun _ => 0) fun _ => 0) = .ok outs s ∧ outs = [36848, 36736, 0] ∧
      (s.freep = 0 ∧ s.regions = [] ∧ s.live = [] ∨ ∃ F, Layout 1024 F s.live s) := by
  have houts : yields (run (Call.exec 1024 9) sampleCalls) (start (fun _ => 0) fun _ => 0)
      (fun outs => outs = [36848, 36736, 0]) = true := by
    decide +kernel
  obtain ⟨outs, s, hrun, heq⟩ := exists_of_yields houts
  rw [decide_eq_true_eq] at heq
  have hok := heap_invariant 1024 (by decide) (fun _ => 0) (fun _ => 0) sampleCalls 9 (by decide) sampleCalls_proper
  rw [wp_of_ok hrun] at hok
  exact ⟨outs, s, hrun, heq, hok⟩

/-- The program has called `sbrk(1)` itself, so that the region of `malloc` starts at an odd address: so
    does the block. -/
theorem malloc_unaligned :
    Along (Call.exec 1024 5) (Proper 1024) [.malloc 10 [some 4097]] (start (fun _ => 0) fun _ => 0) ∧
      ∃ outs s, run (Call.exec 1024 5) [.malloc 10 [some 4097]] (start (fun _ => 0) fun _ => 0) = .ok outs s ∧
        outs = [36849] ∧ ¬ headerSize ∣ 36849 := by
  refine ⟨Along.of_final ⟨by decide, ?_⟩ trivial, ?_⟩
  · intro p hp
    cases hp
    exact ⟨by decide, nofun, by decide⟩
  · have houts : yields (run (Call.exec 1024 5) [.malloc 10 [some 4097]]) (start (fun _ => 0) fun _ => 0)
        (fun outs => outs = [36849]) = true := by
      decide +kernel
    obtain ⟨outs, s, hrun, heq⟩ := exists_of_yields houts
    exact ⟨outs, s, hrun, of_decide_eq_true heq, by decide⟩

end Xv6Paging.Umalloc
