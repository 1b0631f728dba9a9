import Xv6Paging.Fault
import Xv6Paging.SwapCode

/-! # The frames that growing takes

    A page that is added takes a frame. While the process has room in RAM the frame comes
    from the free list. After that a page goes out first, and its frame becomes free unless
    another process shares it. How many free frames a growth takes is therefore known before
    it starts, from the list of the pages in RAM: what the replacement policies look at,
    and the reference counts.
-/

namespace Xv6Paging

open List Wp Placement Function

variable {c : Config} {p : Nat}

/-! ## Code that leaves the counters alone -/

/-- The two processes have the same aging counters. -/
def SameCounters (pr pr' : Proc) : Prop :=
  ∀ i, (pr'.pagesMetaData i).page.shiftCounter = (pr.pagesMetaData i).page.shiftCounter

instance : Std.Refl SameCounters := ⟨fun _ _ => rfl⟩

instance : IsTrans Proc SameCounters := ⟨fun _ _ _ h h' i => (h' i).trans (h i)⟩

theorem SameCounters.setPage (pr : Proc) (i : Nat)
    (hf : ∀ pg, (f pg).shiftCounter = pg.shiftCounter) : SameCounters pr (pr.setPage i f) := by
  intro j
  by_cases h : j = i
  · subst h; simp [Proc.setPage, Proc.setLink, hf]
  · simp [Proc.setPage, Proc.setLink, h]

theorem SameCounters.linkWrites : LinkWrites SameCounters where
  next := by
    intro pr i x j
    by_cases h : j = i <;> simp [Proc.setNext, Proc.setLink, h]
  prev := by
    intro pr i x j
    by_cases h : j = i <;> simp [Proc.setPrev, Proc.setLink, h]
  head := fun _ _ _ => rfl

/-- Code that leaves the counters of process `p` alone. -/
abbrev KeepsCounters (p : Nat) {α : Type} (x : K α) : Prop :=
  Keeps (fun m m' : Machine => SameCounters (m.proc p) (m'.proc p)) (fun _ => True) x

instance : Std.Refl fun m m' : Machine => SameCounters (m.proc p) (m'.proc p) := ⟨fun _ _ => rfl⟩

instance : IsTrans Machine fun m m' : Machine => SameCounters (m.proc p) (m'.proc p) :=
  ⟨fun _ _ _ h h' i => (h' i).trans (h i)⟩

theorem keepsCounters_code : MoveLogic c p (fun _ => True) SameCounters (@KeepsCounters p) :=
  .of_keeps (fun _ => trivial) ⟨SameCounters.linkWrites, fun _ _ _ h i => by rw [h]⟩
    (fun _ _ h => by simpa using h) (fun _ _ h _ i => by rw [h]) (fun pr i _ hf => .setPage pr i hf)

/-! ## Pages in RAM -/

/-- A page in RAM. -/
structure Resident where
  page : Nat
  /-- The reference count of its frame. -/
  refs : Nat
  /-- `PTE_U`. -/
  user : Bool
  /-- `PTE_A`. -/
  used : Bool
  counter : BitVec 32
  deriving DecidableEq

/-- The page of entry `i`. -/
def Machine.resident (m : Machine) (p i : Nat) : Resident where
  page := m.pageNo p i
  refs := m.referenceCounters (m.pte p (m.pageNo p i)).frame
  user := (m.pte p (m.pageNo p i)).u
  used := (m.pte p (m.pageNo p i)).a
  counter := m.counter p i

/-- The pages of the list `l`. -/
def Machine.residents (m : Machine) (p : Nat) (l : List Nat) : List Resident := l.map (m.resident p)

/-- Page `v`, just added. -/
def Resident.new (c : Config) (v : Nat) : Resident := ⟨v, 1, true, false, c.initCounter⟩

/-- A page that has been passed over. -/
def Resident.pass (r : Resident) : Resident := { r with used := !r.user && r.used }

/-- The pages that stay when page `r` goes out. -/
def Config.stay (c : Config) (l : List Resident) (r : Resident) : List Resident :=
  let sides := c.around (l.takeWhile (· ≠ r)) (l.dropWhile (· ≠ r)).tail
  (sides.1 ++ sides.2).map fun x => if x ∈ c.passed Resident.user Resident.used l then x.pass else x

/-- The pages in RAM when there is room for another one, and the number of frames that have become
    free. -/
def Config.vacate (c : Config) (l : List Resident) : List Resident × Nat :=
  if l.length < maxPsycPages then
    (l, 0)
  else
    match c.choose Resident.user Resident.used Resident.counter l with
    | none => (l, 0)
    | some r => (c.stay l r, if r.refs = 1 then 1 else 0)

/-- The free frames that it takes to add `k` pages, from page `v` on, to the pages `l`: one for every
    page that does not replace a page of its own. -/
def Config.demand (c : Config) : Nat → Nat → List Resident → Nat
  | 0, _, _ => 0
  | k + 1, v, l => c.demand k (v + 1) ((c.vacate l).1 ++ [.new c v]) + 1 - (c.vacate l).2

variable {m m' : Machine} {T T' : PageMap} {l l' xs ys rest : List Nat} {f i j t v w : Nat} {pr : Proc}
  {pg : Page}

/-- Two entries of a list are different pages. -/
theorem Paged.resident_inj (h : Paged c p m T l) (hi : i ∈ l) (hj : j ∈ l)
    (heq : m.resident p i = m.resident p j) : i = j :=
  h.queued.distinct i hi j hj (congrArg Resident.page heq)

section Chosen

variable (hs : Selected c p m l i xs ys m') (h : Paged c p m T l) (hc : SameCounters (m.proc p) (m'.proc p))

include hs h hc

/-- What the choice of a page does to the others: those passed over lose their accessed bit. -/
theorem Selected.resident (hj : j ∈ l) :
    m'.resident p j = if m.resident p j ∈ c.passed Resident.user Resident.used (m.residents p l)
      then (m.resident p j).pass else m.resident p j := by
  have hswept := hs.swept
  rw [h.accessDir_eq] at hswept
  have hpassed : c.passed Resident.user Resident.used (m.residents p l) =
      (c.passed (m.user p) (m.used p (m.proc p).pgdir) l).map (m.resident p) := Config.passed_map _
  have hsub : c.passed (m.user p) (m.used p (m.proc p).pgdir) l ⊆ l := Config.passed_subset
  generalize c.passed (m.user p) (m.used p (m.proc p).pgdir) l = passed at hswept hpassed hsub
  have hmem : m.resident p j ∈ passed.map (m.resident p) ↔ j ∈ passed := by
    refine ⟨fun hin => ?_, mem_map_of_mem⟩
    obtain ⟨a, ha, heq⟩ := mem_map.mp hin
    rwa [← h.resident_inj (hsub ha) hj heq]
  have hvs : m.pageNo p j ∈ m.userPages p passed ↔ j ∈ passed ∧ (m.pte p (m.pageNo p j)).u = true := by
    rw [Machine.mem_userPages]
    refine ⟨fun hin => ?_, fun hin => ⟨j, hin.1, hin.2, rfl⟩⟩
    obtain ⟨a, ha, hu, heq⟩ := hin
    obtain rfl := h.queued.distinct a (hsub ha) j hj heq
    exact ⟨ha, hu⟩
  have hpte : m'.pte p (m.pageNo p j) = if m.pageNo p j ∈ m.userPages p passed
      then (m.pte p (m.pageNo p j)).setA false else m.pte p (m.pageNo p j) := by
    rw [Machine.pte, hswept.pgdir]
    exact hswept.pte _
  have hrefs : m'.referenceCounters = m.referenceCounters := by
    rw [hswept.rest]
    rfl
  have hcount : m'.counter p j = m.counter p j := hc j
  simp only [hpassed, hmem]
  by_cases hin : j ∈ passed <;> by_cases hu : (m.pte p (m.pageNo p j)).u = true <;>
    simp [Machine.resident, hswept.pageNo, hpte, hvs, hrefs, hcount, hin, hu, Resident.pass]

theorem Selected.refs (hj : j ∈ l) : (m'.resident p j).refs = (m.resident p j).refs := by
  rw [hs.resident h hc hj]
  split <;> rfl

/-- The page chosen, and the pages that stay. -/
theorem Selected.residents :
    c.choose Resident.user Resident.used Resident.counter (m.residents p l) = some (m.resident p i) ∧
      m'.residents p (xs ++ ys) = c.stay (m.residents p l) (m.resident p i) := by
  have hvictim := hs.victim
  rw [Machine.victim, h.accessDir_eq] at hvictim
  refine ⟨(Config.choose_map _).trans (congrArg (Option.map _) hvictim), ?_⟩
  obtain ⟨as, bs, rfl, hsides⟩ := hs.split
  have hnot : ∀ x ∈ m.residents p as, decide (x ≠ m.resident p i) = true := by
    intro x hx
    obtain ⟨a, ha, rfl⟩ := mem_map.mp hx
    rw [decide_eq_true_eq]
    intro heq
    obtain rfl := h.resident_inj (mem_append_left _ ha) (by simp) heq
    exact (nodup_middle.mp h.listed.isList.nodup).notMem (mem_append_left _ ha)
  have hall : m.residents p (as ++ i :: bs) = m.residents p as ++ m.resident p i :: m.residents p bs := by
    simp [Machine.residents]
  have htake : (m.residents p (as ++ i :: bs)).takeWhile (· ≠ m.resident p i) = m.residents p as := by
    rw [hall, takeWhile_append_of_pos hnot, takeWhile_cons_of_neg (by simp), append_nil]
  have hdrop : ((m.residents p (as ++ i :: bs)).dropWhile (· ≠ m.resident p i)).tail =
      m.residents p bs := by
    rw [hall, dropWhile_append_of_pos hnot, dropWhile_cons_of_neg (by simp), tail_cons]
  have hstay : xs ++ ys ⊆ as ++ i :: bs := by
    intro j hj
    refine hs.perm.subset ?_
    simp only [mem_append, mem_cons] at hj ⊢
    tauto
  rw [Config.stay, htake, hdrop]
  simp only [Machine.residents, Config.around_map]
  rw [← hsides, map_map]
  exact map_congr_left fun j hj => hs.resident h hc (hstay hj)

end Chosen

/-- An entry whose page, frame and counter stay. -/
theorem Paged.resident_eq (h : Paged c p m T l) (h' : Paged c p m' T' l') (hj : j < maxTotalPages)
    (hT : T j = .fast w) (hT' : T' j = .fast w) (hpte : m'.pte p w = m.pte p w)
    (hrefs : m'.referenceCounters (m.pte p w).frame = m.referenceCounters (m.pte p w).frame)
    (hc : m'.counter p j = m.counter p j) : m'.resident p j = m.resident p j := by
  simp only [Machine.resident, h.pageNo_eq hj hT, h'.pageNo_eq hj hT', hpte, hrefs, hc]

/-- The other pages do not change when a page goes out. -/
theorem Paged.evict_residents (h : Paged c p m T (xs ++ i :: ys)) (hT : T i = .fast v)
    (hpr : SameSpace (m.proc p) pr) (h' : Paged c p (m.evict p v t pr) (update T i (.slow v t)) (xs ++ ys))
    (hc : SameCounters (m.proc p) ((m.evict p v t pr).proc p)) :
    (m.evict p v t pr).residents p (xs ++ ys) = m.residents p (xs ++ ys) := by
  refine map_congr_left fun j hj => ?_
  obtain ⟨hjlt, w, hw, hT'⟩ := h'.records.isFast_of_mem hj
  have hji : j ≠ i := by
    rintro rfl
    simp at hT'
  have hTj : T j = .fast w := by rwa [update_of_ne hji] at hT'
  have hi := h.listed.lt i (by simp)
  have hv : v < maxTotalPages := h.records.page_lt hi (by simp [hT])
  have hwv : w ≠ v := fun heq =>
    hji (h.records.ok.key_inj (k := w) hjlt hi (by simp [hTj]) (by simp [hT, heq]))
  refine h.resident_eq h' hjlt hTj hT' (by rw [evict_pte hpr, if_neg hwv]) ?_ (hc j)
  rw [evict_refs, update_of_ne fun heq => hwv (h.frame_inj (lt_nuserPages hw) (lt_nuserPages hv)
    ((h.present_iff (lt_nuserPages hw)).mpr ⟨j, hjlt, hTj⟩)
    ((h.present_iff (lt_nuserPages hv)).mpr ⟨i, hi, hT⟩) heq)]

/-- A page that is added comes last. -/
theorem Paged.bring_residents (h : Paged c p m T l) (hT : T i = .free) (hf : m.freelist = f :: rest)
    (hpr : SameSpace (m.proc p) pr)
    (h' : Paged c p (m.bring p v f rest pg pr) (update T i (.fast v)) (l ++ [i]))
    (hc : ∀ j, (m.bring p v f rest pg pr).counter p j = if j = i then c.initCounter else m.counter p j) :
    (m.bring p v f rest pg pr).residents p (l ++ [i]) = m.residents p l ++ [.new c v] := by
  have hi := h'.listed.lt i (by simp)
  rw [Machine.residents, map_append, map_singleton]
  congr 1
  · refine map_congr_left fun j hj => ?_
    obtain ⟨hjlt, w, hw, hTj⟩ := h.records.isFast_of_mem hj
    have hji : j ≠ i := by
      rintro rfl
      simp [hT] at hTj
    have hT' : update T i (.fast v) j = .fast w := by rwa [update_of_ne hji]
    have hwv : w ≠ v := fun heq =>
      hji (h'.records.ok.key_inj (k := w) hjlt hi (by simp [hT']) (by simp [heq]))
    have hpos := (h.frame (lt_nuserPages hw) ((h.present_iff (lt_nuserPages hw)).mpr ⟨j, hjlt, hTj⟩)).2
    refine h.resident_eq h' hjlt hTj hT' (by rw [bring_pte hpr, if_neg hwv]) ?_ (by rw [hc, if_neg hji])
    rw [bring_refs, update_of_ne]
    rintro heq
    rw [heq, (h.free (by simp [hf])).2] at hpos
    exact lt_irrefl 0 hpos
  · simp [Machine.resident, h'.pageNo_eq hi (update_self ..), bring_pte hpr, hc, Resident.new, Pte.wu]

end Xv6Paging
