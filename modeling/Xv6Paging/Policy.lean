import Xv6Paging.Queue

/-! # Choosing a victim and aging

    The five replacement policies and the bookkeeping they do on a fault. On a
    paged process all their loops end, and all they do is to reorder the RAM
    list, to change the aging counters, and to clear accessed bits: `Stirred`.
    Whatever the policy, the victim is an entry of the list.
-/

namespace Xv6Paging

open Wp DList Placement Replacement

/-! ## What selection and aging may change -/

/-- `m'` differs from `m` in the order and the counters of the RAM list of `p`
    and in accessed bits of its page table. -/
structure Stirred (p : Nat) (m m' : Machine) : Prop where
  proc : Shuffled (m.proc p) (m'.proc p)
  proc_ne : ∀ q, q ≠ p → m'.proc q = m.proc q
  pte : ∀ v, ∃ b, m'.pte p v = (m.pte p v).setA b
  live : (m'.dirs (m.proc p).pgdir).live = (m.dirs (m.proc p).pgdir).live
  table : (m'.dirs (m.proc p).pgdir).table = (m.dirs (m.proc p).pgdir).table
  dirs_ne : ∀ d, d ≠ (m.proc p).pgdir → m'.dirs d = m.dirs d
  rest : m' = { m with proc := m'.proc, dirs := m'.dirs }

variable {c : Config} {p : Nat} {m m' m'' : Machine} {T : PageMap} {l l' xs ys : List Nat}
  {i v : Nat}

theorem Stirred.pgdir (h : Stirred p m m') : (m'.proc p).pgdir = (m.proc p).pgdir := by
  rw [h.proc.rest]

theorem Stirred.refl (p : Nat) (m : Machine) : Stirred p m m where
  proc := Shuffled.refl _
  proc_ne := fun _ _ => rfl
  pte := fun v => ⟨(m.pte p v).a, rfl⟩
  live := rfl
  table := rfl
  dirs_ne := fun _ _ => rfl
  rest := rfl

theorem Stirred.setA (p v : Nat) (m : Machine) (b : Bool) :
    Stirred p m (m.setPte (m.proc p).pgdir v ((m.pte p v).setA b)) where
  proc := Shuffled.refl _
  proc_ne := fun _ _ => rfl
  pte := by
    intro w
    by_cases hw : w = v
    · subst hw; exact ⟨b, by simp [Machine.pte]⟩
    · exact ⟨(m.pte p w).a, by simp [Machine.pte, hw]; rfl⟩
  live := by simp
  table := by simp
  dirs_ne := by intro d hd; simp [hd]
  rest := rfl

theorem Paged.stirred (h : Paged c p m T l) (hs : Stirred p m m') (hl : (m'.proc p).Listed l')
    (hperm : l'.Perm l) : Paged c p m' T l' := by
  have hd := hs.pgdir
  have hrest := hs.rest
  have hp : ∀ v, (m'.pte p v).p = (m.pte p v).p := by
    intro v; obtain ⟨b, hb⟩ := hs.pte v; rw [hb]; rfl
  have hpg : ∀ v, (m'.pte p v).pg = (m.pte p v).pg := by
    intro v; obtain ⟨b, hb⟩ := hs.pte v; rw [hb]; rfl
  have hf : ∀ v, (m'.pte p v).frame = (m.pte p v).frame := by
    intro v; obtain ⟨b, hb⟩ := hs.pte v; rw [hb]; rfl
  have hrefs : m'.referenceCounters = m.referenceCounters := by rw [hrest]
  have hfree : m'.freelist = m.freelist := by rw [hrest]
  have hswap : m'.swap = m.swap := by rw [hrest]
  refine Placed.paged ⟨h.recorded.shuffled hs.proc, ?_, ?_, ?_, ?_, ?_, ?_, ?_, ?_, ?_, ?_, ?_, ?_, ?_⟩
    (h.records.shuffled hs.proc hl hperm)
  · rw [hd, hs.live]; exact h.live
  · rw [hd, hs.table]; exact h.table
  · intro v hv; rw [hp]; exact h.present_iff hv
  · intro v hv; rw [hp, hpg]; exact h.paged_iff hv
  · intro v hv hpv; rw [hp] at hpv; rw [hf, hrefs]; exact h.frame hv hpv
  · intro v w hv hw hpv hpw heq
    rw [hp] at hpv hpw
    rw [hf, hf] at heq
    exact h.frame_inj hv hw hpv hpw heq
  · rw [hfree]; exact h.free_nodup
  · intro f hf; rw [hfree] at hf; rw [hrefs]; exact h.free hf
  · intro s hs' hav
    rw [hs.proc.rest] at hav
    rw [hswap]
    exact h.covered hs' hav
  · rw [hs.proc.rest]; exact h.opened
  · rw [hrest]; exact h.global
  · rw [hrest]; exact h.unlocked
  · rw [hrest]; exact h.outside

/-- What the process sees stays. -/
theorem Stirred.view (hs : Stirred p m m') (a : Nat) : m'.view p a = m.view p a := by
  obtain ⟨b, hb⟩ := hs.pte (vpn a)
  have hmem : m'.mem = m.mem := by rw [hs.rest]
  have hswap : m'.swap = m.swap := by rw [hs.rest]
  have hpage : ∀ i, ((m'.proc p).pagesMetaData i).page.offsetInFile =
      ((m.proc p).pagesMetaData i).page.offsetInFile := by
    intro i; rw [hs.proc.page i]
  have hfind : (m'.proc p).findPage (pgsize * vpn a) = (m.proc p).findPage (pgsize * vpn a) := by
    unfold Proc.findPage Proc.findLink
    congr 1
    funext i
    rw [hs.proc.page i]
  simp only [Machine.view, hb, Pte.setA_p, Pte.setA_frame, Pte.setA_pg, hmem, hswap, hfind, hpage]

section Paged

variable (h : Paged c p m T l)

include h

/-- A page of a tracked process is mapped. -/
theorem Paged.mapped (hv : v < maxTotalPages) : (m.dirs (m.proc p).pgdir).table (pdx (pgsize * v)) ≠ none := by
  rw [pdx_mul hv]; exact h.table

theorem Paged.setA (v : Nat) (b : Bool) : Paged c p (m.setPte (m.proc p).pgdir v ((m.pte p v).setA b)) T l :=
  h.stirred (.setA p v m b) h.listed (List.Perm.refl _)

/-! ## The list of a paged process -/

theorem Paged.pageNo_eq (hi : i < maxTotalPages) (hT : T i = .fast v) : m.pageNo p i = v := by
  have hent := h.records.entry i hi
  rw [hT] at hent
  rw [Machine.pageNo, hent.2, vpn_mul]

theorem Paged.user_eq (hi : i < maxTotalPages) (hT : T i = .fast v) : m.user p i = (m.pte p v).u := by
  rw [Machine.user, h.pageNo_eq hi hT]

theorem Paged.queued : Queued p (m.proc p).pgdir m l where
  listed := h.listed
  mapped := by
    intro i hmem
    obtain ⟨hi, v, hv, hT⟩ := h.records.isFast_of_mem hmem
    have hent := h.records.entry i hi
    rw [hT] at hent
    refine ⟨hi, h.live, ?_⟩
    rw [hent.2]
    exact h.mapped hv
  distinct := by
    intro i hi j hj heq
    obtain ⟨hi, v, hv, hT⟩ := h.records.isFast_of_mem hi
    obtain ⟨hj, w, hw, hTj⟩ := h.records.isFast_of_mem hj
    rw [h.pageNo_eq hi hT, h.pageNo_eq hj hTj] at heq
    subst heq
    exact h.records.ok.key_inj (k := v) hi hj (by simp [hT]) (by simp [hTj])

theorem Paged.accessDir_eq : m.accessDir p = (m.proc p).pgdir := by
  rw [Machine.accessDir, h.global]
  rfl

end Paged

theorem Swept.stirred {vs : List Nat} (h : Swept p (m.proc p).pgdir vs m m') : Stirred p m m' where
  proc := h.proc
  proc_ne := by
    intro q hq
    rw [h.rest]
    simp [Machine.clearA, hq]
  pte := by
    intro v
    obtain ⟨b, hb⟩ := h.pte_setA (m.proc p).pgdir v
    exact ⟨b, by rw [Machine.pte, h.pgdir]; exact hb⟩
  live := h.live _
  table := h.table _
  dirs_ne := by
    intro d hd
    rw [h.rest]
    simp [Machine.clearA, hd]
  rest := by
    rw [h.rest]
    rfl

/-! ## The choice and the update -/

/-- Every policy chooses an entry of the list. -/
theorem choosePageToSwap_spec (h : Paged c p m T l)
    (hi : i ∈ l) (hT : T i = .fast v) (hu : (m.pte p v).u = true) (htwo : 2 ≤ l.length)
    (hfuel : 2 * maxTotalPages ≤ c.fuel) :
    wp (choosePageToSwap c p) (fun r m' => ∃ i xs ys, r = some i ∧ Selected c p m l i xs ys m' ∧
      Stirred p m m' ∧ Paged c p m' T (xs ++ i :: ys)) noStop m := by
  have huser : ∃ i ∈ l, m.user p i = true :=
    ⟨i, hi, by rw [h.user_eq (h.listed.lt i hi) hT, hu]⟩
  have hd := h.queued
  rw [← h.accessDir_eq] at hd
  refine wp_post (h.queued.choosePageToSwap_spec hd huser htwo hfuel) ?_
  rintro r m' ⟨i, xs, ys, rfl, hs, hlist⟩
  have hswept := hs.swept
  rw [h.accessDir_eq] at hswept
  exact ⟨i, xs, ys, rfl, hs, hswept.stirred, h.stirred hswept.stirred hlist hs.perm⟩

theorem updateMetaData_spec (h : Paged c p m T l) (hfuel : 2 * maxTotalPages ≤ c.fuel) :
    wp (updateMetaData c p) (fun _ m' => ∃ l', l'.Perm l ∧ Stirred p m m' ∧ Paged c p m' T l')
      noStop m := by
  have hlen := h.listed.length_le
  have hhead : (m.proc p).pageListHeadRam = l.head? := h.listed.isList.head_eq
  have hq : Queued p (m.proc p).pgdir m ([] ++ l) := h.queued
  have hage : wp (agingLoop p maxTotalPages l.head?)
      (fun _ m' => ∃ l', l'.Perm l ∧ Stirred p m m' ∧ Paged c p m' T l') noStop m := by
    refine wp_post (Queued.aging_spec hq hlen) ?_
    rintro _ m' ⟨hs, hlist, -⟩
    exact ⟨l, List.Perm.refl _, hs.stirred, h.stirred hs.stirred hlist (List.Perm.refl _)⟩
  have hnone : ∃ l', l'.Perm l ∧ Stirred p m m ∧ Paged c p m T l' :=
    ⟨l, List.Perm.refl _, .refl p m, h⟩
  simp only [updateMetaData, wp_bind, wp_getProc]
  cases c.selection with
  | NFUA => rw [hhead]; exact hage
  | LAPA => rw [hhead]; exact hage
  | SCFIFO => exact hnone
  | AQ =>
    refine wp_post (h.queued.switchQueueAQ_spec hfuel) ?_
    rintro _ m' ⟨hs, hlist⟩
    exact ⟨_, advance_perm _ l, hs.stirred, h.stirred hs.stirred hlist (advance_perm _ l)⟩
  | NONE => exact hnone
  | LIFO => exact hnone

end Xv6Paging
