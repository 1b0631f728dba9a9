import Xv6Paging.Policy
import Xv6Paging.SwapSpec

/-! # The paging code as a sequence of moves

    What the paging code does to a paged process is a sequence of a few moves:
    stirring the list, counting, creating the swap file, moving a page out,
    reading one back, adding a zeroed page, and giving the process a page of its
    own. `Move` is one of them, `Moves` a sequence. Facts about the memory the
    process sees, its page table and the rest of the machine are proved for one
    move and hold for every sequence.
-/

namespace Xv6Paging

open Wp Placement Function

variable {pr : Proc} {x : Pte} {f i v w : Nat} {rest : List Nat} {pg : Page} {m : Machine}
  {T : PageMap}

/-- A machine with the table and the list of the process. -/
structure Space where
  machine : Machine
  map : PageMap
  list : List Nat

/-- Page `v` has an entry. -/
def Tracked (T : PageMap) (v : Nat) : Prop := ∃ i < maxTotalPages, (T i).key = some v

/-- The shared page `v` has been copied to frame `f`, the head of the free list. -/
def Machine.copyOut (m : Machine) (p v f : Nat) (rest : List Nat) : Machine :=
  ((((m.takeFrame f rest).setMem f (m.mem (m.pte p v).frame)).setPte (m.proc p).pgdir v
    { (m.pte p v).own with frame := f }).lessRef (m.pte p v).frame)

/-- One move of the paging code of process `p`. -/
inductive Move (c : Config) (p : Nat) : Space → Space → Prop
  | stir {m m' : Machine} {T : PageMap} {l l' : List Nat} (h : Paged c p m T l)
      (hs : Stirred p m m') (h' : Paged c p m' T l') (hperm : l'.Perm l) :
      Move c p ⟨m, T, l⟩ ⟨m', T, l'⟩
  | count {m : Machine} {T : PageMap} {l : List Nat} (h : Paged c p m T l) :
      Move c p ⟨m, T, l⟩ ⟨m.setProc p (m.proc p).countFault, T, l⟩
  | create {m : Machine} {T : PageMap} {l : List Nat} {fd : Nat} (h : Paged c p m T l) :
      Move c p ⟨m, T, l⟩
        ⟨(m.setFtable fd 1).setProc p ((m.proc p).setSwapFile (some fd)), T, l⟩
  | evict {m : Machine} {T : PageMap} {xs ys : List Nat} {i v s : Nat} {pr : Proc}
      (h : Paged c p m T (xs ++ i :: ys)) (hT : T i = .fast v)
      (hslot : ∀ j < maxTotalPages, (T j).slot ≠ some s) (hpr : SameSpace (m.proc p) pr)
      (h' : Paged c p (m.evict p v s pr) (update T i (.slow v s)) (xs ++ ys)) :
      Move c p ⟨m, T, xs ++ i :: ys⟩
        ⟨m.evict p v s pr, update T i (.slow v s), xs ++ ys⟩
  | load {m : Machine} {T : PageMap} {l rest : List Nat} {i v s f : Nat} {pr : Proc}
      (h : Paged c p m T l) (hi : i < maxTotalPages) (hT : T i = .slow v s)
      (hf : m.freelist = f :: rest) (hpr : SameSpace (m.proc p) pr)
      (h' : Paged c p (m.bring p v f rest (fun k => (m.swap p).data (pgsize * s + k)) pr)
        (update T i (.fast v)) (l ++ [i])) :
      Move c p ⟨m, T, l⟩ ⟨m.bring p v f rest (fun k => (m.swap p).data (pgsize * s + k)) pr,
        update T i (.fast v), l ++ [i]⟩
  | add {m : Machine} {T : PageMap} {l rest : List Nat} {i v f : Nat} {pr : Proc}
      (h : Paged c p m T l) (hi : i < maxTotalPages) (hT : T i = .free) (hnew : ¬ Tracked T v)
      (hf : m.freelist = f :: rest) (hpr : SameSpace (m.proc p) pr)
      (h' : Paged c p (m.bring p v f rest Page.zero pr) (update T i (.fast v)) (l ++ [i])) :
      Move c p ⟨m, T, l⟩
        ⟨m.bring p v f rest Page.zero pr, update T i (.fast v), l ++ [i]⟩
  | own {m : Machine} {T : PageMap} {l : List Nat} {v : Nat} (h : Paged c p m T l)
      (hv : v < nuserPages) (hp : (m.pte p v).p = true)
      (hone : m.referenceCounters (m.pte p v).frame = 1) :
      Move c p ⟨m, T, l⟩ ⟨m.setPte (m.proc p).pgdir v (m.pte p v).own, T, l⟩
  | copy {m : Machine} {T : PageMap} {l rest : List Nat} {v f : Nat} (h : Paged c p m T l)
      (hv : v < nuserPages) (hp : (m.pte p v).p = true)
      (hshared : 1 < m.referenceCounters (m.pte p v).frame) (hf : m.freelist = f :: rest) :
      Move c p ⟨m, T, l⟩ ⟨m.copyOut p v f rest, T, l⟩

/-- A sequence of moves. -/
abbrev Moves (c : Config) (p : Nat) : Space → Space → Prop := Relation.ReflTransGen (Move c p)

variable {c : Config} {p : Nat} {s s' : Space}

/-- What every move preserves is preserved by every sequence. -/
theorem Moves.invariant {P : Space → Prop} (hstep : ∀ {s s'}, Move c p s s' → P s → P s')
    (h : Moves c p s s') (hs : P s) : P s' := by
  induction h with
  | refl => exact hs
  | tail _ hm ih => exact hstep hm ih

/-! ## The invariant -/

section Invariant

variable {m' : Machine} {l : List Nat}

/-- A change of the fields of the process that the invariant does not read. -/
theorem Placed.setProc (h : Placed c p m T) (hrec : pr.Recorded T)
    (hpgdir : pr.pgdir = (m.proc p).pgdir) (hav : pr.availableOffsets = (m.proc p).availableOffsets)
    (hopen : pr.swapFile = none → pr.numPagesDisk = 0) : Placed c p (m.setProc p pr) T := by
  have hpte : (m.setProc p pr).pte p = m.pte p := by
    funext v
    simp only [Machine.pte, Machine.setProc_proc, update_self, Machine.setProc_dirs, hpgdir]
  refine ⟨by simpa using hrec, ?_, ?_, ?_, ?_, ?_, ?_, h.free_nodup, h.free, ?_, ?_, h.global,
    h.unlocked, h.outside⟩
  · simpa [hpgdir] using h.live
  · simpa [hpgdir] using h.table
  · rw [hpte]; exact h.present_iff
  · rw [hpte]; exact h.paged_iff
  · rw [hpte]; exact h.frame
  · rw [hpte]; exact h.frame_inj
  · simp only [Machine.setProc_proc, update_self, hav]
    exact h.covered
  · simpa using hopen

theorem Paged.setProc (h : Paged c p m T l) (hrec : pr.Records T l)
    (hpgdir : pr.pgdir = (m.proc p).pgdir) (hav : pr.availableOffsets = (m.proc p).availableOffsets)
    (hopen : pr.swapFile = none → pr.numPagesDisk = 0) : Paged c p (m.setProc p pr) T l :=
  (h.toPlaced.setProc hrec.toRecorded hpgdir hav hopen).paged (by simpa using hrec)

theorem Proc.Records.countFault (h : pr.Records T l) : pr.countFault.Records T l :=
  { h with listed := ⟨h.listed.isList, h.listed.lt⟩ }

theorem Proc.Records.setSwapFile (h : pr.Records T l) (fd : Option Nat) :
    (pr.setSwapFile fd).Records T l :=
  { h with listed := ⟨h.listed.isList, h.listed.lt⟩ }

theorem Paged.setFtable (h : Paged c p m T l) (fd k : Nat) : Paged c p (m.setFtable fd k) T l :=
  { h with }

/-- A new PTE for a page that stays present. -/
theorem Paged.repoint (h : Paged c p m T l) (hv : v < nuserPages) (hp : (m.pte p v).p = true)
    (hx : x.p = true) (hproc : m'.proc p = m.proc p) (hswap : m'.swap p = m.swap p)
    (hdir : m'.dirs (m.proc p).pgdir = { m.dirs (m.proc p).pgdir with
      pte := update (m.dirs (m.proc p).pgdir).pte v x })
    (hframe : managed c x.frame ∧ 0 < m'.referenceCounters x.frame ∧
      ∀ w < nuserPages, w ≠ v → (m.pte p w).p = true → (m.pte p w).frame ≠ x.frame)
    (hrefs : ∀ w < nuserPages, w ≠ v → (m.pte p w).p = true →
      0 < m'.referenceCounters (m.pte p w).frame) (hnodup : m'.freelist.Nodup)
    (hfree : ∀ f ∈ m'.freelist, managed c f ∧ m'.referenceCounters f = 0)
    (hglobal : m'.globalPgdir = none) (hncli : m'.ncli = 0) (hdepth : m'.opDepth = 0) :
    Paged c p m' T l := by
  obtain ⟨i, hi, hT⟩ := (h.present_iff hv).mp hp
  have hsame : update T i (.fast v) = T := by rw [← hT, update_eq_self]
  refine Placed.paged ?_ (by rw [hproc]; exact h.records)
  rw [← hsame]
  obtain ⟨-, hold, hother⟩ := h.toPlaced.only_key hi (v := v) (by simp [hT])
  refine h.toPlaced.change (x := x) hi hv hold hother ?_ ?_ ?_ ?_ ?_ hdir (fun _ => hframe) hrefs hnodup
    hfree (by rw [hswap]) (by simp) hglobal hncli hdepth
  · intro w hw
    simpa [eq_comm] using hw
  · simp [hx]
  · simp [hx]
  · rw [hproc, hsame]; exact h.recorded
  · rw [hproc]; rfl

@[simp] theorem Pte.own_frame (x : Pte) : x.own.frame = x.frame := by unfold Pte.own; split <;> rfl
@[simp] theorem Pte.own_p (x : Pte) : x.own.p = x.p := by unfold Pte.own; split <;> rfl
@[simp] theorem Pte.own_u (x : Pte) : x.own.u = x.u := by unfold Pte.own; split <;> rfl

theorem Pte.own_writable (h : x.w = true ∨ x.cow = true) :
    x.own.w = true ∨ x.own.cow = true := by
  unfold Pte.own
  split
  · exact .inl rfl
  · exact h

theorem Paged.own (h : Paged c p m T l) (hv : v < nuserPages) (hp : (m.pte p v).p = true) :
    Paged c p (m.setPte (m.proc p).pgdir v (m.pte p v).own) T l := by
  refine h.repoint (x := (m.pte p v).own) hv hp (by simpa using hp) rfl rfl (by simp) ?_ ?_
    h.free_nodup (fun f hf => h.free hf) h.global h.unlocked h.outside
  · rw [Pte.own_frame]
    refine ⟨(h.frame hv hp).1, (h.frame hv hp).2, ?_⟩
    intro w hw hwv hpw heq
    exact hwv (h.frame_inj hw hv hpw hp heq)
  · intro w hw _ hpw
    exact (h.frame hw hpw).2

/-- A frame of the free list is mapped nowhere. -/
theorem Paged.frame_ne (h : Paged c p m T l) (hf : f ∈ m.freelist) (hw : w < nuserPages)
    (hp : (m.pte p w).p = true) : (m.pte p w).frame ≠ f := by
  intro heq
  have hpos := (h.frame hw hp).2
  rw [heq, (h.free hf).2] at hpos
  omega

theorem Paged.copy (h : Paged c p m T l) (hv : v < nuserPages) (hp : (m.pte p v).p = true)
    (hf : m.freelist = f :: rest) :
    Paged c p (m.copyOut p v f rest) T l := by
  have hmem : f ∈ m.freelist := by simp [hf]
  have hnd := h.free_nodup
  rw [hf, List.nodup_cons] at hnd
  have hold : (m.pte p v).frame ≠ f := h.frame_ne hmem hv hp
  refine h.repoint (x := { (m.pte p v).own with frame := f }) hv hp (by simpa using hp) rfl rfl
    (by simp [Machine.copyOut]) ⟨(h.free hmem).1, ?_, ?_⟩ ?_ hnd.2 ?_ h.global h.unlocked h.outside
  · simp [Machine.copyOut, hold, hold.symm]
  · intro w hw _ hpw
    exact h.frame_ne hmem hw hpw
  · intro w hw hwv hpw
    have hne : (m.pte p w).frame ≠ (m.pte p v).frame := fun heq =>
      hwv (h.frame_inj hw hv hpw hp heq)
    simpa [Machine.copyOut, hne, h.frame_ne hmem hw hpw] using (h.frame hw hpw).2
  · intro g hg
    have hgm : g ∈ m.freelist := by rw [hf]; exact List.mem_cons_of_mem f hg
    have hgf : g ≠ f := fun hgf => hnd.1 (hgf ▸ hg)
    have hgv : g ≠ (m.pte p v).frame := (h.frame_ne hgm hv hp).symm
    simpa [Machine.copyOut, hgf, hgv] using h.free hgm

/-- Every move keeps the invariant. -/
theorem Move.target (h : Move c p s s') : Paged c p s'.machine s'.map s'.list := by
  cases h with
  | stir _ _ h' _ => exact h'
  | count h => exact h.setProc h.records.countFault rfl rfl h.opened
  | create h =>
    exact (h.setFtable _ 1).setProc (h.records.setSwapFile _) rfl rfl (by simp [Proc.setSwapFile])
  | evict _ _ _ _ h' => exact h'
  | load _ _ _ _ _ h' => exact h'
  | add _ _ _ _ _ _ h' => exact h'
  | own h hv hp _ => exact h.own hv hp
  | copy h hv hp _ hf => exact h.copy hv hp hf

theorem Moves.target (h : Moves c p s s') (hs : Paged c p s.machine s.map s.list) :
    Paged c p s'.machine s'.map s'.list :=
  h.invariant (P := fun s => Paged c p s.machine s.map s.list) (fun hm _ => hm.target) hs

end Invariant

/-! ## The page table -/

section PageTable

variable {m' : Machine}

theorem setProc_pte (pr : Proc) (hpgdir : pr.pgdir = (m.proc p).pgdir) (w : Nat) :
    (m.setProc p pr).pte p w = m.pte p w := by
  simp only [Machine.pte, Machine.setProc_proc, update_self, Machine.setProc_dirs, hpgdir]

theorem countFault_pte (w : Nat) : (m.setProc p (m.proc p).countFault).pte p w = m.pte p w :=
  setProc_pte (m.proc p).countFault rfl w

theorem setSwapFile_pte {fd : Nat} {x : Option Nat} (w : Nat) :
    ((m.setFtable fd 1).setProc p ((m.proc p).setSwapFile x)).pte p w = m.pte p w :=
  setProc_pte (m := m.setFtable fd 1) ((m.proc p).setSwapFile x) rfl w

theorem setPte_pte (x : Pte) (w : Nat) :
    (m.setPte (m.proc p).pgdir v x).pte p w = if w = v then x else m.pte p w :=
  pte_change (m.setPte (m.proc p).pgdir v x) (x := x) (m := m) (p := p) (v := v) rfl
    (by simp) w

theorem evict_pte {s : Nat} (hpr : SameSpace (m.proc p) pr) (w : Nat) :
    (m.evict p v s pr).pte p w = if w = v then (m.pte p v).pagedOut else m.pte p w :=
  pte_change (m.evict p v s pr) (by simpa using hpr.pgdir) (by simp) w

theorem bring_pte (hpr : SameSpace (m.proc p) pr) (w : Nat) :
    (m.bring p v f rest pg pr).pte p w = if w = v then Pte.wu.mapTo f else m.pte p w :=
  pte_change (m.bring p v f rest pg pr) (by simpa using hpr.pgdir) (by simp) w

theorem copyOut_pte (w : Nat) :
    (m.copyOut p v f rest).pte p w =
      if w = v then { (m.pte p v).own with frame := f } else m.pte p w :=
  pte_change (m.copyOut p v f rest) (x := { (m.pte p v).own with frame := f }) (m := m)
    (p := p) (v := v) rfl (by simp [Machine.copyOut]) w

end PageTable

theorem Move.pte_u (h : Move c p s s') (hu : (s.machine.pte p w).u = true) :
    (s'.machine.pte p w).u = true := by
  cases h with
  | stir _ hs _ _ =>
    obtain ⟨b, hb⟩ := hs.pte w
    simpa [hb] using hu
  | count _ => rw [countFault_pte]; exact hu
  | create _ => rw [setSwapFile_pte]; exact hu
  | evict _ _ _ hpr _ =>
    rw [evict_pte hpr]
    split
    · rename_i heq; subst heq; exact hu
    · exact hu
  | load _ _ _ _ hpr _ =>
    rw [bring_pte hpr]
    split
    · rfl
    · exact hu
  | add _ _ _ _ _ hpr _ =>
    rw [bring_pte hpr]
    split
    · rfl
    · exact hu
  | own _ _ _ _ =>
    rw [setPte_pte]
    split
    · rename_i heq; subst heq; simpa using hu
    · exact hu
  | copy _ _ _ _ _ =>
    rw [copyOut_pte]
    split
    · rename_i heq; subst heq; simpa using hu
    · exact hu

/-! ## The pages that have entries -/

/-- The PTE of a page that has no entry. -/
theorem Placed.unmapped (h : Placed c p m T) (hv : v < nuserPages) (hnew : ¬ Tracked T v) :
    (m.pte p v).p = false ∧ (m.pte p v).pg = false := by
  have hp : (m.pte p v).p = false := by
    by_contra hp
    obtain ⟨i, hi, hT⟩ := (h.present_iff hv).mp (by simpa using hp)
    exact hnew ⟨i, hi, by simp [hT]⟩
  refine ⟨hp, ?_⟩
  by_contra hpg
  obtain ⟨i, hi, s, hT⟩ := (h.paged_iff hv).mp ⟨hp, by simpa using hpg⟩
  exact hnew ⟨i, hi, by simp [hT]⟩

theorem tracked_update (hi : i < maxTotalPages) (hkey : (T i).key = e.key) :
    Tracked (update T i e) v ↔ Tracked T v := by
  have hold := exists_update (T := T) (fun y => y.key = some v) (T i) hi
  rw [update_eq_self, hkey] at hold
  exact (exists_update (fun y => y.key = some v) e hi).trans hold.symm

theorem tracked_add (hi : i < maxTotalPages) (hT : T i = .free) :
    Tracked (update T i (.fast v)) w ↔ w = v ∨ Tracked T w := by
  refine (exists_update (fun y => y.key = some w) (.fast v) hi).trans (or_congr ?_ ?_)
  · simp [eq_comm]
  · exact exists_ne_iff (P := fun y => y.key = some w) (by simp [hT])

/-- A page gets an entry only by being added, and added pages are user pages. -/
theorem Move.tracked (h : Move c p s s') (hw : Tracked s'.map w) :
    Tracked s.map w ∨ (s'.machine.pte p w).u = true := by
  cases h with
  | stir _ _ _ _ => exact .inl hw
  | count _ => exact .inl hw
  | create _ => exact .inl hw
  | evict h hT _ _ _ =>
    exact .inl ((tracked_update (h.listed.lt _ (by simp)) (by simp [hT])).mp hw)
  | load _ hi hT _ _ _ => exact .inl ((tracked_update hi (by simp [hT])).mp hw)
  | add _ hi hT _ _ hpr _ =>
    rcases (tracked_add hi hT).mp hw with rfl | hw
    · exact .inr (by rw [bring_pte hpr, if_pos rfl]; rfl)
    · exact .inl hw
  | own _ _ _ _ => exact .inl hw
  | copy _ _ _ _ _ => exact .inl hw

/-- At most one page of the process is not a user page: the stack guard. -/
def Space.Guarded (p : Nat) (s : Space) : Prop :=
  ∀ v w, Tracked s.map v → Tracked s.map w → (s.machine.pte p v).u = false →
    (s.machine.pte p w).u = false → v = w

theorem Move.guarded (h : Move c p s s') (hs : s.Guarded p) : s'.Guarded p := by
  have hback : ∀ w, Tracked s'.map w → (s'.machine.pte p w).u = false →
      Tracked s.map w ∧ (s.machine.pte p w).u = false := by
    intro w hw hu
    refine ⟨(h.tracked hw).resolve_right (by simp [hu]), ?_⟩
    by_contra hne
    have := h.pte_u (w := w) (by simpa using hne)
    simp [hu] at this
  intro v w hv hw huv huw
  obtain ⟨hv', huv'⟩ := hback v hv huv
  obtain ⟨hw', huw'⟩ := hback w hw huw
  exact hs v w hv' hw' huv' huw'

/-! ## The memory the process sees -/

section View

variable {m' : Machine} {l : List Nat} {a : Nat}

/-- A present page keeps its bytes when its PTE is changed so that the frame it
    names holds the same. -/
theorem view_repoint (hpte : ∀ w, m'.pte p w = if w = v then x else m.pte p w)
    (hproc : m'.proc p = m.proc p) (hswap : m'.swap p = m.swap p) (hp : (m.pte p v).p = true)
    (hx : x.p = true) (hmem : m'.mem x.frame = m.mem (m.pte p v).frame)
    (hother : vpn a ≠ v → (m.pte p (vpn a)).p = true →
      m'.mem (m.pte p (vpn a)).frame = m.mem (m.pte p (vpn a)).frame) :
    m'.view p a = m.view p a := by
  by_cases hav : vpn a = v
  · simp only [Machine.view, hpte, hav, if_true, hx, hp, hmem]
  · simp only [Machine.view, hpte, hav, if_false, hproc, hswap]
    split
    · rename_i hpa; rw [hother hav hpa]
    · rfl

theorem Paged.view_copy (h : Paged c p m T l) (ha : vpn a < nuserPages) (hp : (m.pte p v).p = true)
    (hf : m.freelist = f :: rest) :
    (m.copyOut p v f rest).view p a = m.view p a := by
  have hmem : f ∈ m.freelist := by simp [hf]
  refine view_repoint (v := v) (x := { (m.pte p v).own with frame := f }) copyOut_pte rfl rfl hp
    (by simpa using hp) (by simp [Machine.copyOut]) ?_
  intro _ hpa
  simp [Machine.copyOut, h.frame_ne hmem ha hpa]

/-- No move changes what the process sees. -/
theorem Move.view (h : Move c p s s') (ha : vpn a < nuserPages) :
    s'.machine.view p a = s.machine.view p a := by
  cases h with
  | stir _ hs _ _ => exact hs.view a
  | count _ =>
    simp only [Machine.view, countFault_pte]
    simp only [Machine.setProc_proc, update_self, Machine.setProc_mem, Machine.setProc_swap]
    rfl
  | create _ =>
    simp only [Machine.view, setSwapFile_pte]
    simp only [Machine.setProc_proc, update_self, Machine.setProc_mem, Machine.setProc_swap]
    rfl
  | evict h hT hslot hpr h' => exact h.view_evict hT hslot h' hpr.pgdir ha
  | @load m T l rest i v s f pr h hi hT hf hpr h' =>
    rw [h.view_bring hi (by simp [hT, eq_comm]) hf h' hpr.pgdir ha]
    split
    · rename_i hav
      rw [h.view_slow hi (by rw [hT, hav]), Page.byte_mod]
    · rfl
  | @add m T l rest i v f pr h hi hT hnew hf hpr h' =>
    rw [h.view_bring hi (by simp [hT]) hf h' hpr.pgdir ha]
    split
    · rename_i hav
      have hnone : ∀ i < maxTotalPages, (T i).key ≠ some (vpn a) := by
        intro i hi hk'
        exact hnew ⟨i, hi, by rw [hk', hav]⟩
      rw [h.view_free ha hnone, Page.byte_mod]
      rfl
    · rfl
  | own h hv hp _ =>
    exact view_repoint (v := _) (setPte_pte _) rfl rfl hp (by simpa using hp) (by simp)
      (fun _ _ => rfl)
  | copy h hv hp _ hf => exact h.view_copy ha hp hf

theorem Moves.view (h : Moves c p s s') (ha : vpn a < nuserPages) :
    s'.machine.view p a = s.machine.view p a :=
  h.invariant (P := fun t => t.machine.view p a = s.machine.view p a)
    (fun hm ht => (hm.view ha).trans ht) rfl

end View

/-! ## The rest of the machine -/

/-- What the paging code of process `p` leaves alone. -/
structure Kept (p : Nat) (m m' : Machine) : Prop where
  sz : (m'.proc p).sz = (m.proc p).sz
  pgdir : (m'.proc p).pgdir = (m.proc p).pgdir
  killed : (m'.proc p).killed = (m.proc p).killed
  used : (m'.proc p).used = (m.proc p).used
  kstack : (m'.proc p).kstack = (m.proc p).kstack
  proc_ne : ∀ q, q ≠ p → m'.proc q = m.proc q
  swap_ne : ∀ q, q ≠ p → m'.swap q = m.swap q
  dirs_ne : ∀ d, d ≠ (m.proc p).pgdir → m'.dirs d = m.dirs d
  table : (m'.dirs (m.proc p).pgdir).table = (m.dirs (m.proc p).pgdir).table
  rest : m' = { m with
    freelist := m'.freelist, referenceCounters := m'.referenceCounters
    systemFreePages := m'.systemFreePages, mem := m'.mem, dirs := m'.dirs, proc := m'.proc
    ftable := m'.ftable, swap := m'.swap }

section Kept

variable {m' m'' : Machine}

theorem Kept.refl (p : Nat) (m : Machine) : Kept p m m :=
  ⟨rfl, rfl, rfl, rfl, rfl, fun _ _ => rfl, fun _ _ => rfl, fun _ _ => rfl, rfl, rfl⟩

theorem Kept.trans (h : Kept p m m') (h' : Kept p m' m'') : Kept p m m'' where
  sz := h'.sz.trans h.sz
  pgdir := h'.pgdir.trans h.pgdir
  killed := h'.killed.trans h.killed
  used := h'.used.trans h.used
  kstack := h'.kstack.trans h.kstack
  proc_ne := fun q hq => (h'.proc_ne q hq).trans (h.proc_ne q hq)
  swap_ne := fun q hq => (h'.swap_ne q hq).trans (h.swap_ne q hq)
  dirs_ne := fun d hd => (h'.dirs_ne d (by rwa [h.pgdir])).trans (h.dirs_ne d hd)
  table := by rw [← h.table, ← h.pgdir, h'.table]
  rest := by rw [h'.rest, h.rest]

/-- What no move changes. -/
theorem Move.kept (h : Move c p s s') : Kept p s.machine s'.machine := by
  cases h with
  | stir _ hs _ _ =>
    have hr := hs.proc.rest
    exact ⟨by rw [hr], by rw [hr], by rw [hr], by rw [hr], by rw [hr], hs.proc_ne,
      fun q _ => by rw [hs.rest], hs.dirs_ne, hs.table, by rw [hs.rest]⟩
  | count _ =>
    exact ⟨by simp [Proc.countFault], by simp [Proc.countFault], by simp [Proc.countFault],
      by simp [Proc.countFault], by simp [Proc.countFault], fun q hq => by simp [hq], fun _ _ => rfl,
      fun _ _ => rfl, rfl, rfl⟩
  | create _ =>
    exact ⟨by simp [Proc.setSwapFile], by simp [Proc.setSwapFile], by simp [Proc.setSwapFile],
      by simp [Proc.setSwapFile], by simp [Proc.setSwapFile], fun q hq => by simp [hq],
      fun _ _ => rfl, fun _ _ => rfl, rfl, rfl⟩
  | evict _ _ _ hpr _ =>
    exact ⟨by simp; rw [hpr], by simp; rw [hpr], by simp; rw [hpr], by simp; rw [hpr],
      by simp; rw [hpr], fun q hq => by simp [hq], fun q hq => by simp [hq],
      fun d hd => by simp [hd], by simp, rfl⟩
  | load _ _ _ _ hpr _ =>
    exact ⟨by simp; rw [hpr], by simp; rw [hpr], by simp; rw [hpr], by simp; rw [hpr],
      by simp; rw [hpr], fun q hq => by simp [hq], fun q hq => by simp, fun d hd => by simp [hd],
      by simp, rfl⟩
  | add _ _ _ _ _ hpr _ =>
    exact ⟨by simp; rw [hpr], by simp; rw [hpr], by simp; rw [hpr], by simp; rw [hpr],
      by simp; rw [hpr], fun q hq => by simp [hq], fun q hq => by simp, fun d hd => by simp [hd],
      by simp, rfl⟩
  | own _ _ _ _ =>
    exact ⟨rfl, rfl, rfl, rfl, rfl, fun _ _ => rfl, fun _ _ => rfl, fun d hd => by simp [hd],
      by simp, rfl⟩
  | copy _ _ _ _ _ =>
    exact ⟨rfl, rfl, rfl, rfl, rfl, fun _ _ => rfl, fun _ _ => rfl,
      fun d hd => by simp [Machine.copyOut, hd], by simp [Machine.copyOut], rfl⟩

theorem Moves.kept (h : Moves c p s s') : Kept p s.machine s'.machine :=
  h.invariant (P := fun t => Kept p s.machine t.machine) (fun hm ht => ht.trans hm.kept)
    (Kept.refl p _)

end Kept

/-! ## Pages that are not shared -/

/-- Every page of the process that is in RAM is its own and writable. -/
def Space.Private (p : Nat) (s : Space) : Prop :=
  ∀ v < nuserPages, (s.machine.pte p v).p = true →
    s.machine.referenceCounters (s.machine.pte p v).frame = 1 ∧ (s.machine.pte p v).w = true

theorem Space.Private.bring {T' : PageMap} {l l' : List Nat} (hs : Space.Private p ⟨m, T, l⟩)
    (h : Paged c p m T l) (hf : m.freelist = f :: rest) (hpr : SameSpace (m.proc p) pr) :
    Space.Private p ⟨m.bring p v f rest pg pr, T', l'⟩ := by
  intro w hw hp
  simp only [bring_pte hpr, bring_refs] at hp ⊢
  by_cases hwv : w = v
  · simp [hwv, Pte.wu]
  · simp only [if_neg hwv] at hp ⊢
    rw [update_of_ne (h.frame_ne (by simp [hf]) hw hp)]
    exact hs w hw hp

/-- Pages stay private: a page that comes in gets a new frame. -/
theorem Move.private (h : Move c p s s') (hs : s.Private p) : s'.Private p := by
  cases h with
  | stir _ hst _ _ =>
    intro v hv hp
    obtain ⟨b, hb⟩ := hst.pte v
    have hrefs := congrArg Machine.referenceCounters hst.rest
    simp only [hb, Pte.setA_p, Pte.setA_frame, Pte.setA_w, hrefs] at hp ⊢
    exact hs v hv hp
  | count _ =>
    intro v hv hp
    rw [countFault_pte] at hp ⊢
    exact hs v hv hp
  | create _ =>
    intro v hv hp
    rw [setSwapFile_pte] at hp ⊢
    exact hs v hv hp
  | @evict m T xs ys i v s pr h hT _ hpr _ =>
    have hi : i < maxTotalPages := h.listed.lt i (by simp)
    have hv : v < nuserPages := lt_nuserPages (h.records.page_lt hi (by simp [hT]))
    have hpv : (m.pte p v).p = true := (h.present_iff hv).mpr ⟨i, hi, hT⟩
    intro w hw hp
    simp only [evict_pte hpr, evict_refs] at hp ⊢
    by_cases hwv : w = v
    · simp [hwv] at hp
    · simp only [if_neg hwv] at hp ⊢
      have hne : (m.pte p w).frame ≠ (m.pte p v).frame := fun heq =>
        hwv (h.frame_inj hw hv hp hpv heq)
      rw [update_of_ne hne]
      exact hs w hw hp
  | load h _ _ hf hpr _ => exact hs.bring h hf hpr
  | add h _ _ _ hf hpr _ => exact hs.bring h hf hpr
  | @own m T l v h hv hpv _ =>
    intro w hw hp
    simp only [setPte_pte, Machine.setPte_referenceCounters] at hp ⊢
    by_cases hwv : w = v
    · subst hwv
      have hw1 := hs w hw hpv
      simp only [if_true, Pte.own_frame]
      refine ⟨hw1.1, ?_⟩
      unfold Pte.own
      split
      · rfl
      · exact hw1.2
    · simp only [if_neg hwv] at hp ⊢
      exact hs w hw hp
  | copy h hv hp hshared _ =>
    have := (hs _ hv hp).1
    simp only at this
    omega

/-- No page of the process is read-only: what the hardware must not write to is
    marked copy-on-write. -/
def Space.Writable (p : Nat) (s : Space) : Prop :=
  ∀ v < nuserPages, (s.machine.pte p v).p = true →
    (s.machine.pte p v).w = true ∨ (s.machine.pte p v).cow = true

/-- Pages stay writable or copy-on-write. -/
theorem Move.writable (h : Move c p s s') (hs : s.Writable p) : s'.Writable p := by
  intro w hw
  have hold := hs w hw
  cases h with
  | stir _ hst _ _ =>
    obtain ⟨b, hb⟩ := hst.pte w
    simpa [hb] using hold
  | count _ => rwa [countFault_pte]
  | create _ => rwa [setSwapFile_pte]
  | evict _ _ _ hpr _ =>
    rw [evict_pte hpr]
    split
    · simp
    · exact hold
  | load _ _ _ _ hpr _ =>
    rw [bring_pte hpr]
    split
    · exact fun _ => .inl rfl
    · exact hold
  | add _ _ _ _ _ hpr _ =>
    rw [bring_pte hpr]
    split
    · exact fun _ => .inl rfl
    · exact hold
  | own _ _ _ _ =>
    rw [setPte_pte]
    split
    · rename_i heq; subst heq
      exact fun hp => Pte.own_writable (hold (by simpa using hp))
    · exact hold
  | copy _ _ _ _ _ =>
    rw [copyOut_pte]
    split
    · rename_i heq; subst heq
      exact fun hp => Pte.own_writable (hold (by simpa using hp))
    · exact hold

end Xv6Paging
