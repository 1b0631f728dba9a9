import Xv6Paging.Lib.Positions
import Xv6Paging.RefCount

/-! # Write faults on a shared frame, interleaved

    The branch of `trap` for a write to a present page reads the reference counter
    of the frame in one critical section and acts on it in later ones: it takes a
    frame, copies and remaps, and lowers the old counter, or it makes the page
    writable. Here these are separate steps, and the handlers of different processes
    interleave in any way.

    Two handlers that have both read `2` both copy, and the frame is left with
    counter `0`, no PTE and no place on the free list. As long as each handler that
    decides to copy leaves a reference for somebody else, counting the handlers that
    have decided before it, no frame is lost and no frame is writable twice.
-/

namespace Xv6Paging

open List Wp Run Holders Positions Function

variable {m : Machine} {d f v va : Nat} {c : Config} {x : Pte}

/-! ## Handlers in steps -/

/-- How far a process is in the handler. -/
inductive Handling where
  /-- `ref == 1` was read. -/
  | upgrade (va : Nat)
  /-- `ref > 1` was read, for frame `pa`. -/
  | copy (va pa : Nat)
  /-- `kalloc` has returned `mem`. -/
  | allocated (va pa : Nat) (mem : Option Nat)
  /-- `pa` is still to lose a reference. -/
  | owed (pa : Nat)
  deriving DecidableEq, Repr

inductive CowStep where
  /-- A write fault at `va`, up to `getRef`. -/
  | fault (va : Nat)
  | kalloc
  /-- From `kmemLock` to `kmemRelease`. -/
  | remap
  | decrementRef
  | upgrade
  deriving DecidableEq, Repr

/-- `*pte = *pte & ~PTE_COW | PTE_W` on a `PTE_COW` page. -/
def upgradePte (p va : Nat) : K Unit := do
  let pr ← getProc p
  let pte ← getPte pr.pgdir (vpn va)
  setPte pr.pgdir (vpn va) pte.own

/-- Copy the page into frame `mem` and map that; without a frame the process dies. -/
def copyAndRemap (p va : Nat) : Option Nat → K Unit
  | none => modifyProc p Proc.kill
  | some f => do
    let pr ← getProc p
    let pte ← getPte pr.pgdir (vpn va)
    modify fun m => m.setMem f (m.mem pte.frame)
    setPte pr.pgdir (vpn va) { pte.own with frame := f }

/-- The branch taken for frame `pa` with counter `ref`. -/
def branchOn (p va pa ref : Nat) : K (Option Handling) := do
  if ref = 1 then
    pure (some (.upgrade va))
  else if 1 < ref then
    pure (some (.copy va pa))
  else
    pgFault p true
    pure none

/-- A write fault at `va` up to the choice of the branch. -/
def decideBranch (p va : Nat) : K (Option Handling) := do
  let pr ← getProc p
  let pte ← derefPte pr.pgdir va
  if pte.p = true then
    let ref ← getRef pte.frame
    branchOn p va pte.frame ref
  else
    pure none

/-- A step of process `p`, which is at `r`; returns where `p` is then. A step that
    does not come next does nothing. -/
def CowStep.step (c : Config) (p : Nat) : CowStep → Option Handling → K (Option Handling)
  | .fault va, none => decideBranch p va
  | .kalloc, some (.copy va pa) => do
    let mem ← Xv6Paging.kalloc
    pure (some (.allocated va pa mem))
  | .remap, some (.allocated va pa mem) => do
    copyAndRemap p va mem
    pure (some (.owed pa))
  | .decrementRef, some (.owed pa) => do
    Xv6Paging.decrementRef c pa
    pure none
  | .upgrade, some (.upgrade va) => do
    upgradePte p va
    pure none
  | _, r => pure r

/-- The machine and the handlers in progress. -/
structure CowSys where
  machine : Machine
  handlers : List (Nat × Handling)

/-- A process and the step it takes. -/
abbrev CowTurn : Type := Nat × CowStep

def CowTurn.exec (c : Config) (t : CowTurn) : EStateM Stop CowSys Unit := do
  let s ← get
  let r ← onPart CowSys.machine (fun s m => { s with machine := m })
    (t.2.step c t.1 (s.handlers.lookup t.1))
  modify fun s => { s with handlers := place s.handlers t.1 r }

/-- The steps of one handler without interruption. -/
def handlerSteps (c : Config) (p va : Nat) : K Unit := do
  let r ← CowStep.step c p (.fault va) none
  let r ← CowStep.step c p .kalloc r
  let r ← CowStep.step c p .remap r
  let r ← CowStep.step c p .decrementRef r
  let _ ← CowStep.step c p .upgrade r
  pure ()

/-- The PTE of `va` in process `p`. -/
def Machine.pteOf (m : Machine) (p va : Nat) : Pte := (m.dirs (m.proc p).pgdir).pte (vpn va)

theorem derefPte_mapped (hlive : (m.dirs d).live = true) (ht : (m.dirs d).table (pdx va) ≠ none) :
    derefPte d va m = .ok ((m.dirs d).pte (vpn va)) m := by
  have h : wp (derefPte d va) (fun pte m' => pte = (m.dirs d).pte (vpn va) ∧ m' = m) noStop m := by
    rw [wp_derefPte_mapped _ hlive ht]
    exact ⟨rfl, rfl⟩
  obtain ⟨pte, m', hx, rfl, rfl⟩ := wp_noStop_iff.mp h
  exact hx

/-- They are the branch of `trap` for a present page. -/
theorem handlerSteps_eq (hlive : (m.dirs (m.proc p).pgdir).live = true)
    (ht : (m.dirs (m.proc p).pgdir).table (pdx va) ≠ none) (hp : (m.pteOf p va).p = true) :
    handlerSteps c p va m = cowFault c p va true m := by
  have hbranch : decideBranch p va m =
      (getRef (m.pteOf p va).frame >>= branchOn p va (m.pteOf p va).frame) m := by
    show (derefPte (m.proc p).pgdir va >>= _) m = _
    rw [bind_ok (derefPte_mapped hlive ht)]
    exact congrFun (if_pos hp) m
  show (decideBranch p va >>= _) m = (getRef (m.pteOf p va).frame >>= _) m
  by_cases hlt : (m.pteOf p va).frame < nframes
  · have href : getRef (m.pteOf p va).frame m =
        .ok (m.referenceCounters (m.pteOf p va).frame) m := by
      show (if (m.pteOf p va).frame < nframes then _ else _ : K Nat) m = _
      rw [if_pos hlt]
      rfl
    rw [bind_ok href] at hbranch ⊢
    unfold branchOn at hbranch
    by_cases hone : m.referenceCounters (m.pteOf p va).frame = 1
    · rw [if_pos hone] at hbranch ⊢
      rw [bind_ok hbranch]
      rfl
    · rw [if_neg hone] at hbranch ⊢
      by_cases hmore : 1 < m.referenceCounters (m.pteOf p va).frame
      · rw [if_pos hmore] at hbranch ⊢
        rw [bind_ok hbranch]
        -- After the counter is lowered nothing is left to do.
        have hend : ∀ m', (do
            let r ← CowStep.step c p .decrementRef (some (.owed (m.pteOf p va).frame))
            let _ ← CowStep.step c p .upgrade r
            pure ()) m' = decrementRef c (m.pteOf p va).frame m' := by
          intro m'
          show ((decrementRef c (m.pteOf p va).frame >>= _) >>= _) m' = _
          cases hx : decrementRef c (m.pteOf p va).frame m' with
          | ok a m'' =>
            rw [bind_assoc, bind_ok hx]
            rfl
          | error e m'' => rw [bind_assoc, bind_error hx]
        show ((kalloc >>= _) >>= _) m = (kalloc >>= _) m
        rw [bind_assoc]
        cases hl : m.freelist with
        | nil =>
          rw [bind_ok (kalloc_nil hl), bind_ok (kalloc_nil hl)]
          exact hend (m.setProc p (m.proc p).kill)
        | cons f free =>
          rw [bind_ok (kalloc_cons hl), bind_ok (kalloc_cons hl)]
          exact hend _
      · rw [if_neg hmore] at hbranch ⊢
        have hkill : decideBranch p va m = .ok none (m.setProc p (m.proc p).kill) := hbranch
        rw [bind_ok hkill]
        rfl
  · have href : getRef (m.pteOf p va).frame m = .error .wild m := by
      show (if (m.pteOf p va).frame < nframes then _ else _ : K Nat) m = _
      rw [if_neg hlt]
      rfl
    rw [bind_error href] at hbranch ⊢
    exact bind_error hbranch

/-! ## The invariant -/

/-- Frames that the handler holds in a variable, or has still to give up. -/
def Handling.flight : Handling → List Nat
  | .allocated _ _ (some f) => [f]
  | .owed pa => [pa]
  | _ => []

/-- The handler has decided to give up a reference to `f`. -/
def Handling.copies (f : Nat) : Handling → Bool
  | .upgrade _ => false
  | .copy _ pa => pa == f
  | .allocated _ pa _ => pa == f
  | .owed pa => pa == f

def flight (hs : List (Nat × Handling)) : List Nat := hs.flatMap fun x => x.2.flight

/-- Handlers that have decided to give up a reference to `f`. -/
def pending (hs : List (Nat × Handling)) (f : Nat) : Nat := hs.countP fun x => x.2.copies f

/-- Process `p` has the user page of `va` in RAM. -/
def Machine.Has (m : Machine) (p va : Nat) : Prop :=
  (m.proc p).used = true ∧ va < kernbase ∧ (m.dirs (m.proc p).pgdir).maps (vpn va) = true

/-- What a handler relies on while other handlers run. -/
def Handling.Ok (m : Machine) (p : Nat) : Handling → Prop
  | .upgrade va => m.Has p va ∧ m.referenceCounters (m.pteOf p va).frame = 1
  | .copy va pa => m.Has p va ∧ (m.pteOf p va).frame = pa
  | .allocated va pa mem => m.Has p va ∧ (m.pteOf p va).frame = pa ∧
      ∃ f, mem = some f ∧ m.referenceCounters f = 1
  | .owed _ => True

/-- A page that user code may write to is the only one of its frame. -/
def Machine.Writers (m : Machine) : Prop :=
  ∀ d v, v < nuserPages → (m.dirs d).maps v = true → ((m.dirs d).pte v).w = true →
    m.referenceCounters ((m.dirs d).pte v).frame = 1

/-- Processes have directories of their own. -/
def Machine.OwnDirs (m : Machine) : Prop :=
  ∀ p q, (m.proc p).used = true → (m.proc q).used = true → (m.proc p).pgdir = (m.proc q).pgdir → p = q

/-- Counters are right, up to what the handlers hold; each frame keeps a reference
    when the pending handlers have given up theirs. -/
structure CowInv (c : Config) (m : Machine) (hs : List (Nat × Handling)) : Prop where
  refs : RefInv c m (flight hs)
  writers : m.Writers
  dirs : m.OwnDirs
  pend : ∀ f, 0 < pending hs f → pending hs f + 1 ≤ m.referenceCounters f
  handlers : ∀ x ∈ hs, x.2.Ok m x.1

section Inv

variable {m' : Machine} {hs hs' rest : List (Nat × Handling)} {p pa : Nat}

theorem CowInv.perm (h : CowInv c m hs) (hp : hs.Perm hs') : CowInv c m hs' where
  refs := h.refs.perm (hp.flatMap_right _)
  writers := h.writers
  dirs := h.dirs
  pend := by
    intro f
    unfold pending
    rw [← hp.countP_eq]
    exact h.pend f
  handlers := fun x hx => h.handlers x (hp.mem_iff.mpr hx)

/-- A handler is not disturbed when its directory and the counters that are `1` stay. -/
theorem Handling.Ok.mono {h : Handling} (hok : h.Ok m p) (hproc : m'.proc = m.proc)
    (hdir : m'.dirs (m.proc p).pgdir = m.dirs (m.proc p).pgdir)
    (hrefs : ∀ f, m.referenceCounters f = 1 → m'.referenceCounters f = 1) : h.Ok m' p := by
  have hhas : ∀ va, m.Has p va → m'.Has p va := by
    intro va
    unfold Machine.Has
    rw [hproc, hdir]
    exact id
  have hpte : ∀ va, m'.pteOf p va = m.pteOf p va := by
    intro va
    unfold Machine.pteOf
    rw [hproc, hdir]
  cases h with
  | upgrade va => exact ⟨hhas va hok.1, by rw [hpte]; exact hrefs _ hok.2⟩
  | copy va pa => exact ⟨hhas va hok.1, by rw [hpte]; exact hok.2⟩
  | allocated va pa mem =>
    obtain ⟨hb, hf, f, rfl, h1⟩ := hok
    exact ⟨hhas va hb, by rw [hpte]; exact hf, f, rfl, hrefs f h1⟩
  | owed pa => trivial

/-- A page in RAM has a counter. -/
theorem CowInv.refs_pos (h : CowInv c m hs) (hb : m.Has p va) :
    0 < m.referenceCounters (m.pteOf p va).frame := by
  obtain ⟨_, hva, hmaps⟩ := hb
  have hlive := (PageDir.maps_iff.mp hmaps).1
  exact h.refs.balanced.refs_pos (h.refs.pte_mem hlive (vpn_lt hva)) (target_pte_of_maps hmaps)

/-! ### Each step keeps it -/

/-- Process `p` starts to handle a fault: it will upgrade, or it will copy and enough
    references are left. -/
theorem CowInv.start (hinv : CowInv c m rest) (hok : h.Ok m p) (hflight : h.flight = [])
    (hroom : ∀ f, h.copies f = true → pending rest f + 2 ≤ m.referenceCounters f) :
    CowInv c m ((p, h) :: rest) where
  refs := by
    show RefInv c m (h.flight ++ flight rest)
    rw [hflight]
    exact hinv.refs
  writers := hinv.writers
  dirs := hinv.dirs
  pend := by
    intro f hpos
    have hcount : pending ((p, h) :: rest) f = pending rest f + if h.copies f = true then 1 else 0 :=
      countP_cons
    rw [hcount] at hpos ⊢
    by_cases hf : h.copies f = true
    · rw [if_pos hf]
      exact hroom f hf
    · rw [if_neg hf] at hpos ⊢
      exact hinv.pend f hpos
  handlers := by
    intro x hx
    rcases mem_cons.mp hx with rfl | hx
    · exact hok
    · exact hinv.handlers x hx

/-- `kalloc` finds a frame. -/
theorem CowInv.kalloc {free : List Nat} (h : CowInv c m ((p, .copy va pa) :: rest))
    (hf : m.freelist = f :: free) :
    CowInv c (m.takeFrame f free) ((p, .allocated va pa (some f)) :: rest) := by
  have hzero : m.referenceCounters f = 0 :=
    (h.refs.balanced.free_iff.mp (by rw [hf]; exact mem_cons_self)).2
  -- Only the counter of the new frame changes, from `0` to `1`.
  have hrefs : ∀ g, m.referenceCounters g = 1 → (m.takeFrame f free).referenceCounters g = 1 := by
    intro g hg
    have hne : g ≠ f := by
      rintro rfl
      omega
    rw [Machine.takeFrame_referenceCounters, update_of_ne hne]
    exact hg
  refine ⟨h.refs.take hf, ?_, h.dirs, ?_, ?_⟩
  · intro d v hv hmaps hw
    exact hrefs _ (h.writers d v hv hmaps hw)
  · intro g hpos
    have hg := h.pend g hpos
    have hne : g ≠ f := by
      rintro rfl
      omega
    rw [Machine.takeFrame_referenceCounters, update_of_ne hne]
    exact hg
  · intro x hx
    rcases mem_cons.mp hx with rfl | hx
    · obtain ⟨hb, hpa⟩ := h.handlers _ mem_cons_self
      exact ⟨hb, hpa, f, rfl, by simp⟩
    · exact (h.handlers x (mem_cons_of_mem _ hx)).mono rfl rfl hrefs

/-- Writing a PTE of process `p` does not disturb the handler of another process. -/
theorem Handling.Ok.setPte {h : Handling} {q : Nat} (hok : h.Ok m q) (hdirs : m.OwnDirs)
    (hused : (m.proc p).used = true) (hne : q ≠ p) : h.Ok (m.setPte (m.proc p).pgdir v x) q := by
  have hkeep : (m.proc q).used = true → h.Ok (m.setPte (m.proc p).pgdir v x) q := by
    intro hq
    have hdir : (m.proc q).pgdir ≠ (m.proc p).pgdir := fun he => hne (hdirs q p hq hused he)
    exact hok.mono rfl (update_of_ne hdir _ _) fun _ h1 => h1
  cases h with
  | upgrade va => exact hkeep hok.1.1
  | copy va pa => exact hkeep hok.1.1
  | allocated va pa mem => exact hkeep hok.1.1
  | owed pa => trivial

/-- The other PTEs keep their writers, and the new one must be the only one. -/
theorem Machine.Writers.setPte (h : m.Writers) (hx : x.w = true → m.referenceCounters x.frame = 1) :
    (m.setPte d v x).Writers := by
  intro e w hw hmaps hwrite
  by_cases he : e = d ∧ w = v
  · obtain ⟨rfl, rfl⟩ := he
    simp only [Machine.setPte_dirs, update_self] at hwrite ⊢
    exact hx hwrite
  · have hpte : ((m.setPte d v x).dirs e).pte w = (m.dirs e).pte w := by
      by_cases hd : e = d
      · subst hd
        have hwv : w ≠ v := fun hwv => he ⟨rfl, hwv⟩
        simp [update_of_ne hwv]
      · simp [update_of_ne hd]
    have hmaps' : (m.dirs e).maps w = true := by
      rw [PageDir.maps_iff] at hmaps ⊢
      rw [setPte_live, setPte_table, hpte] at hmaps
      exact hmaps
    rw [hpte] at hwrite ⊢
    exact h e w hw hmaps' hwrite

/-- The copy is mapped in place of the shared frame. -/
theorem CowInv.remap {pg : Page} (h : CowInv c m ((p, .allocated va pa (some f)) :: rest))
    (hnew : p ∉ rest.map Prod.fst) :
    CowInv c ((m.setMem f pg).setPte (m.proc p).pgdir (vpn va) { (m.pteOf p va).own with frame := f })
      ((p, .owed pa) :: rest) := by
  obtain ⟨⟨hused, hva, hmaps⟩, hpa, f', hf', hone⟩ := h.handlers _ mem_cons_self
  cases hf'
  refine ⟨?_, ?_, h.dirs, h.pend, ?_⟩
  · have hrefs : RefInv c (m.setMem f pg) (f :: flight rest) := ⟨h.refs.balanced, h.refs.live_lt⟩
    have hp : (m.pteOf p va).own.p = true :=
      (m.pteOf p va).own_same.1.trans (PageDir.maps_iff.mp hmaps).2.2
    have hout := RefInv.remap (x := { (m.pteOf p va).own with frame := f }) hrefs (vpn_lt hva) hmaps hp
    have hframe : ((m.dirs (m.proc p).pgdir).pte (vpn va)).frame = pa := hpa
    rw [Machine.setMem_dirs, hframe] at hout
    exact hout
  · exact Machine.Writers.setPte (m := m.setMem f pg) h.writers fun _ => hone
  · intro x hx
    rcases mem_cons.mp hx with rfl | hx
    · trivial
    · have hne : x.1 ≠ p := fun he => hnew (he ▸ mem_map_of_mem hx)
      have hok : x.2.Ok (m.setMem f pg) x.1 :=
        (h.handlers x (mem_cons_of_mem _ hx)).mono rfl rfl fun _ => id
      exact hok.setPte h.dirs hused hne

/-- The last reference is not the one that is given up. -/
theorem CowInv.decrementRef (h : CowInv c m ((p, .owed pa) :: rest)) : CowInv c (m.lessRef pa) rest := by
  have hcount : ∀ f, pending ((p, .owed pa) :: rest) f = pending rest f + if pa = f then 1 else 0 := by
    intro f
    unfold pending
    rw [countP_cons]
    simp [Handling.copies]
  have htwo : pending rest pa + 2 ≤ m.referenceCounters pa := by
    have hp := h.pend pa
    rw [hcount, if_pos rfl] at hp
    exact hp (by omega)
  have hrefs : ∀ g, m.referenceCounters g = 1 → (m.lessRef pa).referenceCounters g = 1 := by
    intro g hg
    have hne : g ≠ pa := by
      rintro rfl
      omega
    rw [Machine.lessRef_referenceCounters, update_of_ne hne]
    exact hg
  refine ⟨h.refs.less (by omega), ?_, h.dirs, ?_, ?_⟩
  · intro d v hv hmaps hw
    exact hrefs _ (h.writers d v hv hmaps hw)
  · intro g hpos
    by_cases hg : g = pa
    · subst hg
      rw [Machine.lessRef_referenceCounters, update_self]
      omega
    · have hp := h.pend g
      rw [hcount, if_neg (fun he => hg he.symm)] at hp
      rw [Machine.lessRef_referenceCounters, update_of_ne hg]
      exact hp hpos
  · intro x hx
    exact (h.handlers x (mem_cons_of_mem _ hx)).mono rfl rfl hrefs

/-- The only owner makes the page writable. -/
theorem CowInv.upgrade (h : CowInv c m ((p, .upgrade va) :: rest)) (hnew : p ∉ rest.map Prod.fst) :
    CowInv c (m.setPte (m.proc p).pgdir (vpn va) (m.pteOf p va).own) rest := by
  obtain ⟨⟨hused, hva, hmaps⟩, hone⟩ := h.handlers _ mem_cons_self
  obtain ⟨hp, hframe, hu⟩ := (m.pteOf p va).own_same
  refine ⟨?_, ?_, h.dirs, h.pend, ?_⟩
  · have hsame : Neutral (fun _ => False) m (m.setPte (m.proc p).pgdir (vpn va) (m.pteOf p va).own) :=
      .setPte ⟨hp, fun _ => ⟨hframe, hu⟩⟩
    exact h.refs.neutral hsame
  · apply h.writers.setPte
    intro _
    rw [hframe]
    exact hone
  · intro x hx
    have hne : x.1 ≠ p := fun he => hnew (he ▸ mem_map_of_mem hx)
    exact (h.handlers x (mem_cons_of_mem _ hx)).setPte h.dirs hused hne

end Inv

/-! ## Runs -/

/-- The fault is one of a process in use at a user address. -/
def CowTurn.Promised (t : CowTurn) (s : CowSys) : Prop :=
  match t.2 with
  | .fault va => (s.machine.proc t.1).used = true ∧ va < kernbase
  | _ => True

/-- `kalloc` finds a frame. -/
def CowTurn.Served (t : CowTurn) (s : CowSys) : Prop :=
  match t.2 with
  | .kalloc => s.machine.freelist ≠ []
  | _ => True

/-- A handler that will give up a reference leaves one, when all handlers before it
    have given up theirs. -/
def CowTurn.Spaced (t : CowTurn) (s : CowSys) : Prop :=
  match t.2 with
  | .fault va =>
    s.handlers.lookup t.1 = none →
    1 < s.machine.referenceCounters (s.machine.pteOf t.1 va).frame →
    pending s.handlers (s.machine.pteOf t.1 va).frame + 2 ≤
      s.machine.referenceCounters (s.machine.pteOf t.1 va).frame
  | _ => True

def CowTurn.Ok (t : CowTurn) (s : CowSys) : Prop := t.Promised s ∧ t.Served s ∧ t.Spaced s

instance (t : CowTurn) (s : CowSys) : Decidable (t.Ok s) := by
  unfold CowTurn.Ok CowTurn.Promised CowTurn.Served CowTurn.Spaced
  obtain ⟨p, st⟩ := t
  cases st with
  | fault va => exact inferInstanceAs (Decidable ((_ ∧ _) ∧ True ∧ (_ → _ → _)))
  | kalloc => exact inferInstanceAs (Decidable (True ∧ _ ∧ True))
  | remap => exact inferInstanceAs (Decidable (True ∧ True ∧ True))
  | decrementRef => exact inferInstanceAs (Decidable (True ∧ True ∧ True))
  | upgrade => exact inferInstanceAs (Decidable (True ∧ True ∧ True))

section Runs

variable {rest : List (Nat × Handling)} {p : Nat}

theorem decideBranch_inv (h : CowInv c m rest) (hused : (m.proc p).used = true)
    (hva : va < kernbase) (hroom : 1 < m.referenceCounters (m.pteOf p va).frame →
      pending rest (m.pteOf p va).frame + 2 ≤ m.referenceCounters (m.pteOf p va).frame) :
    wp (decideBranch p va) (fun r m' => CowInv c m' (entry p r ++ rest)) anyStop m := by
  unfold decideBranch derefPte getRef branchOn
  simp only [wp_bind, wp_getProc, wp_walkpgdir, wp_throw, wp_getPte, wp_ite, wp_get, wp_pure]
  refine ⟨fun hlive => ⟨fun _ => trivial, fun htable => ⟨fun hp => ?_, fun _ => h⟩⟩, fun _ => trivial⟩
  have hhas : m.Has p va := ⟨hused, hva, PageDir.maps_iff.mpr ⟨hlive, htable, hp⟩⟩
  refine ⟨fun _ => ⟨fun hone => ?_, fun _ => ⟨fun hmore => ?_, fun hzero => ?_⟩⟩, fun _ => trivial⟩
  · exact h.start (h := .upgrade va) ⟨hhas, hone⟩ rfl fun f hf => absurd hf Bool.false_ne_true
  · refine h.start (h := .copy va _) ⟨hhas, rfl⟩ rfl fun f hf => ?_
    have hfa : (m.pteOf p va).frame = f := by simpa [Handling.copies, Machine.pteOf] using hf
    subst hfa
    exact hroom hmore
  · -- A page in RAM has a counter, so the branch for `0` is not taken.
    have hpos : 0 < m.referenceCounters (m.pteOf p va).frame := h.refs_pos hhas
    have hframe : (m.pteOf p va).frame = ((m.dirs (m.proc p).pgdir).pte (vpn va)).frame := rfl
    rw [hframe] at hpos
    omega

theorem CowStep.step_inv {st : CowStep} (h : CowInv c m (entry p r ++ rest))
    (hnew : p ∉ rest.map Prod.fst) (hpromised : ∀ va, st = .fault va → (m.proc p).used = true ∧ va < kernbase)
    (hserved : st = .kalloc → m.freelist ≠ [])
    (hspaced : ∀ va, st = .fault va → r = none → 1 < m.referenceCounters (m.pteOf p va).frame →
      pending rest (m.pteOf p va).frame + 2 ≤ m.referenceCounters (m.pteOf p va).frame) :
    wp (st.step c p r) (fun r' m' => CowInv c m' (entry p r' ++ rest)) anyStop m := by
  unfold CowStep.step
  split
  · next va => exact decideBranch_inv h (hpromised va rfl).1 (hpromised va rfl).2 (hspaced va rfl rfl)
  · next va pa =>
    rw [wp_bind, wp_kalloc]
    exact ⟨fun hnil => absurd hnil (hserved rfl), fun f free hf => CowInv.kalloc h hf⟩
  · next va pa mem =>
    obtain ⟨_, _, f, rfl, _⟩ := h.handlers _ mem_cons_self
    rw [wp_bind]
    exact CowInv.remap h hnew
  · next pa =>
    unfold Xv6Paging.decrementRef
    rw [wp_bind, wp_ite]
    exact ⟨fun _ => CowInv.decrementRef h, fun _ => trivial⟩
  · next va =>
    rw [wp_bind]
    exact CowInv.upgrade h hnew
  · exact h

end Runs

/-- Between turns. -/
structure CowSys.Inv (c : Config) (s : CowSys) : Prop where
  distinct : Distinct s.handlers
  cow : CowInv c s.machine s.handlers

theorem CowTurn.exec_inv (c : Config) (t : CowTurn) (s : CowSys) (h : s.Inv c) (hok : t.Ok s) :
    wp (t.exec c) (fun _ s' => s'.Inv c) anyStop s := by
  obtain ⟨p, st⟩ := t
  obtain ⟨hpromised, hserved, hspaced⟩ := hok
  have hinv := h.cow.perm (perm_place h.distinct p)
  unfold CowTurn.exec
  rw [wp_bind, wp_get, wp_bind, wp_onPart]
  refine wp_mono (CowStep.step_inv hinv not_mem_drop ?_ ?_ ?_) ?_ fun _ _ _ => trivial
  · rintro va rfl
    exact hpromised
  · rintro rfl
    exact hserved
  · rintro va rfl hout
    have hdrop : drop s.handlers p = s.handlers := drop_of_lookup hout
    rw [hdrop]
    exact hspaced hout
  · intro r m' hcow
    exact ⟨distinct_place h.distinct p r, hcow⟩

/-- No frame is mapped twice when one of the PTEs has `PTE_W`. -/
def Machine.OneWriter (m : Machine) : Prop :=
  ∀ d v e w, v < nuserPages → w < nuserPages → (m.dirs d).maps v = true → (m.dirs e).maps w = true →
    ((m.dirs d).pte v).frame = ((m.dirs e).pte w).frame → ((m.dirs d).pte v).w = true → d = e ∧ v = w

theorem RefInv.oneWriter (h : RefInv c m []) (hw : m.Writers) :
    m.OneWriter := by
  intro d v e w hv hw' hd he hframe hwrite
  by_contra hne
  have hu := h.pte_mem (PageDir.maps_iff.mp hd).1 hv
  have hu' := h.pte_mem (PageDir.maps_iff.mp he).1 hw'
  have hdiff : Use.pte d v ≠ Use.pte e w := by
    intro heq
    cases heq
    exact hne ⟨rfl, rfl⟩
  -- Two PTEs make the counter at least `2`.
  have htwo := two_le_holders hu hu' hdiff (target_pte_of_maps hd)
    (by rw [target_pte_of_maps he, hframe])
  have hcount := h.balanced.count (h.balanced.target_ok hu (target_pte_of_maps hd))
  have hone := hw d v hv hd hwrite
  omega

/-- No handler is in progress, counters are right, and writable pages are not shared. -/
structure CowSys.Start (c : Config) (s : CowSys) : Prop where
  idle : s.handlers = []
  refs : RefInv c s.machine []
  writers : s.machine.Writers
  dirs : s.machine.OwnDirs

theorem CowSys.Start.inv {s : CowSys} (h : s.Start c) : s.Inv c := by
  refine ⟨?_, ?_, h.writers, h.dirs, ?_, ?_⟩
  · rw [h.idle]
    exact nodup_nil
  · rw [h.idle]
    exact h.refs
  · intro f hpos
    rw [h.idle] at hpos
    exact absurd hpos (lt_irrefl 0)
  · intro x hx
    rw [h.idle] at hx
    exact absurd hx not_mem_nil

/-- **No frame is lost.** Any number of processes handle write faults, in any
    interleaving in which `kalloc` finds frames and a handler decides to copy only when
    references remain: once all handlers have finished, every counter is the number of
    uses of its frame, the free list has the frames with counter `0`, and no frame is
    mapped twice with `PTE_W`. -/
theorem cow_handlers_keep_frames (c : Config) (s s' : CowSys) (turns : List CowTurn)
    (outs : List Unit) (hstart : s.Start c) (hok : Along (CowTurn.exec c) CowTurn.Ok turns s)
    (hrun : run (CowTurn.exec c) turns s = .ok outs s') (hdone : s'.handlers = []) :
    FramesOk c s'.machine ∧ s'.machine.OneWriter := by
  have hinv : s'.Inv c := (wp_of_ok hrun).mp (wp_invariant (CowTurn.exec_inv c) hstart.inv hok)
  have hrefs : RefInv c s'.machine [] := by
    have h := hinv.cow.refs
    rw [hdone] at h
    exact h
  exact ⟨hrefs.framesOk, hrefs.oneWriter hinv.cow.writers⟩

/-! ### Processes that share one frame -/

/-- First of the 9 frames of the machines below. -/
def pairBase : Nat := 57335

/-- The shared page: copy on write, in the seventh frame. -/
def sharedPte : Pte := ⟨pairBase + 6, true, false, true, false, false, true⟩

/-- Three directories, each with a page table. -/
def trioTables : Machine :=
  let b := pairBase
  let dir := PageDir.fresh (smallConfig 9)
  let m1 := ((smallBoot 9).takeFrame b (List.range' (b + 1) 8)).setDir b dir
  let m2 := (m1.takeFrame (b + 1) (List.range' (b + 2) 7)).setDir (b + 1) dir
  let m3 := (m2.takeFrame (b + 2) (List.range' (b + 3) 6)).setDir (b + 2) dir
  let m4 := (m3.takeFrame (b + 3) (List.range' (b + 4) 5)).addTable b 0 (b + 3)
  let m5 := (m4.takeFrame (b + 4) (List.range' (b + 5) 4)).addTable (b + 1) 0 (b + 4)
  (m5.takeFrame (b + 5) (List.range' (b + 6) 3)).addTable (b + 2) 0 (b + 5)

/-- Two of them map the shared page at address 0. -/
def pairMapped : Machine :=
  let b := pairBase
  let m1 := (trioTables.takeFrame (b + 6) (List.range' (b + 7) 2)).setPte b 0 sharedPte
  (m1.moreRef (b + 6)).setPte (b + 1) 0 sharedPte

/-- All three do. -/
def trioMapped : Machine := (pairMapped.moreRef (pairBase + 6)).setPte (pairBase + 2) 0 sharedPte

/-- Processes 3, 4 and 5 run on the three directories. -/
def sharing (m : Machine) : CowSys where
  machine := { m with
    proc := fun p =>
      if 3 ≤ p ∧ p < 6 then smallProc (pairBase + (p - 3)) else { smallProc 0 with used := false } }
  handlers := []

def pairSys : CowSys := sharing pairMapped

def trioSys : CowSys := sharing trioMapped

theorem trioTables_refs : RefInv (smallConfig 9) trioTables [] := by
  have h0 : RefInv (smallConfig 9) (smallBoot 9) [] := (smallBoot_booted (by decide)).sound.refs
  have h1 := h0.newDir (d := pairBase) rfl
  have h2 := h1.newDir (d := pairBase + 1) rfl
  have h3 := h2.newDir (d := pairBase + 2) rfl
  have h4 := h3.table (d := pairBase) (k := 0) rfl rfl rfl (by decide)
  have h5 := h4.table (d := pairBase + 1) (k := 0) rfl rfl rfl (by decide)
  exact h5.table (d := pairBase + 2) (k := 0) rfl rfl rfl (by decide)

theorem pairMapped_refs : RefInv (smallConfig 9) pairMapped [] := by
  have h1 := (trioTables_refs.take (f := pairBase + 6) rfl).map (d := pairBase) (v := 0) (x := sharedPte)
    (by decide) rfl (by decide) (by decide) rfl
  have h2 := h1.more (d := pairBase) (v := 0) (by decide) (by decide)
  exact h2.map (d := pairBase + 1) (v := 0) (x := sharedPte) (by decide) rfl (by decide) (by decide) rfl

theorem trioMapped_refs : RefInv (smallConfig 9) trioMapped [] :=
  (pairMapped_refs.more (d := pairBase) (v := 0) (by decide) (by decide)).map (d := pairBase + 2) (v := 0)
    (x := sharedPte) (by decide) rfl (by decide) (by decide) rfl

/-- No user page is writable. -/
def Machine.ReadOnly (m : Machine) : Prop := ∀ d v, v < nuserPages → ((m.dirs d).pte v).w = false

theorem Machine.ReadOnly.setDir {dir : PageDir} (h : m.ReadOnly)
    (hdir : ∀ v, v < nuserPages → (dir.pte v).w = false) : (m.setDir d dir).ReadOnly := by
  intro e v hv
  by_cases he : e = d
  · subst he
    rw [Machine.setDir_dirs, update_self]
    exact hdir v hv
  · rw [Machine.setDir_dirs, update_of_ne he]
    exact h e v hv

theorem Machine.ReadOnly.addTable (h : m.ReadOnly) : (m.addTable d k f).ReadOnly := by
  apply h.setDir
  intro v hv
  show (if v / nptentries = k then Pte.zero else (m.dirs d).pte v).w = false
  split
  · rfl
  · exact h d v hv

theorem Machine.ReadOnly.setPte (h : m.ReadOnly) (hx : x.w = false) :
    (m.setPte d v x).ReadOnly := by
  rw [setPte_eq_setDir]
  apply h.setDir
  intro w hw
  show (update (m.dirs d).pte v x w).w = false
  rw [update_apply]
  split
  · exact hx
  · exact h d w hw

theorem pairMapped_readOnly : pairMapped.ReadOnly := by
  have hboot : (smallBoot 9).ReadOnly := fun _ _ _ => rfl
  have hfresh : ∀ v, v < nuserPages → ((PageDir.fresh (smallConfig 9)).pte v).w = false := by
    intro v hv
    show (kmapPte (smallConfig 9) v).w = false
    unfold kmapPte
    rw [if_pos hv]
    rfl
  -- The frames that are taken in between do not matter.
  have h1 : trioTables.ReadOnly :=
    (((((hboot.setDir hfresh).setDir hfresh).setDir hfresh).addTable).addTable).addTable
  exact (h1.setPte rfl).setPte rfl

theorem sharing_start (hrefs : RefInv (smallConfig 9) m []) (hread : m.ReadOnly) :
    (sharing m).Start (smallConfig 9) where
  idle := rfl
  refs := ⟨hrefs.balanced, hrefs.live_lt⟩
  writers := by
    intro d v hv _ hw
    have hno : ((m.dirs d).pte v).w = true := hw
    rw [hread d v hv] at hno
    exact absurd hno Bool.false_ne_true
  dirs := by
    have hdir : ∀ p, ((sharing m).machine.proc p).used = true →
        3 ≤ p ∧ ((sharing m).machine.proc p).pgdir = pairBase + (p - 3) := by
      intro p
      simp only [sharing]
      split
      · exact fun _ => ⟨by omega, rfl⟩
      · exact fun h => absurd h Bool.false_ne_true
    intro p q hp hq heq
    have := hdir p hp
    have := hdir q hq
    omega

/-- Of three processes two handle their faults in step, then the third. -/
def cowTurns : List CowTurn :=
  [(3, .fault 0), (4, .fault 0), (3, .kalloc), (4, .kalloc), (3, .remap), (4, .remap),
    (3, .decrementRef), (4, .decrementRef), (5, .fault 0), (5, .upgrade)]

theorem cow_handlers_keep_frames_trio :
    ∃ outs s', run (CowTurn.exec (smallConfig 9)) cowTurns trioSys = .ok outs s' ∧
      s'.handlers = [] ∧ FramesOk (smallConfig 9) s'.machine ∧ s'.machine.OneWriter := by
  have hstart : trioSys.Start (smallConfig 9) :=
    sharing_start trioMapped_refs (pairMapped_readOnly.setPte rfl)
  obtain ⟨outs, hrun⟩ := exists_of_returns
    (x := run (CowTurn.exec (smallConfig 9)) cowTurns) (s := trioSys) (by decide +kernel)
  have hdone : (final (run (CowTurn.exec (smallConfig 9)) cowTurns) trioSys).handlers = [] := by
    decide +kernel
  exact ⟨outs, _, hrun, hdone, cow_handlers_keep_frames _ _ _ _ _ hstart (by decide +kernel) hrun hdone⟩

/-- Two processes with the frame, the handlers in step: both read the counter before either lowers it. -/
def cowRaceTurns : List CowTurn :=
  [(3, .fault 0), (4, .fault 0), (3, .kalloc), (4, .kalloc), (3, .remap), (4, .remap),
    (3, .decrementRef), (4, .decrementRef)]

/-- The shared frame ends with counter `0`, no PTE maps it, and it is not on the free
    list: it is lost. -/
theorem cow_race_loses_frame :
    ∃ outs s', pairSys.Start (smallConfig 9) ∧
      run (CowTurn.exec (smallConfig 9)) cowRaceTurns pairSys = .ok outs s' ∧ s'.handlers = [] ∧
      s'.machine.referenceCounters (pairBase + 6) = 0 ∧ pairBase + 6 ∉ s'.machine.freelist ∧
      ¬ FramesOk (smallConfig 9) s'.machine := by
  obtain ⟨outs, hrun⟩ := exists_of_returns
    (x := run (CowTurn.exec (smallConfig 9)) cowRaceTurns) (s := pairSys) (by decide +kernel)
  generalize hs : final (run (CowTurn.exec (smallConfig 9)) cowRaceTurns) pairSys = s' at hrun
  have hzero : s'.machine.referenceCounters (pairBase + 6) = 0 := by
    rw [← hs]
    decide +kernel
  have hfree : pairBase + 6 ∉ s'.machine.freelist := by
    rw [← hs]
    decide +kernel
  refine ⟨outs, s', sharing_start pairMapped_refs pairMapped_readOnly, hrun, ?_, hzero, hfree, ?_⟩
  · rw [← hs]
    decide +kernel
  · intro hok
    have hcount := hok.free (pairBase + 6) (by decide)
    rw [if_pos hzero, count_eq_zero.mpr hfree] at hcount
    omega

end Xv6Paging
