import Xv6Paging.Lib.Relational
import Xv6Paging.Lib.Run
import Xv6Paging.Quiet

/-! # Code that is confined to one page directory

    `OnlyUses d x m` says that `x`, run from `m`, depends on no page directory but
    `d` and changes no other. Page faults, growing and shrinking of a process are
    confined to the directory of the process as long as `global_pgdir` does not lead
    the swap code elsewhere. The proof compares two runs from machines that differ
    in the other directories, function by function.
-/

namespace Xv6Paging

open Wp Function

variable {α : Type} {m : Machine} {f : Machine → Machine} {x : K α}

/-! ## Being confined to one directory -/

/-- The machine with every directory but `d` replaced. -/
def Machine.others (m : Machine) (d : Nat) (es : Nat → PageDir) : Machine :=
  { m with dirs := update es d (m.dirs d) }

/-- The result of a run with the state it ends in changed. -/
def mapFinal {ε σ α : Type} (f : σ → σ) : EStateM.Result ε σ α → EStateM.Result ε σ α
  | .ok a s => .ok a (f s)
  | .error e s => .error e (f s)

/-- Whatever the directories other than `d` hold, `x` takes the same course, and
    leaves them as they are: no PTE of another directory is read or written. -/
def OnlyUses {α : Type} (d : Nat) (x : K α) (m : Machine) : Prop :=
  ∀ es, x (m.others d es) = mapFinal (fun m' => m'.others d es) (x m)

theorem Machine.others_dirs (m : Machine) (d : Nat) : m.others d m.dirs = m := by
  unfold Machine.others
  rw [update_eq_self]

/-- In particular the run leaves the other directories alone. -/
theorem OnlyUses.dirs_eq (h : OnlyUses d x m) (he : e ≠ d) : (Run.final x m).dirs e = m.dirs e := by
  have hm := h m.dirs
  rw [Machine.others_dirs] at hm
  unfold Run.final
  cases hx : x m with
  | ok a m' =>
    rw [hx] at hm
    have hm' : m' = m'.others d m.dirs := (EStateM.Result.ok.inj hm).2
    show m'.dirs e = m.dirs e
    rw [hm']
    exact update_of_ne he _ _
  | error err m' =>
    rw [hx] at hm
    have hm' : m' = m'.others d m.dirs := (EStateM.Result.error.inj hm).2
    show m'.dirs e = m.dirs e
    rw [hm']
    exact update_of_ne he _ _

/-! ### Two machines that differ in the other directories -/

section Twins

variable {p d : Nat} {es : Nat → PageDir}

/-- `n` is `m` with the directories other than `d` replaced, and process `p`, whose
    directory is `d`, is not led elsewhere by `global_pgdir`. -/
structure Twin (p d : Nat) (es : Nat → PageDir) (m n : Machine) : Prop where
  eq : n = m.others d es
  pgdir : (m.proc p).pgdir = d
  global : m.globalPgdir.getD (m.proc p).pgdir = d

/-- Code of process `p` that is confined to the directory `d` of `p`. -/
abbrev Confined (p d : Nat) (es : Nat → PageDir) {α : Type} (x : K α) : Prop :=
  Alike (Twin p d es) (fun m n => n = m.others d es) x

theorem Confined.onlyUses (hx : ∀ es, Confined p d es x) (hpgdir : (m.proc p).pgdir = d)
    (hglobal : m.globalPgdir.getD (m.proc p).pgdir = d) :
    OnlyUses d x m := by
  intro es
  have h := hx es m (m.others d es) ⟨rfl, hpgdir, hglobal⟩
  unfold Both at h
  -- The two runs end alike, so only two of the four cases are left.
  cases h1 : x m with
  | ok a m' =>
    cases h2 : x (m.others d es) with
    | ok b n' =>
      rw [h1, h2] at h
      obtain ⟨rfl, ht⟩ := h
      rw [ht.eq]
      rfl
    | error e n' =>
      rw [h1, h2] at h
      exact h.elim
  | error e m' =>
    cases h2 : x (m.others d es) with
    | ok b n' =>
      rw [h1, h2] at h
      exact h.elim
    | error e' n' =>
      rw [h1, h2] at h
      obtain ⟨rfl, ht⟩ := h
      rw [ht]
      rfl

/-- An update that commutes with replacing the other directories. -/
theorem Twin.map {n : Machine} (h : Twin p d es m n) (hf : f (m.others d es) = (f m).others d es)
    (hpgdir : ((f m).proc p).pgdir = (m.proc p).pgdir)
    (hglobal : (f m).globalPgdir = m.globalPgdir) :
    Twin p d es (f m) (f n) where
  eq := by rw [h.eq, hf]
  pgdir := hpgdir.trans h.pgdir
  global := by rw [hpgdir, hglobal]; exact h.global

theorem confined_throw (e : Stop) : Confined p d es (throw e : K α) :=
  alike_throw (fun _ _ h => h.eq) e

theorem confined_modify (hf : ∀ m, f (m.others d es) = (f m).others d es)
    (hpgdir : ∀ m, ((f m).proc p).pgdir = (m.proc p).pgdir)
    (hglobal : ∀ m, (f m).globalPgdir = m.globalPgdir) : Confined p d es (modify f) :=
  alike_modify fun m _ h => h.map (hf m) (hpgdir m) (hglobal m)

/-! ### Reading the process -/

theorem confined_getProc {f : Proc → K α} (hf : ∀ pr, pr.pgdir = d → Confined p d es (f pr)) :
    Confined p d es (getProc p >>= f) := by
  intro m n h
  obtain rfl := h.eq
  exact hf (m.proc p) h.pgdir m _ h

theorem confined_curDir {f : Nat → K α} (hf : Confined p d es (f d)) :
    Confined p d es (curDir p >>= f) := by
  intro m n h
  obtain rfl := h.eq
  show Both _ _ (f (m.globalPgdir.getD (m.proc p).pgdir))
    (f (m.globalPgdir.getD (m.proc p).pgdir)) m (m.others d es)
  rw [h.global]
  exact hf m _ h

/-- The process keeps its directory. -/
def SameDir (pr pr' : Proc) : Prop := pr'.pgdir = pr.pgdir

instance : Std.Refl SameDir := ⟨fun _ => rfl⟩

instance : IsTrans Proc SameDir := ⟨fun _ _ _ h h' => Eq.trans h' h⟩

theorem SameDir.procLogic : ProcLogic SameDir :=
  ⟨⟨fun _ _ _ => rfl, fun _ _ _ => rfl, fun _ _ => rfl⟩, fun h _ _ _ => h⟩

theorem confined_onProc {x : P α} (h : Keeps SameDir Stop.NoPanic x) :
    Confined p d es (onProc p x) := by
  apply alike_onPart
  · intro m n hmn
    rw [hmn.eq]
    rfl
  · intro m n a pr hmn hx
    have hdir : SameDir (m.proc p) pr := (wp_of_ok hx).mp (h (m.proc p))
    exact hmn.map (f := fun m => m.setProc p pr) rfl (by simpa [SameDir] using hdir) rfl
  · intro m n pr hmn
    rw [hmn.eq]
    rfl

/-! ### Page tables of `d` -/

theorem others_self (m : Machine) : (m.others d es).dirs d = m.dirs d :=
  update_self _ _ _

theorem others_setDir (m : Machine) (dir : PageDir) :
    (m.others d es).setDir d dir = (m.setDir d dir).others d es := by
  simp [Machine.others, Machine.setDir]

theorem others_setPte (m : Machine) (v : Nat) (x : Pte) :
    (m.others d es).setPte d v x = (m.setPte d v x).others d es := by
  rw [setPte_eq_setDir, setPte_eq_setDir, others_self, others_setDir]

theorem confined_getPte (v : Nat) : Confined p d es (getPte d v) := by
  intro m n h
  obtain rfl := h.eq
  exact ⟨by rw [others_self], h⟩

theorem confined_setPte (v : Nat) (x : Pte) : Confined p d es (setPte d v x) :=
  confined_modify (fun m => others_setPte m v x) (fun _ => rfl) (fun _ => rfl)

theorem confined_kalloc : Confined p d es kalloc := by
  intro m n h
  obtain rfl := h.eq
  unfold Both
  cases hl : m.freelist with
  | nil =>
    rw [kalloc_nil hl, kalloc_nil (m := m.others d es) hl]
    exact ⟨rfl, h⟩
  | cons r rest =>
    rw [kalloc_cons hl, kalloc_cons (m := m.others d es) hl]
    exact ⟨rfl, h.map (f := fun m => m.takeFrame r rest) rfl rfl rfl⟩

/-- Code that looks at no more than the directory `d` and the rest of the machine. -/
theorem confined_kfree (c : Config) (f : Nat) : Confined p d es (kfree c f) := by
  intro m n h
  obtain rfl := h.eq
  unfold kfree
  by_cases hm : managed c f
  · rw [if_pos hm]
    show Both _ _ (if m.useLock = true ∧ m.referenceCounters f = 0 then _ else set (m.dropRef f))
      (if m.useLock = true ∧ m.referenceCounters f = 0 then _
        else set ((m.others d es).dropRef f)) m (m.others d es)
    by_cases hz : m.useLock = true ∧ m.referenceCounters f = 0
    · rw [if_pos hz, if_pos hz]
      exact ⟨rfl, rfl⟩
    · rw [if_neg hz, if_neg hz]
      exact ⟨rfl, h.map (f := fun m => m.dropRef f) rfl rfl rfl⟩
  · rw [if_neg hm]
    exact ⟨rfl, rfl⟩

theorem confined_walkpgdir (va : Nat) (alloc : Bool) : Confined p d es (walkpgdir d va alloc) := by
  apply alike_get
  · intro m n h
    rw [h.eq, others_self]
  · intro m
    apply alike_ite
    · cases (m.dirs d).table (pdx va) with
      | some t => exact alike_pure _
      | none =>
        apply alike_ite
        · apply alike_bind confined_kalloc
          intro r
          cases r with
          | none => exact alike_pure _
          | some f =>
            refine alike_bind (confined_modify ?_ (fun _ => rfl) (fun _ => rfl)) fun _ => alike_pure _
            intro m
            unfold Machine.addTable
            rw [others_self, others_setDir]
        · exact alike_pure _
    · exact confined_throw _

theorem confined_userPage (va : Nat) : Confined p d es (userPage p va) := by
  intro m n h
  obtain rfl := h.eq
  refine ⟨?_, h⟩
  show m.mem ((m.dirs (m.proc p).pgdir).pte (vpn va)).frame =
    m.mem (((m.others d es).dirs (m.proc p).pgdir).pte (vpn va)).frame
  rw [h.pgdir, others_self]

/-! ### Files -/

theorem confined_beginOp : Confined p d es beginOp :=
  confined_modify (fun _ => rfl) (fun _ => rfl) (fun _ => rfl)

theorem confined_iderw : Confined p d es iderw := by
  apply alike_get
  · intro m n h
    rw [h.eq]
    rfl
  · intro m
    exact alike_ite _ (alike_pure _) (confined_throw _)

theorem confined_endOp : Confined p d es endOp := by
  refine alike_bind (confined_modify (fun _ => rfl) (fun _ => rfl) (fun _ => rfl)) fun _ => ?_
  apply alike_get
  · intro m n h
    rw [h.eq]
    rfl
  · intro m
    exact alike_ite _ confined_iderw (alike_pure _)

theorem confined_swapWritei (q : Nat) (src : Nat → UInt8) (off n : Nat) :
    Confined p d es (swapWritei q src off n) := by
  intro m n h
  obtain rfl := h.eq
  have hswap : (m.others d es).swap = m.swap := rfl
  rw [Both, swapWritei, bind_get, bind_get, hswap]
  cases (m.swap q).writei src off _ with
  | none => exact ⟨rfl, h⟩
  | some ip => exact ⟨rfl, h.map (f := fun m => m.setSwap q ip) rfl rfl rfl⟩

theorem confined_readFromSwapFile (off size : Nat) :
    Confined p d es (readFromSwapFile p off size) := by
  apply confined_getProc
  intro pr _
  cases pr.swapFile with
  | none => exact confined_throw _
  | some fd =>
    apply alike_get
    · intro m n h
      rw [h.eq]
      rfl
    · intro m
      exact alike_pure _

theorem confined_filealloc : Confined p d es filealloc := by
  intro m n h
  obtain rfl := h.eq
  have hftable : (m.others d es).ftable = m.ftable := rfl
  rw [Both, filealloc, bind_get, bind_get, hftable]
  cases (List.range nfile).find? (fun i => m.ftable i == 0) with
  | none => exact ⟨rfl, h⟩
  | some i => exact ⟨rfl, h.map (f := fun m => m.setFtable i 1) rfl rfl rfl⟩

/-! ### The swap code -/

theorem confined_code (c : Config) : MoveLogic c p (· = d) SameDir (@Confined p d es) where
  pure := alike_pure
  bind := alike_bind
  throw := fun _ => confined_throw _
  getProc := confined_getProc
  curDir := fun hf => confined_curDir (hf d rfl)
  onProc := confined_onProc
  walkpgdir := fun hd va => hd ▸ confined_walkpgdir va false
  getPte := fun hd v => hd ▸ confined_getPte v
  setA := fun hd v _ => hd ▸ alike_bind (confined_getPte v) fun _ => confined_setPte v _
  userPage := confined_userPage
  beginOp := confined_beginOp
  endOp := confined_endOp
  swapWritei := confined_swapWritei p
  readFromSwapFile := confined_readFromSwapFile
  filealloc := confined_filealloc
  proc := SameDir.procLogic
  walkAlloc := fun hd va => hd ▸ confined_walkpgdir va true
  setPte := fun hd v x => hd ▸ confined_setPte v x
  kalloc := confined_kalloc
  kfree := confined_kfree c
  load := fun _ _ _ => confined_modify (fun _ => rfl) (fun _ => rfl) (fun _ => rfl)
  page := fun _ _ _ _ => rfl

/-! ### Growing and faulting -/

theorem confined_allocPage (c : Config) (oldsz newsz a : Nat) :
    Confined p d es (allocPage c p d oldsz newsz a) := by
  refine alike_bind (confined_code c).makeRoom fun room => alike_ite _ ?_ (alike_pure _)
  refine alike_bind confined_kalloc fun r => ?_
  cases r with
  | none => exact alike_bind ((confined_code c).deallocuvm rfl _ _) fun _ => alike_pure _
  | some f =>
    refine alike_bind (confined_modify (fun _ => rfl) (fun _ => rfl) (fun _ => rfl)) fun _ => ?_
    refine alike_bind ((confined_code c).mappages rfl a f _) fun ok => alike_ite _ ?_ ?_
    · apply alike_ite
      · exact alike_bind (confined_onProc (SameDir.procLogic.addPageToRam fun _ _ _ => rfl)) fun _ => alike_pure _
      · exact alike_pure _
    · refine alike_bind ((confined_code c).deallocuvm rfl _ _) fun _ => ?_
      exact alike_bind (confined_kfree c f) fun _ => alike_pure _

theorem confined_allocLoop (c : Config) (oldsz newsz k a : Nat) :
    Confined p d es (allocLoop c p d oldsz newsz k a) := by
  induction k generalizing a with
  | zero => exact alike_pure _
  | succ k ih =>
    exact alike_bind (confined_allocPage c _ _ a) fun ok => alike_ite _ (ih _) (alike_pure _)

theorem confined_growproc (c : Config) (n : Int) : Confined p d es (growproc c p n) := by
  apply confined_getProc
  rintro pr rfl
  have hset : ∀ sz, Confined p pr.pgdir es (if sz = 0 then pure false else do
      modifyProc p fun pr => pr.setSz sz
      pure true) := fun sz =>
    alike_ite _ (alike_pure _) (alike_bind ((confined_code c).modifyProc fun _ => rfl) fun _ => alike_pure _)
  apply alike_ite
  · refine alike_bind (alike_ite _ (alike_pure _) (alike_ite _ (alike_pure _) ?_)) hset
    exact confined_allocLoop c _ _ _ _
  · apply alike_ite
    · exact alike_bind ((confined_code c).deallocuvm rfl _ _) hset
    · exact alike_pure _

theorem confined_cowFault (c : Config) (va : Nat) (user : Bool) :
    Confined p d es (cowFault c p va user) := by
  apply confined_getProc
  rintro pr rfl
  refine alike_bind (confined_getPte _) fun pte => ?_
  have href : Confined p pr.pgdir es (getRef pte.frame) := by
    apply alike_get
    · intro m n h
      rw [h.eq]
      rfl
    · intro m
      exact alike_ite _ (alike_pure _) (confined_throw _)
  have hdec : Confined p pr.pgdir es (decrementRef c pte.frame) := by
    refine alike_ite _ ?_ (confined_throw _)
    exact confined_modify (fun _ => rfl) (fun _ => rfl) (fun _ => rfl)
  refine alike_bind href fun ref => alike_ite _ (confined_setPte _ _) ?_
  refine alike_ite _ (alike_bind confined_kalloc fun r => ?_) ((confined_code c).pgFault user)
  cases r with
  | none => exact alike_bind ((confined_code c).modifyProc fun _ => rfl) fun _ => hdec
  | some f =>
    -- The copy reads and writes frames, so what follows starts from related machines.
    have hend : Confined p pr.pgdir es (do
        setPte pr.pgdir (vpn va) { pte.own with frame := f }
        decrementRef c pte.frame) := alike_bind (confined_setPte _ _) fun _ => hdec
    intro m n h
    obtain rfl := h.eq
    exact hend _ _ (h.map (f := fun m => m.setMem f (m.mem pte.frame)) rfl rfl rfl)

theorem confined_trap (c : Config) (va : Nat) (user : Bool) : Confined p d es (trap c p va user) := by
  refine alike_bind ((confined_code c).modifyProc fun _ => rfl) fun _ => ?_
  apply confined_getProc
  rintro pr rfl
  refine alike_bind ((confined_code c).derefPte rfl va) fun pte => alike_ite _ ((confined_code c).pgFault user) ?_
  have hend : Confined p pr.pgdir es (trapPage c p pr.pgdir va user) := by
    refine alike_bind (confined_getPte _) fun pte => alike_ite _ (confined_cowFault c va user) ?_
    refine alike_ite _ ((confined_code c).pgFault user) ?_
    refine alike_bind (confined_modify (fun _ => rfl) (fun _ => rfl) (fun _ => rfl)) fun _ => ?_
    refine alike_bind ((confined_code c).swapPages _) fun ok => ?_
    exact alike_ite _ (alike_pure _) ((confined_code c).pgFault user)
  exact alike_ite _ (alike_bind ((confined_code c).updateMetaData fun _ _ _ => rfl) fun _ => hend) hend

end Twins

end Xv6Paging
