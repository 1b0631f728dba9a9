import Xv6Paging.RamListSpec
import Xv6Paging.Trap

/-! # The swap code, function by function

    What the swap code does to the frames, to other directories, to the aging counters or to
    `global_pgdir` is one question each time: which of its elementary steps matter. `SwapLogic`
    is a property of kernel code that sequencing keeps and that the elementary steps have which
    neither move a page nor touch a frame; `MoveLogic` adds those that do. The theorems carry
    such a property through the code that chooses a victim, ages the pages, writes the swap file,
    moves pages and drops them.
-/

namespace Xv6Paging

open Wp

variable {writei : Nat → Nat → K Bool} {addr i p : Nat} {c : Config} {R : Proc → Proc → Prop}
  {S : Machine → Machine → Prop} {E : Stop → Prop}

/-! ## Stops and files -/

/-- The panic of `kfree` that the reference counters are meant to rule out. -/
def NotRefZero (e : Stop) : Prop := e ≠ .panic kfreeRefIsZero

instance (e : Stop) : Decidable (NotRefZero e) := inferInstanceAs (Decidable (_ ≠ _))

theorem Stop.NoPanic.notRefZero {e : Stop} (h : e.NoPanic) : NotRefZero e := by
  rintro rfl
  exact h

/-- Only files, the log and the contents of frames differ. -/
structure Filed (m m' : Machine) : Prop where
  refs : m'.referenceCounters = m.referenceCounters
  freelist : m'.freelist = m.freelist
  kheld : m'.kheld = m.kheld
  dirs : m'.dirs = m.dirs
  proc : m'.proc = m.proc
  global : m'.globalPgdir = m.globalPgdir

instance : Std.Refl Filed := ⟨fun _ => ⟨rfl, rfl, rfl, rfl, rfl, rfl⟩⟩

instance : IsTrans Machine Filed :=
  ⟨fun _ _ _ h h' => ⟨h'.refs.trans h.refs, h'.freelist.trans h.freelist, h'.kheld.trans h.kheld,
    h'.dirs.trans h.dirs, h'.proc.trans h.proc, h'.global.trans h.global⟩⟩

/-- File code, which leaves the process alone as well. -/
abbrev IsFiled {α : Type} (x : K α) : Prop := Keeps Filed NotRefZero x

theorem filed_beginOp : IsFiled beginOp := keeps_modify fun _ => ⟨rfl, rfl, rfl, rfl, rfl, rfl⟩

theorem filed_endOp : IsFiled endOp := by
  refine keeps_bind (keeps_modify fun _ => ⟨rfl, rfl, rfl, rfl, rfl, rfl⟩) fun _ => ?_
  refine keeps_bind keeps_get fun m => keeps_ite _ ?_ (keeps_pure _)
  exact keeps_bind keeps_get fun _ => keeps_ite _ (keeps_pure _) (keeps_throw (by decide))

theorem filed_swapWritei (q : Nat) (src : Nat → UInt8) (off n : Nat) :
    IsFiled (swapWritei q src off n) := by
  intro m
  simp only [swapWritei, wp_bind, wp_get]
  cases (m.swap q).writei src off n with
  | none => exact Std.Refl.refl m
  | some ip =>
    show Filed m (m.setSwap q ip)
    exact ⟨rfl, rfl, rfl, rfl, rfl, rfl⟩

/-- The loop of `filewrite` is file code when the `writei` of each chunk is. -/
theorem filed_filewriteLoop (h : ∀ i n1, IsFiled (writei i n1)) (n fuel i : Nat) :
    IsFiled (filewriteLoop writei n fuel i) := by
  induction fuel generalizing i with
  | zero => exact keeps_pure _
  | succ fuel ih =>
    refine keeps_ite _ ?_ (keeps_pure _)
    refine keeps_bind filed_beginOp fun _ => keeps_bind (h _ _) fun ok => ?_
    exact keeps_bind filed_endOp fun _ => keeps_ite _ (ih _) (keeps_pure _)

theorem filed_getProc (q : Nat) : IsFiled (getProc q) :=
  keeps_bind keeps_get fun _ => keeps_pure _

theorem filed_writeToSwapFile (p : Nat) (src : Nat → UInt8) (off size : Nat) :
    IsFiled (writeToSwapFile p src off size) := by
  refine keeps_bind (filed_getProc p) fun pr => ?_
  cases pr.swapFile with
  | none => exact keeps_throw (by decide)
  | some fd => exact filed_filewriteLoop (fun _ _ => filed_swapWritei _ _ _ _) _ _ _

theorem filed_readFromSwapFile (p off size : Nat) : IsFiled (readFromSwapFile p off size) := by
  refine keeps_bind (filed_getProc p) fun pr => ?_
  cases pr.swapFile with
  | none => exact keeps_throw (by decide)
  | some fd => exact keeps_bind keeps_get fun _ => keeps_pure _

theorem filed_filealloc : IsFiled filealloc := by
  intro m
  simp only [filealloc, wp_bind, wp_get]
  cases (List.range nfile).find? fun i => m.ftable i == 0 with
  | none => exact Std.Refl.refl m
  | some i =>
    show Filed m (m.setFtable i 1)
    exact ⟨rfl, rfl, rfl, rfl, rfl, rfl⟩

/-! ## Code on one process -/

/-- A relation that holds across every write to a link or to the head pointer, and across
    everything that leaves directory, size and entries as they are. -/
structure ProcLogic (R : Proc → Proc → Prop) : Prop extends LinkWrites R where
  rest : ∀ {pr pr' : Proc}, pr'.pgdir = pr.pgdir → pr'.used = pr.used → pr'.sz = pr.sz →
    pr'.pagesMetaData = pr.pagesMetaData → R pr pr'

section ProcLogic

variable [Std.Refl R] [IsTrans Proc R]

omit [Std.Refl R] [IsTrans Proc R] in
theorem keeps_setPage {f : PageMetaData → PageMetaData} (h : ∀ pr : Proc, R pr (pr.setPage i f)) :
    Keeps R Stop.NoPanic (setPage i f) :=
  keeps_ite _ (keeps_modify h) (keeps_throw trivial)

variable (h : ProcLogic R)
include h

omit [Std.Refl R] [IsTrans Proc R] in
theorem ProcLogic.setOffset (s : Nat) (b : Bool) : Keeps R Stop.NoPanic (setOffset s b) :=
  keeps_ite _ (keeps_modify fun _ => h.rest rfl rfl rfl rfl) (keeps_throw trivial)

omit [Std.Refl R] in
/-- Filling a new entry: `hrec` is for the one write that sets all of it. -/
theorem ProcLogic.recordPage (hrec : ∀ (pr : Proc) i index, R pr (pr.setPage i fun _ =>
      ⟨pteAddr addr, .inMemory, noOffset, c.initCounter, index⟩)) (i index : Nat) :
    Keeps R Stop.NoPanic (recordPage c i addr index) := by
  refine keeps_bind (h.keeps_setNext i none) fun _ => ?_
  refine keeps_bind (keeps_setPage fun pr => hrec pr i index) fun _ => ?_
  exact keeps_modify fun _ => h.rest rfl rfl rfl rfl

/-- A new entry at the end of the RAM list. -/
theorem ProcLogic.addPageToRam (hrec : ∀ (pr : Proc) i index, R pr (pr.setPage i fun _ =>
      ⟨pteAddr addr, .inMemory, noOffset, c.initCounter, index⟩)) :
    Keeps R Stop.NoPanic (addPageToRam c addr) := by
  refine keeps_bind keeps_get fun pr => ?_
  cases pr.pageListHeadRam with
  | none => exact keeps_bind (h.keeps_setHead _) fun _ => h.recordPage hrec 0 0
  | some head =>
    refine keeps_bind (keeps_lastLinkFrom _ head) fun lastPage => ?_
    refine keeps_bind (h.keeps_setNext _ _) fun _ => keeps_bind (h.keeps_setPrev _ _) fun _ => ?_
    exact h.recordPage hrec _ _

/-- The entry of a page in the swap file is cleared, and its offset is free. -/
theorem ProcLogic.dropDiskPage (hpage : ∀ pr : Proc, R pr (pr.setPage i fun page =>
      { page with pageId := noPage, offsetInFile := noOffset, state := .notUsed })) :
    Keeps R Stop.NoPanic (dropDiskPage i) := by
  refine keeps_bind (keeps_modify fun _ => h.rest rfl rfl rfl rfl) fun _ => ?_
  refine keeps_bind (keeps_getLink i) fun lk => keeps_bind (h.setOffset _ _) fun _ => ?_
  exact keeps_setPage hpage

end ProcLogic

/-! ## Code that leaves pages and frames in place -/

/-- A property of the code of process `p`, which works on the directories in `Dir` and changes the
    process as `R` allows. -/
structure SwapLogic (p : Nat) (Dir : Nat → Prop) (R : Proc → Proc → Prop)
    (J : ∀ {α : Type}, K α → Prop) : Prop where
  pure : ∀ {α : Type} (a : α), J (pure a : K α)
  bind : ∀ {α β : Type} {x : K α} {f : α → K β}, J x → (∀ a, J (f a)) → J (x >>= f)
  throw : ∀ {α : Type} {e : Stop}, NotRefZero e → J (throw e : K α)
  getProc : ∀ {α : Type} {f : Proc → K α}, (∀ pr, Dir pr.pgdir → J (f pr)) → J (getProc p >>= f)
  curDir : ∀ {α : Type} {f : Nat → K α}, (∀ d, Dir d → J (f d)) → J (curDir p >>= f)
  onProc : ∀ {α : Type} {x : P α}, Keeps R Stop.NoPanic x → J (onProc p x)
  walkpgdir : ∀ {d : Nat}, Dir d → ∀ va, J (walkpgdir d va false)
  setA : ∀ {d : Nat}, Dir d → ∀ v b, J (do let pte ← getPte d v; setPte d v (pte.setA b))
  getPte : ∀ {d : Nat}, Dir d → ∀ v, J (getPte d v)
  userPage : ∀ va, J (userPage p va)
  beginOp : J beginOp
  endOp : J endOp
  swapWritei : ∀ src off n, J (swapWritei p src off n)
  readFromSwapFile : ∀ off n, J (readFromSwapFile p off n)
  filealloc : J filealloc
  proc : ProcLogic R

/-- A relation between machines that is kept gives such a property. -/
theorem SwapLogic.of_keeps [Std.Refl S] [IsTrans Machine S] (hE : ∀ e, NotRefZero e → E e)
    (hR : ProcLogic R) (hproc : ∀ (m : Machine) pr, R (m.proc p) pr → S m (m.setProc p pr))
    (hA : ∀ (m : Machine) d v b, S m (m.setPte d v (((m.dirs d).pte v).setA b)))
    (hfiled : ∀ m m', Filed m m' → S m m') :
    SwapLogic p (fun _ => True) R (fun x => Keeps S E x) := by
  have hfile : ∀ {α : Type} {x : K α}, IsFiled x → Keeps S E x :=
    fun h m => wp_mono (h m) (fun _ m' hf => hfiled m m' hf) (fun e _ he => hE e he)
  have hread : ∀ {α : Type} (f : Machine → α), Keeps S E (do let m ← get; Pure.pure (f m) : K α) :=
    fun f => keeps_bind keeps_get fun _ => keeps_pure _
  exact {
    pure := keeps_pure
    bind := keeps_bind
    throw := fun h => keeps_throw (hE _ h)
    getProc := fun hf => keeps_bind (hread _) fun pr => hf pr trivial
    curDir := fun hf => keeps_bind (hread _) fun d => hf d trivial
    onProc := fun h => keeps_onPart h hproc (fun _ he => hE _ he.notRefZero)
    walkpgdir := by
      intro d _ va m
      rw [wp_walkpgdir]
      refine ⟨fun _ => ⟨fun _ => Std.Refl.refl m, fun _ => Std.Refl.refl m⟩, fun _ => ?_⟩
      exact hE .wild (by decide)
    getPte := fun _ _ => hread _
    setA := fun _ v b m => hA m _ v b
    userPage := fun _ => hread _
    beginOp := hfile filed_beginOp
    endOp := hfile filed_endOp
    swapWritei := fun src off n => hfile (filed_swapWritei p src off n)
    readFromSwapFile := fun off n => hfile (filed_readFromSwapFile p off n)
    filealloc := hfile filed_filealloc
    proc := hR }

namespace SwapLogic

variable {d : Nat} {Dir : Nat → Prop} {J : ∀ {α : Type}, K α → Prop}

theorem ite (_ : SwapLogic p Dir R J) {α : Type} (b : Prop) [Decidable b] {x y : K α} (hx : J x)
    (hy : J y) : J (if b then x else y) := by
  by_cases hb : b
  · rw [if_pos hb]
    exact hx
  · rw [if_neg hb]
    exact hy

variable (h : SwapLogic p Dir R J)
include h

theorem modifyProc {f : Proc → Proc} (hf : ∀ pr, R pr (f pr)) : J (modifyProc p f) :=
  h.onProc (x := modify f) (keeps_modify hf)

theorem derefPte (hd : Dir d) (va : Nat) : J (derefPte d va) := by
  refine h.bind (h.walkpgdir hd va) fun r => ?_
  cases r with
  | none => exact h.throw (by decide)
  | some v => exact h.getPte hd v

theorem isPteA (hd : Dir d) (va : Nat) : J (isPteA d va) := by
  refine h.bind (h.walkpgdir hd va) fun r => ?_
  cases r with
  | none => exact h.throw (by decide)
  | some v => exact h.bind (h.getPte hd v) fun _ => h.pure _

theorem pteAOff (hd : Dir d) (va : Nat) : J (pteAOff d va) := by
  refine h.bind (h.walkpgdir hd va) fun r => ?_
  cases r with
  | none => exact h.throw (by decide)
  | some v => exact h.setA hd v false

theorem pgFault (user : Bool) : J (pgFault p user) :=
  h.ite _ (h.modifyProc fun _ => h.proc.rest rfl rfl rfl rfl) (h.throw (by decide))

/-! ### Files -/

theorem filewriteLoop (hw : ∀ i n1, J (writei i n1)) (n fuel i : Nat) :
    J (filewriteLoop writei n fuel i) := by
  induction fuel generalizing i with
  | zero => exact h.pure _
  | succ fuel ih =>
    refine h.ite _ (h.bind h.beginOp fun _ => h.bind (hw _ _) fun ok => ?_) (h.pure _)
    exact h.bind h.endOp fun _ => h.ite _ (ih _) (h.pure _)

/-- Without a swap file this is a null pointer. -/
theorem writeToSwapFile (src : Nat → UInt8) (off size : Nat) : J (writeToSwapFile p src off size) := by
  refine h.getProc fun pr _ => ?_
  cases pr.swapFile with
  | none => exact h.throw (by decide)
  | some fd => exact h.filewriteLoop (fun _ _ => h.swapWritei _ _ _) _ _ _

theorem ensureSwapFile : J (ensureSwapFile p) := by
  refine h.getProc fun pr _ => h.ite _ ?_ (h.pure _)
  refine h.bind h.beginOp fun _ => h.bind h.filealloc fun r => ?_
  cases r with
  | none => exact h.throw (by decide)
  | some fd =>
    exact h.bind (h.modifyProc fun _ => h.proc.rest rfl rfl rfl rfl) fun _ => h.endOp

section Lists

variable [Std.Refl R]

theorem getLink (i : Nat) : J (Xv6Paging.onProc p (getLink i)) := h.onProc (keeps_getLink i)

/-! ### Choosing a victim -/

/-- The scan for the lowest counter reads entries of the list, and writes nothing. -/
theorem nfuaLoop (fuel tmp best : Nat) : J (nfuaLoop p fuel tmp best) := by
  induction fuel generalizing tmp best with
  | zero => exact h.throw (by decide)
  | succ fuel ih =>
    refine h.bind (h.getLink tmp) fun lk => ?_
    cases lk.next with
    | none => exact h.pure _
    | some nx =>
      refine h.bind (h.getLink nx) fun ln => h.getProc fun pr hd => ?_
      refine h.bind (h.derefPte hd _) fun pte => h.ite _ ?_ (ih nx best)
      exact h.bind (h.getLink best) fun lb => h.ite _ (ih nx nx) (ih nx best)

theorem lapaLoop (fuel tmp best ones : Nat) : J (lapaLoop p fuel tmp best ones) := by
  induction fuel generalizing tmp best ones with
  | zero => exact h.throw (by decide)
  | succ fuel ih =>
    refine h.bind (h.getLink tmp) fun lk => ?_
    cases lk.next with
    | none => exact h.pure _
    | some nx =>
      refine h.bind (h.getLink nx) fun ln => h.ite _ (ih nx best ones) ?_
      refine h.getProc fun pr hd => h.bind (h.derefPte hd _) fun pte => ?_
      refine h.ite _ ?_ (ih nx best ones)
      exact h.bind (h.getLink best) fun lb => h.ite _ (ih nx nx _) (ih nx best ones)

variable [IsTrans Proc R]

/-- SCFIFO gives the page a second chance: it goes to the end of the list. -/
theorem rotate (i : Nat) : J (rotate p i) := by
  refine h.bind (h.onProc (h.proc.keeps_removePageFromList i)) fun _ => ?_
  refine h.bind (h.onProc (h.proc.keeps_addPageToList i)) fun _ => h.getProc fun pr _ => ?_
  cases pr.pageListHeadRam with
  | none => exact h.throw (by decide)
  | some head => exact h.pure _

theorem scfifoLoop (hd : Dir d) (fuel i : Nat) : J (scfifoLoop p d fuel i) := by
  induction fuel generalizing i with
  | zero => exact h.throw (by decide)
  | succ fuel ih =>
    refine h.bind (h.getLink i) fun lk => h.getProc fun pr hd' => ?_
    refine h.bind (h.derefPte hd' _) fun pte => h.ite _ ?_ ?_
    · refine h.bind (h.isPteA hd _) fun a => h.ite _ ?_ (h.pure _)
      exact h.bind (h.pteAOff hd _) fun _ => h.bind (h.rotate i) fun _ => ih _
    · -- a page without PTE_U is passed over
      exact h.bind (h.rotate i) fun _ => ih _

/-- Choosing a victim, under every policy. -/
theorem choosePageToSwap : J (choosePageToSwap c p) := by
  refine h.getProc fun pr _ => h.curDir fun d hd => ?_
  cases pr.pageListHeadRam with
  | none => exact h.pure _
  | some head =>
    cases c.selection with
    | LIFO => exact h.bind (h.onProc (keeps_lastLinkFrom _ head)) fun _ => h.pure _
    | NFUA => exact h.bind (h.nfuaLoop _ head head) fun _ => h.pure _
    | LAPA =>
      exact h.bind (h.getLink head) fun lk => h.bind (h.lapaLoop _ head head _) fun _ => h.pure _
    | SCFIFO => exact h.bind (h.scfifoLoop hd _ head) fun _ => h.pure _
    | AQ => exact h.pure _
    | NONE => exact h.pure _

/-! ### Aging -/

omit [IsTrans Proc R] in
/-- Aging also writes to the counters: `hage` is what `R` has to allow for that. -/
theorem agingLoop (hage : ∀ (pr : Proc) i (f : BitVec 32 → BitVec 32), R pr (pr.setPage i
      fun page => { page with shiftCounter := f page.shiftCounter }))
    (fuel : Nat) (tmp : Option Nat) : J (agingLoop p fuel tmp) := by
  induction fuel generalizing tmp with
  | zero =>
    cases tmp with
    | none => exact h.pure _
    | some tmp => exact h.throw (by decide)
  | succ fuel ih =>
    cases tmp with
    | none => exact h.pure _
    | some tmp =>
      have hend : J (do
          let lk ← Xv6Paging.onProc p (Xv6Paging.getLink tmp)
          Xv6Paging.agingLoop p fuel lk.next) := h.bind (h.getLink tmp) fun lk => ih lk.next
      have hcount : ∀ f : BitVec 32 → BitVec 32, J (Xv6Paging.onProc p (setPage tmp fun page =>
          { page with shiftCounter := f page.shiftCounter })) :=
        fun f => h.onProc (keeps_setPage fun pr => hage pr tmp f)
      refine h.bind (hcount (· >>> 1)) fun _ => h.bind (h.getLink tmp) fun lk => ?_
      refine h.getProc fun pr hd => h.bind (h.isPteA hd _) fun a => h.ite _ ?_ hend
      exact h.bind (h.pteAOff hd _) fun _ => h.bind (hcount (· ||| 0x80000000#32)) fun _ => hend

/-- AQ exchanges neighbours in the list and clears PTE_A. -/
theorem switchQueueLoop (hd : Dir d) (fuel i : Nat) : J (switchQueueLoop p d fuel i) := by
  induction fuel generalizing i with
  | zero => exact h.throw (by decide)
  | succ fuel ih =>
    refine h.bind (h.getLink i) fun li => ?_
    cases li.next with
    | none => exact h.pteAOff hd _
    | some j =>
      refine h.bind (h.isPteA hd _) fun a => h.ite _ ?_ (ih j)
      refine h.bind (h.pteAOff hd _) fun _ => h.bind (h.getLink j) fun lj => ?_
      refine h.bind (h.isPteA hd _) fun b => h.ite _ (ih i) ?_
      exact h.bind (h.onProc (h.proc.keeps_exchangeLinks i j)) fun _ => ih i

/-- What the timer does to the pages of a process. -/
theorem updateMetaData (hage : ∀ (pr : Proc) i (f : BitVec 32 → BitVec 32), R pr (pr.setPage i
      fun page => { page with shiftCounter := f page.shiftCounter })) : J (updateMetaData c p) := by
  refine h.getProc fun pr hd => ?_
  cases c.selection with
  | LAPA => exact h.agingLoop hage _ _
  | NFUA => exact h.agingLoop hage _ _
  | AQ =>
    refine h.getProc fun pr' _ => ?_
    cases pr'.pageListHeadRam with
    | none => exact h.pure _
    | some head => exact h.switchQueueLoop hd _ head
  | _ => exact h.pure _

end Lists

end SwapLogic

/-! ## Code that moves pages -/

/-- A property that the steps have, too, which take, give back and map frames. Of an entry they
    rewrite everything but the counter. -/
structure MoveLogic (c : Config) (p : Nat) (Dir : Nat → Prop) (R : Proc → Proc → Prop)
    (J : ∀ {α : Type}, K α → Prop) : Prop extends SwapLogic p Dir R J where
  walkAlloc : ∀ {d : Nat}, Dir d → ∀ va, J (Xv6Paging.walkpgdir d va true)
  setPte : ∀ {d : Nat}, Dir d → ∀ v x, J (setPte d v x)
  kalloc : J kalloc
  kfree : ∀ f, J (kfree c f)
  load : ∀ f off n, J (modify fun m => m.setMem f ((m.mem f).overwrite (m.swap p) off n))
  page : ∀ (pr : Proc) i {f : PageMetaData → PageMetaData},
    (∀ pg, (f pg).shiftCounter = pg.shiftCounter) → R pr (pr.setPage i f)

/-- A relation about processes and `global_pgdir` alone gives such a property. -/
theorem MoveLogic.of_keeps [Std.Refl S] [IsTrans Machine S] (hE : ∀ e, E e) (hR : ProcLogic R)
    (hproc : ∀ (m : Machine) pr, R (m.proc p) pr → S m (m.setProc p pr))
    (hrest : ∀ m m' : Machine, m'.proc = m.proc → m'.globalPgdir = m.globalPgdir → S m m')
    (hpage : ∀ (pr : Proc) i {f : PageMetaData → PageMetaData},
      (∀ pg, (f pg).shiftCounter = pg.shiftCounter) → R pr (pr.setPage i f)) :
    MoveLogic c p (fun _ => True) R (fun x => Keeps S E x) := by
  have hkalloc : Keeps S E Xv6Paging.kalloc := by
    intro m
    rw [wp_kalloc]
    exact ⟨fun _ => Std.Refl.refl m, fun _ _ _ => hrest _ _ rfl rfl⟩
  refine {
    toSwapLogic := .of_keeps (fun e _ => hE e) hR hproc (fun _ _ _ _ => hrest _ _ rfl rfl)
      (fun _ _ hf => hrest _ _ hf.proc hf.global)
    walkAlloc := ?_
    setPte := fun _ _ _ => keeps_modify fun _ => hrest _ _ rfl rfl
    kalloc := hkalloc
    kfree := ?_
    load := fun _ _ _ => keeps_modify fun _ => hrest _ _ rfl rfl
    page := hpage }
  · intro d _ va
    refine keeps_bind keeps_get fun m => keeps_ite _ ?_ (keeps_throw (hE _))
    cases (m.dirs d).table (pdx va) with
    | some t => exact keeps_pure _
    | none =>
      refine keeps_ite _ (keeps_bind hkalloc fun r => ?_) (keeps_pure _)
      cases r with
      | none => exact keeps_pure _
      | some f => exact keeps_bind (keeps_modify fun _ => hrest _ _ rfl rfl) fun _ => keeps_pure _
  · intro f m
    rw [wp_kfree]
    exact ⟨fun _ => ⟨fun _ => hE _, fun _ => hrest _ _ rfl rfl⟩, fun _ => hE _⟩

namespace MoveLogic

variable {d : Nat} {Dir : Nat → Prop} {J : ∀ {α : Type}, K α → Prop} (h : MoveLogic c p Dir R J)
include h

theorem mappages (hd : Dir d) (va f : Nat) (perm : Pte) : J (mappages d va f perm) := by
  refine h.bind (h.walkAlloc hd va) fun r => ?_
  cases r with
  | none => exact h.pure _
  | some v =>
    refine h.bind (h.getPte hd v) fun pte => h.ite _ (h.throw (by decide)) ?_
    exact h.bind (h.setPte hd v _) fun _ => h.pure _

theorem setFlagsOnSwap (hd : Dir d) (va : Nat) (swapIn : Bool) : J (setFlagsOnSwap d va swapIn) := by
  refine h.bind (h.walkpgdir hd va) fun r => ?_
  cases r with
  | none => exact h.throw (by decide)
  | some v =>
    exact h.bind (h.getPte hd v) fun pte => h.ite _ (h.setPte hd v _) (h.setPte hd v _)

theorem deallocPaged (hd : Dir d) [Std.Refl R] [IsTrans Proc R] (a v : Nat) (found : Bool) :
    J (deallocPaged p d a v found) := by
  refine h.getProc fun pr _ => ?_
  cases pr.findPage (pteAddr a) with
  | some i =>
    refine h.bind (h.onProc (h.proc.dropDiskPage fun pr => h.page pr i fun _ => rfl)) fun _ => ?_
    exact h.bind (h.setPte hd v _) fun _ => h.pure _
  | none =>
    exact h.ite _ (h.throw (by decide)) (h.bind (h.setPte hd v _) fun _ => h.pure _)

variable [Std.Refl R] [IsTrans Proc R]

/-- A page is copied to the swap file, and its entry says so. -/
theorem movePageToFile (i : Nat) : J (movePageToFile p i) := by
  -- what is noted of the page once it is written
  have hmark : ∀ offset, Keeps R Stop.NoPanic (do
      setPage i fun page => { page with offsetInFile := pgsize * offset }
      setOffset offset true
      setPage i fun page => { page with state := .inDisk }
      modify fun pr => { pr with numPagesDisk := pr.numPagesDisk + 1 }) := by
    intro offset
    refine keeps_bind (keeps_setPage fun pr => h.page pr i fun _ => rfl) fun _ => ?_
    refine keeps_bind (h.proc.setOffset _ _) fun _ => ?_
    refine keeps_bind (keeps_setPage fun pr => h.page pr i fun _ => rfl) fun _ => ?_
    exact keeps_modify fun _ => h.proc.rest rfl rfl rfl rfl
  refine h.curDir fun d hd => h.bind (h.getLink i) fun lk => h.bind (h.walkpgdir hd _) fun r => ?_
  cases r with
  | none => exact h.throw (by decide)
  | some v =>
    refine h.bind (h.getPte hd v) fun pte => h.ite _ (h.getProc fun pr _ => ?_) (h.throw (by decide))
    cases pr.nextAvOffset with
    | none => exact h.throw (by decide)
    | some offset =>
      refine h.bind (h.userPage _) fun pg => h.bind (h.writeToSwapFile _ _ _) fun ok => ?_
      exact h.ite _ (h.bind (h.onProc (hmark offset)) fun _ => h.pure _) (h.pure _)

/-- A victim leaves: copied, off the list, not present, its frame given back. -/
theorem moveToDisk (i : Nat) : J (moveToDisk c p i) := by
  refine h.curDir fun d hd => h.bind (h.movePageToFile i) fun ok => h.ite _ ?_ (h.pure _)
  refine h.bind (h.modifyProc fun _ => h.proc.rest rfl rfl rfl rfl) fun _ => ?_
  refine h.bind (h.onProc (h.proc.keeps_removePageFromList i)) fun _ => ?_
  refine h.bind (h.getLink i) fun lk => h.bind (h.setFlagsOnSwap hd _ false) fun _ => ?_
  refine h.bind (h.getPte hd _) fun pte => h.bind (h.kfree _) fun _ => ?_
  exact h.bind (h.modifyProc fun _ => h.proc.rest rfl rfl rfl rfl) fun _ => h.pure _

/-- A page comes back into a new frame, at the end of the list. -/
theorem getPageFromFile (i : Nat) : J (getPageFromFile p i) := by
  have hmark : ∀ off, Keeps R Stop.NoPanic (do
      setOffset (off / pgsize) false
      modify fun pr => { pr with
        numPagesRam := pr.numPagesRam + 1, numPagesDisk := pr.numPagesDisk - 1 }
      setPage i fun page => { page with offsetInFile := noOffset, state := .inMemory }
      addPageToList i) := by
    intro off
    refine keeps_bind (h.proc.setOffset _ _) fun _ => ?_
    refine keeps_bind (keeps_modify fun _ => h.proc.rest rfl rfl rfl rfl) fun _ => ?_
    refine keeps_bind (keeps_setPage fun pr => h.page pr i fun _ => rfl) fun _ => ?_
    exact h.proc.keeps_addPageToList i
  refine h.bind (h.getLink i) fun lk => h.curDir fun d hd => h.bind h.kalloc fun r => ?_
  cases r with
  | none => exact h.throw (by decide)
  | some f =>
    refine h.bind (h.mappages hd _ f _) fun _ => h.bind (h.readFromSwapFile _ _) fun r => ?_
    cases r with
    | none => exact h.pure _
    | some n =>
      refine h.bind (h.load f _ n) fun _ => h.bind (h.setFlagsOnSwap hd _ true) fun _ => ?_
      exact h.bind (h.onProc (hmark _)) fun _ => h.pure _

/-- A page fault on a page in the file: a victim goes out, the page comes in. -/
theorem swapPages (addr : Nat) : J (swapPages c p addr) := by
  refine h.bind h.choosePageToSwap fun out => h.getProc fun pr _ => ?_
  cases pr.findPage addr with
  | none => exact h.pure _
  | some j =>
    have hend : J (do let _ ← Xv6Paging.getPageFromFile p j; Pure.pure true) :=
      h.bind (h.getPageFromFile j) fun _ => h.pure _
    cases out with
    | none => exact hend
    | some i => exact h.bind (h.moveToDisk i) fun _ => hend

/-! ### Growing and shrinking -/

/-- Before a page is added, a victim leaves if 16 pages are in RAM. -/
theorem makeRoom : J (makeRoom c p) := by
  refine h.ite _ (h.getProc fun pr _ => ?_) (h.pure _)
  refine h.ite _ (h.ite _ (h.pure _) (h.bind h.ensureSwapFile fun _ => ?_)) (h.pure _)
  refine h.bind h.choosePageToSwap fun r => ?_
  cases r with
  | none => exact h.throw (by decide)
  | some i => exact h.moveToDisk i

/-- The entry of a page is given back; a page of the file may take its place in RAM. -/
theorem deletePage (i : Nat) : J (deletePage p i) := by
  refine h.bind (h.onProc (keeps_bind (keeps_modify fun _ => h.proc.rest rfl rfl rfl rfl) fun _ =>
    keeps_setPage fun pr => h.page pr i fun _ => rfl)) fun _ => ?_
  refine h.getProc fun pr _ => h.ite _ ?_ (h.pure _)
  cases pr.findState .inDisk with
  | none => exact h.pure _
  | some j => exact h.bind (h.getPageFromFile j) fun _ => h.pure _

theorem deallocPresent (hd : Dir d) (a v : Nat) (found : Bool) :
    J (deallocPresent c p d a v found) := by
  refine h.bind (h.getPte hd v) fun pte => h.ite _ (h.throw (by decide)) ?_
  refine h.bind (h.kfree _) fun _ => h.bind (h.setPte hd v _) fun _ => ?_
  refine h.getProc fun pr _ => h.ite _ ?_ (h.pure _)
  cases pr.findPage a with
  | some i => exact h.bind (h.deletePage i) fun _ => h.pure _
  | none => exact h.ite _ (h.bind (h.deletePage _) fun _ => h.pure _) (h.pure _)

/-- The loop of `deallocuvm`, page by page. -/
theorem deallocLoop (hd : Dir d) (oldsz fuel a : Nat) (found : Bool) :
    J (deallocLoop c p d oldsz fuel a found) := by
  induction fuel generalizing a found with
  | zero => exact h.ite _ (h.throw (by decide)) (h.pure _)
  | succ fuel ih =>
    refine h.ite _ (h.bind (h.walkpgdir hd a) fun r => ?_) (h.pure _)
    cases r with
    | none => exact ih _ found
    | some v =>
      refine h.bind (h.getPte hd v) fun pte => h.getProc fun pr _ => h.ite _ ?_ (h.ite _ ?_ (ih _ found))
      · exact h.bind (h.deallocPresent hd a v found) fun _ => ih _ _
      · exact h.bind (h.deallocPaged hd a v found) fun _ => ih _ _

theorem deallocuvm (hd : Dir d) (oldsz newsz : Nat) : J (deallocuvm c p d oldsz newsz) :=
  h.ite _ (h.pure _) (h.bind (h.deallocLoop hd _ _ _ _) fun _ => h.pure _)

end MoveLogic

end Xv6Paging
