import Xv6Paging.Lib.RingBuffer
import Xv6Paging.Lib.Run
import Xv6Paging.Machine

/-! # Pipes

    `pipewrite`, `piperead` and `pipeclose`, called by any number of processes. A process
    holds the lock of the pipe from one place where it sleeps to the next, so what it does
    in between is one step. A process that sleeps may go on at any time; it looks again
    whether it can.

    The bytes that are read are those that were stored, in order, however often the
    counters have wrapped around.
-/

namespace Xv6Paging

open List Function

structure Pipe where
  data : Nat → UInt8
  nread : UInt32
  nwrite : UInt32
  readopen : Bool
  writeopen : Bool

namespace Pipe

open Wp Run RingBuffer

def pipesize : Nat := 512

def full (q : Pipe) : Bool := q.nwrite == q.nread + UInt32.ofNat pipesize

def empty (q : Pipe) : Bool := q.nread == q.nwrite

/-- `p->data[p->nwrite++ % PIPESIZE] = b`. -/
def store (q : Pipe) (b : UInt8) : Pipe :=
  { q with data := update q.data (q.nwrite % UInt32.ofNat pipesize).toNat b, nwrite := q.nwrite + 1 }

/-- `p->data[p->nread % PIPESIZE]`. -/
def front (q : Pipe) : UInt8 := q.data (q.nread % UInt32.ofNat pipesize).toNat

def skip (q : Pipe) : Pipe := { q with nread := q.nread + 1 }

/-- Both ends are closed, and the page of the pipe is free. -/
def freed (q : Pipe) : Bool := !q.readopen && !q.writeopen

/-- The loop of `pipewrite`, up to where the pipe is full: the pipe, what has been stored, and what
    has not. -/
def fill : List UInt8 → Pipe → Pipe × List UInt8 × List UInt8
  | [], q => (q, [], [])
  | b :: bs, q =>
    if q.full = true then
      (q, [], b :: bs)
    else
      ((fill bs (q.store b)).1, b :: (fill bs (q.store b)).2.1, (fill bs (q.store b)).2.2)

/-- The second loop of `piperead`: the pipe and what has been read. -/
def drain : Nat → Pipe → Pipe × List UInt8
  | 0, q => (q, [])
  | k + 1, q =>
    if q.empty = true then
      (q, [])
    else
      ((drain k q.skip).1, q.front :: (drain k q.skip).2)

/-- Where a process is. -/
inductive Pos where
  | idle
  /-- Asleep in `pipewrite(p, addr, n)` with these bytes still to store. -/
  | writing (rest : List UInt8) (n : Int)
  /-- Asleep in `piperead(p, addr, n)`. -/
  | reading (n : Int)

/-- Bytes that a process is still to store. -/
def Pos.pending : Pos → List UInt8
  | .writing rest _ => rest
  | _ => []

/-- The pipe and `n` processes. -/
structure Sys (n : Nat) where
  pipe : Pipe
  killed : Fin n → Bool
  pos : Fin n → Pos

variable {n : Nat}

abbrev M (n : Nat) : Type → Type := EStateM Stop (Sys n)

/-- A process goes to a position and leaves the pipe as it is then. -/
@[simps -fullyApplied]
def Sys.leave (s : Sys n) (p : Fin n) (q : Pipe) (a : Pos) : Sys n :=
  { s with pipe := q, pos := update s.pos p a }

/-- What a step has done: the bytes given to a new call of `pipewrite`, stored, and read, and what a
    call that is over returns. -/
structure Out (n : Nat) where
  given : List (Fin n × UInt8)
  stored : List (Fin n × UInt8)
  got : List UInt8
  ret : Option (Fin n × Int)

def Out.none : Out n := ⟨[], [], [], .none⟩

/-- `pipewrite(p, addr, k)`, from the top of its loop. -/
def pipewrite (p : Fin n) (bytes : List UInt8) (k : Int) : M n (Out n) := do
  let s ← get
  let (q, stored, rest) := fill bytes s.pipe
  match rest with
  | [] =>
    set (s.leave p q .idle)
    pure ⟨[], stored.map (p, ·), [], some (p, k)⟩
  | b :: bs =>
    if q.readopen = false ∨ s.killed p = true then
      set (s.leave p q .idle)
      pure ⟨[], stored.map (p, ·), [], some (p, -1)⟩
    else
      set (s.leave p q (.writing (b :: bs) k))
      pure ⟨[], stored.map (p, ·), [], .none⟩

/-- `piperead(p, addr, k)`, from the top of its first loop. -/
def piperead (p : Fin n) (k : Int) : M n (Out n) := do
  let s ← get
  if s.pipe.empty = true ∧ s.pipe.writeopen = true then
    if s.killed p = true then
      set (s.leave p s.pipe .idle)
      pure ⟨[], [], [], some (p, -1)⟩
    else
      set (s.leave p s.pipe (.reading k))
      pure .none
  else
    let (q, got) := drain k.toNat s.pipe
    set (s.leave p q .idle)
    pure ⟨[], [], got, some (p, got.length)⟩

def pipeclose (q : Pipe) (writable : Bool) : Pipe :=
  if writable = true then { q with writeopen := false } else { q with readopen := false }

inductive Turn (n : Nat) where
  /-- An idle process calls `pipewrite`. -/
  | write (p : Fin n) (addr : Nat → UInt8) (k : Int)
  | read (p : Fin n) (k : Int)
  /-- A process that sleeps is scheduled. -/
  | resume (p : Fin n)
  | close (writable : Bool)
  | kill (p : Fin n)

/-- Code that uses the pipe; its page is gone when both ends are closed. -/
def onPipe {A : Type} (x : M n A) : M n A := do
  let s ← get
  if s.pipe.freed = true then
    throw .wild
  else
    x

/-- A process that is at this position calls `pipewrite`. -/
def startWrite (p : Fin n) (bytes : List UInt8) (k : Int) : Pos → M n (Out n)
  | .idle => onPipe do
    let out ← pipewrite p bytes k
    pure { out with given := bytes.map (p, ·) }
  | _ => pure .none

def startRead (p : Fin n) (k : Int) : Pos → M n (Out n)
  | .idle => onPipe (piperead p k)
  | _ => pure .none

/-- A call goes on. -/
def resumeAt (p : Fin n) : Pos → M n (Out n)
  | .idle => pure .none
  | .writing rest k => onPipe (pipewrite p rest k)
  | .reading k => onPipe (piperead p k)

/-- A step; one that cannot be taken does nothing. -/
def Turn.exec : Turn n → M n (Out n)
  | .write p addr k => do
    let s ← get
    startWrite p ((List.range k.toNat).map addr) k (s.pos p)
  | .read p k => do
    let s ← get
    startRead p k (s.pos p)
  | .resume p => do
    let s ← get
    resumeAt p (s.pos p)
  | .close writable => onPipe do
    modify fun s => { s with pipe := pipeclose s.pipe writable }
    pure .none
  | .kill p => do
    modify fun s => { s with killed := update s.killed p true }
    pure .none

/-- The pipe that `pipealloc` makes in a page with these contents. -/
def pipealloc (page : Nat → UInt8) (n : Nat) : Sys n where
  pipe := ⟨page, 0, 0, true, true⟩
  killed := fun _ => false
  pos := fun _ => .idle

/-! ## The bytes in the pipe -/

/-- The pipe has the bytes of `st` from number `r` on. -/
structure Fifo (st : List UInt8) (r : Nat) (q : Pipe) : Prop where
  nread : q.nread = counter r
  nwrite : q.nwrite = counter st.length
  le : r ≤ st.length
  room : st.length ≤ r + pipesize
  cells : Window pipesize q.data r st.length fun k => st.getD k 0

section Fifo

variable {st : List UInt8} {r : Nat} {q : Pipe}

theorem cell_eq (k : Nat) : (counter k % UInt32.ofNat pipesize).toNat = k % pipesize :=
  counter_mod (by decide) (by decide)

section Fifo

variable (h : Fifo st r q)

include h

theorem Fifo.full_iff : q.full = true ↔ st.length = r + pipesize := by
  have hsum : q.nread + UInt32.ofNat pipesize = counter (r + pipesize) := by
    rw [h.nread]
    exact counter_add r pipesize
  have hroom := h.room
  have hle := h.le
  have hsize : pipesize = 512 := rfl
  rw [Pipe.full, beq_iff_eq, hsum, h.nwrite, eq_comm, counter_eq_iff hroom (by omega), eq_comm]

theorem Fifo.empty_iff : q.empty = true ↔ st.length = r := by
  have hroom := h.room
  have hsize : pipesize = 512 := rfl
  rw [Pipe.empty, beq_iff_eq, h.nread, h.nwrite, eq_comm, counter_eq_iff h.le (by omega)]

theorem Fifo.distance : (q.nwrite - q.nread).toNat ≤ pipesize := by
  have hroom := h.room
  have hsize : pipesize = 512 := rfl
  rw [h.nwrite, h.nread, toNat_counter_sub h.le (by omega)]
  omega

theorem Fifo.store (hfull : ¬ q.full = true) (b : UInt8) : Fifo (st ++ [b]) r (q.store b) := by
  have hroom : st.length < r + pipesize := Nat.lt_of_le_of_ne h.room (h.full_iff.not.mp hfull)
  have hle := h.le
  refine ⟨h.nread, ?_, ?_, ?_, ?_⟩
  · show q.nwrite + 1 = _
    rw [h.nwrite, length_append]
    exact counter_add st.length 1
  · rw [length_append]
    omega
  · rw [length_append, length_singleton]
    omega
  · have hold : Window pipesize q.data r st.length fun k => (st ++ [b]).getD k 0 :=
      h.cells.congr fun k _ hk => by simp [getElem?_append_left hk]
    have hnew := hold.push hroom
    have hlast : (st ++ [b]).getD st.length 0 = b := by simp
    rw [hlast] at hnew
    rw [length_append]
    show Window pipesize (update q.data (q.nwrite % UInt32.ofNat pipesize).toNat b) r _ _
    rw [h.nwrite, cell_eq]
    exact hnew

theorem Fifo.skip (hne : ¬ q.empty = true) : Fifo st (r + 1) q.skip ∧ st[r]? = some q.front := by
  have hlt : r < st.length := Nat.lt_of_le_of_ne h.le fun he => h.empty_iff.not.mp hne he.symm
  have hroom := h.room
  refine ⟨⟨?_, h.nwrite, hlt, by omega, h.cells.mono (Nat.le_succ r) le_rfl⟩, ?_⟩
  · show q.nread + 1 = _
    rw [h.nread]
    exact counter_add r 1
  · have hcell := h.cells r le_rfl hlt
    rw [Pipe.front, h.nread, cell_eq, hcell]
    simp [hlt]

/-- What `pipewrite` does to the pipe. -/
theorem Fifo.fill (bytes : List UInt8) :
    Fifo (st ++ (fill bytes q).2.1) r (fill bytes q).1 ∧ (fill bytes q).2.1 ++ (fill bytes q).2.2 = bytes ∧
      (fill bytes q).1.readopen = q.readopen ∧ (fill bytes q).1.writeopen = q.writeopen := by
  induction bytes generalizing st q with
  | nil =>
    rw [Pipe.fill, append_nil]
    exact ⟨h, rfl, rfl, rfl⟩
  | cons b bs ih =>
    rw [Pipe.fill]
    by_cases hfull : q.full = true
    · rw [if_pos hfull, append_nil]
      exact ⟨h, rfl, rfl, rfl⟩
    · rw [if_neg hfull]
      obtain ⟨hfifo, hsplit, hr, hw⟩ := ih (h.store hfull b)
      rw [append_assoc] at hfifo
      exact ⟨hfifo, congrArg (b :: ·) hsplit, hr, hw⟩

/-- What `piperead` does to the pipe. -/
theorem Fifo.drain : Fifo st (r + (drain k q).2.length) (drain k q).1 ∧
      st.take r ++ (drain k q).2 = st.take (r + (drain k q).2.length) ∧
      ((drain k q).2 = [] → k = 0 ∨ q.empty = true) := by
  induction k generalizing r q with
  | zero => exact ⟨h, by simp [Pipe.drain], fun _ => .inl rfl⟩
  | succ k ih =>
    rw [Pipe.drain]
    by_cases hempty : q.empty = true
    · rw [if_pos hempty]
      exact ⟨h, by simp, fun _ => .inr hempty⟩
    · rw [if_neg hempty]
      obtain ⟨hskip, hfront⟩ := h.skip hempty
      obtain ⟨hfifo, htake, _⟩ := ih hskip
      have hlen : r + (q.front :: (Pipe.drain k q.skip).2).length = r + 1 + (Pipe.drain k q.skip).2.length := by
        rw [length_cons]
        omega
      refine ⟨?_, ?_, nofun⟩
      · rw [hlen]
        exact hfifo
      · rw [hlen, ← htake, take_add_one, hfront]
        simp

end Fifo

end Fifo

/-! ## Histories -/

def givenOf (outs : List (Out n)) : List (Fin n × UInt8) := outs.flatMap Out.given

def storedOf (outs : List (Out n)) : List (Fin n × UInt8) := outs.flatMap Out.stored

def gotOf (outs : List (Out n)) : List UInt8 := outs.flatMap Out.got

/-- The bytes of process `p`. -/
def bytesOf (p : Fin n) (l : List (Fin n × UInt8)) : List UInt8 := (l.filter fun x => x.1 = p).map Prod.snd

/-- A call of process `p` has failed. -/
def Failed (outs : List (Out n)) (p : Fin n) : Prop := ∃ o ∈ outs, o.ret = some (p, -1)

/-- What was given to `pipewrite`, stored and read, and what is left to store. -/
structure Hist (given stored : List (Fin n × UInt8)) (got : List UInt8) (failed : Fin n → Prop)
    (pend : Fin n → List UInt8) (q : Pipe) : Prop where
  fifo : Fifo (stored.map Prod.snd) got.length q
  read : (stored.map Prod.snd).take got.length = got
  order : ∀ p, List.Sublist (bytesOf p stored ++ pend p) (bytesOf p given)
  whole : ∀ p, ¬ failed p → bytesOf p stored ++ pend p = bytesOf p given

section Hist

variable {given stored : List (Fin n × UInt8)} {got : List UInt8} {failed failed' : Fin n → Prop}
  {pend pend' : Fin n → List UInt8} {q : Pipe} {p : Fin n} {bytes : List UInt8}

@[simp] theorem bytesOf_append (p : Fin n) (l l' : List (Fin n × UInt8)) :
    bytesOf p (l ++ l') = bytesOf p l ++ bytesOf p l' := by
  simp [bytesOf]

theorem bytesOf_self : bytesOf p (bytes.map (p, ·)) = bytes := by
  induction bytes with
  | nil => rfl
  | cons b bs ih => simpa [bytesOf] using ih

theorem bytesOf_other (h : r ≠ p) : bytesOf r (bytes.map (p, ·)) = [] := by
  induction bytes with
  | nil => rfl
  | cons b bs ih => simp [bytesOf, Ne.symm h]

section Hist

variable (h : Hist given stored got failed pend q)

include h

/-- A process without pending bytes gets new ones to store. -/
theorem Hist.give (hp : pend p = []) (bytes : List UInt8) :
    Hist (given ++ bytes.map (p, ·)) stored got failed (update pend p bytes) q := by
  refine ⟨h.fifo, h.read, fun r => ?_, fun r hr => ?_⟩
  · by_cases hrp : r = p
    · have hold := h.order r
      rw [hrp, hp, append_nil] at hold
      rw [hrp, update_self, bytesOf_append, bytesOf_self]
      exact hold.append_right bytes
    · rw [update_of_ne hrp, bytesOf_append, bytesOf_other hrp, append_nil]
      exact h.order r
  · by_cases hrp : r = p
    · have hold := h.whole r hr
      rw [hrp, hp, append_nil] at hold
      rw [hrp, update_self, bytesOf_append, bytesOf_self, hold]
    · rw [update_of_ne hrp, bytesOf_append, bytesOf_other hrp, append_nil]
      exact h.whole r hr

/-- A process stores the first of its pending bytes, and keeps the others or drops them. -/
theorem Hist.fill (hp : pend p = bytes) (hother : ∀ r, r ≠ p → pend' r = pend r)
    (hself : pend' p = (fill bytes q).2.2 ∨ pend' p = [] ∧ failed' p) (hfailed : ∀ r, failed r → failed' r) :
    Hist given (stored ++ (fill bytes q).2.1.map (p, ·)) got failed' pend' (fill bytes q).1 := by
  obtain ⟨hfifo, hsplit, -, -⟩ := h.fifo.fill bytes
  have hmap : (stored ++ (Pipe.fill bytes q).2.1.map (p, ·)).map Prod.snd =
      stored.map Prod.snd ++ (Pipe.fill bytes q).2.1 := by
    simp [comp_def]
  refine ⟨?_, ?_, fun r => ?_, fun r hr => ?_⟩
  · rw [hmap]
    exact hfifo
  · have hle := h.fifo.le
    rw [hmap, take_append_of_le_length hle]
    exact h.read
  · by_cases hrp : r = p
    · have hold := h.order r
      rw [hrp, hp, ← hsplit, ← append_assoc] at hold
      rw [hrp, bytesOf_append, bytesOf_self]
      rcases hself with hrest | ⟨hnone, _⟩
      · rw [hrest]
        exact hold
      · rw [hnone, append_nil]
        exact (sublist_append_left _ _).trans hold
    · rw [hother r hrp, bytesOf_append, bytesOf_other hrp, append_nil]
      exact h.order r
  · have hold := h.whole r fun hf => hr (hfailed r hf)
    by_cases hrp : r = p
    · rw [hrp] at hr
      rw [hrp, hp, ← hsplit, ← append_assoc] at hold
      rcases hself with hrest | ⟨_, hf⟩
      · rw [hrp, bytesOf_append, bytesOf_self, hrest]
        exact hold
      · exact absurd hf hr
    · rw [hother r hrp, bytesOf_append, bytesOf_other hrp, append_nil]
      exact hold

theorem Hist.drain (k : Nat) : Hist given stored (got ++ (drain k q).2) failed pend (drain k q).1 := by
  obtain ⟨hfifo, htake, _⟩ := h.fifo.drain (k := k)
  refine ⟨?_, ?_, h.order, h.whole⟩
  · rw [length_append]
    exact hfifo
  · rw [length_append, ← htake, h.read]

/-- Nothing but the ends of the pipe, or who has failed, changes. -/
theorem Hist.congr (hd : q'.data = q.data)
    (hr : q'.nread = q.nread) (hw : q'.nwrite = q.nwrite) (hp : ∀ p, pend' p = pend p)
    (hfailed : ∀ r, failed r → failed' r) : Hist given stored got failed' pend' q' := by
  refine ⟨⟨hr.trans h.fifo.nread, hw.trans h.fifo.nwrite, h.fifo.le, h.fifo.room, ?_⟩, h.read, fun p => ?_,
    fun p hf => ?_⟩
  · rw [hd]
    exact h.fifo.cells
  · rw [hp p]
    exact h.order p
  · rw [hp p]
    exact h.whole p fun hold => hf (hfailed p hold)

end Hist

end Hist

/-! ## Steps -/

/-- The history of a run that has come to state `s`. -/
def Inv (outs : List (Out n)) (s : Sys n) : Prop :=
  Hist (givenOf outs) (storedOf outs) (gotOf outs) (Failed outs) (fun p => (s.pos p).pending) s.pipe

/-- The history goes on with `out`. -/
def Next (outs : List (Out n)) (out : Out n) (s' : Sys n) : Prop := Inv (outs ++ [out]) s'

/-- Only a pipe that is gone stops a step. -/
def Gone (e : Stop) (s : Sys n) : Prop := e = .wild ∧ s.pipe.readopen = false ∧ s.pipe.writeopen = false

section Steps

variable {outs : List (Out n)} {s : Sys n} {p : Fin n} {bytes : List UInt8} {k : Int}

@[simp] theorem givenOf_snoc (outs : List (Out n)) (out : Out n) :
    givenOf (outs ++ [out]) = givenOf outs ++ out.given := by
  simp [givenOf]

@[simp] theorem storedOf_snoc (outs : List (Out n)) (out : Out n) :
    storedOf (outs ++ [out]) = storedOf outs ++ out.stored := by
  simp [storedOf]

@[simp] theorem gotOf_snoc (outs : List (Out n)) (out : Out n) : gotOf (outs ++ [out]) = gotOf outs ++ out.got := by
  simp [gotOf]

theorem Failed.snoc (h : Failed outs r) (out : Out n) : Failed (outs ++ [out]) r := by
  obtain ⟨o, ho, hret⟩ := h
  exact ⟨o, mem_append_left _ ho, hret⟩

theorem failed_last {out : Out n} (h : out.ret = some (r, -1)) : Failed (outs ++ [out]) r :=
  ⟨out, by simp, h⟩

/-- A step that neither stores nor reads. -/
theorem Inv.quiet {out : Out n} (h : Inv outs s) (hout : out.given = [] ∧ out.stored = [] ∧ out.got = [])
    (hd : s'.pipe.data = s.pipe.data) (hr : s'.pipe.nread = s.pipe.nread) (hw : s'.pipe.nwrite = s.pipe.nwrite)
    (hp : ∀ p, (s'.pos p).pending = (s.pos p).pending) : Next outs out s' := by
  unfold Next Inv
  rw [givenOf_snoc, storedOf_snoc, gotOf_snoc, hout.1, hout.2.1, hout.2.2]
  simp only [append_nil]
  exact h.congr hd hr hw hp fun r hf => hf.snoc out

theorem Inv.none (h : Inv outs s) : Next outs .none s :=
  h.quiet ⟨rfl, rfl, rfl⟩ rfl rfl rfl fun _ => rfl

theorem wp_onPipe {A : Type} {x : M n A} {Q : A → Sys n → Prop} (h : s.pipe.freed = false → wp x Q Gone s) :
    wp (onPipe x) Q Gone s := by
  simp only [onPipe, wp_bind, wp_get, wp_ite, wp_throw]
  refine ⟨fun hfreed => ⟨rfl, ?_⟩, fun hthere => h (by simpa using hthere)⟩
  simpa [Pipe.freed] using hfreed

theorem next_of_fill {given : List (Fin n × UInt8)} {pend : Fin n → List UInt8} {out : Out n}
    (h : Hist (givenOf outs ++ given) (storedOf outs) (gotOf outs) (Failed outs) pend s.pipe) (hp : pend p = bytes)
    (hgiven : out.given = given) (hstored : out.stored = (fill bytes s.pipe).2.1.map (p, ·)) (hgot : out.got = [])
    (hpipe : s'.pipe = (fill bytes s.pipe).1) (hother : ∀ r, r ≠ p → (s'.pos r).pending = pend r)
    (hself : (s'.pos p).pending = (fill bytes s.pipe).2.2 ∨ (s'.pos p).pending = [] ∧ out.ret = some (p, -1)) :
    Next outs out s' := by
  unfold Next Inv
  rw [givenOf_snoc, storedOf_snoc, gotOf_snoc, hgiven, hstored, hgot, hpipe, append_nil]
  exact h.fill hp hother (hself.imp_right fun hcut => ⟨hcut.1, failed_last hcut.2⟩) fun r hf => hf.snoc out

/-- A new call, or one that goes on. -/
theorem wp_pipewrite {given : List (Fin n × UInt8)} {pend : Fin n → List UInt8}
    (h : Hist (givenOf outs ++ given) (storedOf outs) (gotOf outs) (Failed outs) pend s.pipe) (hp : pend p = bytes)
    (hother : ∀ r, r ≠ p → pend r = (s.pos r).pending) :
    wp (pipewrite p bytes k) (fun out s' => out.given = [] ∧ Next outs { out with given := given } s') Gone s := by
  have hpend : ∀ q a r, r ≠ p → ((s.leave p q a).pos r).pending = pend r := by
    intro q a r hr
    rw [Sys.leave_pos, update_of_ne hr, hother r hr]
  have hhere : ∀ q a, ((s.leave p q a).pos p).pending = a.pending := by
    intro q a
    rw [Sys.leave_pos, update_self]
  simp only [pipewrite, wp_bind, wp_get]
  cases hrest : (fill bytes s.pipe).2.2 with
  | nil =>
    simp only [wp_bind, wp_set, wp_pure]
    exact ⟨trivial, next_of_fill h hp rfl rfl rfl rfl (hpend _ _) (.inl (by rw [hrest, hhere]; rfl))⟩
  | cons b bs =>
    simp only [wp_bind, wp_ite, wp_set, wp_pure]
    refine ⟨fun _ => ⟨trivial, ?_⟩, fun _ => ⟨trivial, ?_⟩⟩
    · exact next_of_fill h hp rfl rfl rfl rfl (hpend _ _) (.inr ⟨hhere _ _, rfl⟩)
    · exact next_of_fill h hp rfl rfl rfl rfl (hpend _ _) (.inl (by rw [hrest, hhere]; rfl))

/-- `piperead` returns `0` only at the end of a closed pipe. -/
def EofAtEnd (s : Sys n) (p : Fin n) (k : Int) (out : Out n) : Prop :=
  0 < k → out.ret = some (p, 0) → s.pipe.writeopen = false ∧ s.pipe.empty = true

theorem wp_piperead (h : Inv outs s) (hp : (s.pos p).pending = []) :
    wp (piperead p k) (fun out s' => Next outs out s' ∧ EofAtEnd s p k out) Gone s := by
  have hpend : ∀ q a, a.pending = [] → ∀ r, ((s.leave p q a).pos r).pending = (s.pos r).pending := by
    intro q a ha r
    by_cases hr : r = p
    · rw [hr, Sys.leave_pos, update_self, ha, hp]
    · rw [Sys.leave_pos, update_of_ne hr]
  simp only [piperead, wp_bind, wp_get, wp_ite, wp_set, wp_pure]
  refine ⟨fun _ => ⟨fun _ => ⟨?_, ?_⟩, fun _ => ⟨?_, ?_⟩⟩, fun hgo => ⟨?_, ?_⟩⟩
  · exact h.quiet ⟨rfl, rfl, rfl⟩ rfl rfl rfl (hpend _ _ rfl)
  · intro _ hret
    simp at hret
  · exact h.quiet ⟨rfl, rfl, rfl⟩ rfl rfl rfl (hpend _ _ rfl)
  · intro _ hret
    cases hret
  · unfold Next Inv
    simp only [givenOf_snoc, storedOf_snoc, gotOf_snoc, append_nil]
    have hdrain := h.drain k.toNat
    exact hdrain.congr rfl rfl rfl (hpend _ _ rfl) fun r hf => hf.snoc _
  · intro hk hret
    have hnone : (drain k.toNat s.pipe).2 = [] := by simpa using hret
    have hempty : s.pipe.empty = true := by
      rcases (h.fifo.drain (k := k.toNat)).2.2 hnone with hzero | hempty
      · omega
      · exact hempty
    refine ⟨?_, hempty⟩
    by_contra hopen
    exact hgo ⟨hempty, by simpa using hopen⟩

theorem wp_turn {t : Turn n} (h : Inv outs s) : wp t.exec (fun out s' => Next outs out s') Gone s := by
  cases t with
  | write p addr k =>
    simp only [Turn.exec, wp_bind, wp_get]
    cases hp : s.pos p with
    | idle =>
      refine wp_onPipe fun _ => ?_
      simp only [wp_bind, wp_pure]
      have hidle : (s.pos p).pending = [] := by
        rw [hp]
        rfl
      refine wp_post (wp_pipewrite (h.give hidle _) (update_self ..) fun r hr =>
        update_of_ne hr ..) ?_
      exact fun _ _ hwrite => hwrite.2
    | writing rest k => exact h.none
    | reading k => exact h.none
  | read p k =>
    simp only [Turn.exec, wp_bind, wp_get]
    cases hp : s.pos p with
    | idle =>
      refine wp_onPipe fun _ => wp_post (wp_piperead h (by rw [hp]; rfl)) ?_
      exact fun _ _ hread => hread.1
    | writing rest k => exact h.none
    | reading k => exact h.none
  | resume p =>
    simp only [Turn.exec, wp_bind, wp_get]
    cases hp : s.pos p with
    | idle => exact h.none
    | writing rest k =>
      refine wp_onPipe fun _ => ?_
      have hpend : (s.pos p).pending = rest := by
        rw [hp]
        rfl
      have hnone : Hist (givenOf outs ++ []) (storedOf outs) (gotOf outs) (Failed outs)
          (fun p => (s.pos p).pending) s.pipe := by
        rw [append_nil]
        exact h
      refine wp_post (wp_pipewrite hnone hpend fun _ _ => rfl) ?_
      rintro ⟨given, stored, got, ret⟩ s' ⟨hgiven, hnext⟩
      cases hgiven
      exact hnext
    | reading k =>
      refine wp_onPipe fun _ => wp_post (wp_piperead h (by rw [hp]; rfl)) ?_
      exact fun _ _ hread => hread.1
  | close writable =>
    refine wp_onPipe fun _ => ?_
    simp only [wp_bind, wp_modify, wp_pure]
    refine h.quiet ⟨rfl, rfl, rfl⟩ ?_ ?_ ?_ fun _ => rfl <;> cases writable <;> rfl
  | kill p =>
    simp only [Turn.exec, wp_bind, wp_modify, wp_pure]
    exact h.quiet ⟨rfl, rfl, rfl⟩ rfl rfl rfl fun _ => rfl

end Steps

/-! ## Runs -/

/-- Turn `t` is process `p` in a call `piperead(p, addr, k)`. -/
def Turn.Reads (p : Fin n) (k : Int) (s : Sys n) (t : Turn n) : Prop :=
  (t = .read p k ∧ s.pos p = .idle) ∨ (t = .resume p ∧ s.pos p = .reading k)

/-- The pipe has been a bounded queue. -/
structure BoundedFifo (outs : List (Out n)) (s : Sys n) : Prop where
  /-- The counters are at most the size of the pipe apart. -/
  bounded : (s.pipe.nwrite - s.pipe.nread).toNat ≤ pipesize
  /-- What was read is what was stored first. -/
  fifo : gotOf outs <+: (storedOf outs).map Prod.snd
  /-- Every process's bytes are stored in the order in which it has given them. -/
  order : ∀ p, List.Sublist (bytesOf p (storedOf outs)) (bytesOf p (givenOf outs))
  /-- Bytes of a process whose calls have not failed are stored or will be. -/
  whole : ∀ p, ¬ Failed outs p → bytesOf p (storedOf outs) ++ (s.pos p).pending = bytesOf p (givenOf outs)
  /-- A process that reads gets `0` only if the write end is closed and everything has been read. -/
  eof : ∀ t p k, 0 < k → Turn.Reads p k s t → ∀ out s', t.exec s = .ok out s' → out.ret = some (p, 0) →
    s.pipe.writeopen = false ∧ gotOf outs = (storedOf outs).map Prod.snd

section Runs

variable {outs : List (Out n)} {s : Sys n}

theorem Inv.all_read (h : Inv outs s) (hempty : s.pipe.empty = true) :
    gotOf outs = (storedOf outs).map Prod.snd := by
  have hlen := h.fifo.empty_iff.mp hempty
  have hread := h.read
  rw [← hlen, take_length] at hread
  exact hread.symm

theorem Inv.wp_reads {t : Turn n} {p : Fin n} {k : Int} (h : Inv outs s) (ht : Turn.Reads p k s t) :
    wp t.exec (fun out _ => EofAtEnd s p k out) Gone s := by
  rcases ht with ⟨rfl, hp⟩ | ⟨rfl, hp⟩
  · simp only [Turn.exec, wp_bind, wp_get, hp]
    refine wp_onPipe fun _ => wp_post (wp_piperead h (by rw [hp]; rfl)) ?_
    exact fun _ _ hread => hread.2
  · simp only [Turn.exec, wp_bind, wp_get, hp]
    refine wp_onPipe fun _ => wp_post (wp_piperead h (by rw [hp]; rfl)) ?_
    exact fun _ _ hread => hread.2

theorem Inv.boundedFifo (h : Inv outs s) : BoundedFifo outs s where
  bounded := h.fifo.distance
  fifo := prefix_iff_eq_take.mpr h.read.symm
  order := fun p => (sublist_append_left _ _).trans (h.order p)
  whole := h.whole
  eof := by
    intro t p k hk ht out s' hx hret
    obtain ⟨hclosed, hempty⟩ := (wp_of_ok hx).mp (h.wp_reads ht) hk hret
    exact ⟨hclosed, h.all_read hempty⟩

theorem wp_run_fifo (h : Inv outs s) (turns : List (Turn n)) :
    wp (run Turn.exec turns) (fun outs' s' => Inv (outs ++ outs') s') Gone s := by
  induction turns generalizing outs s with
  | nil =>
    show Inv (outs ++ []) s
    rw [append_nil]
    exact h
  | cons t turns ih =>
    simp only [run, wp_bind, wp_pure]
    refine wp_post (wp_turn h) ?_
    intro out s1 h1
    refine wp_post (ih h1) ?_
    intro outs' s' h'
    rwa [append_assoc] at h'

theorem pipealloc_inv (page : Nat → UInt8) (n : Nat) : Inv [] (pipealloc page n) := by
  refine ⟨⟨rfl, rfl, le_rfl, Nat.zero_le _, ?_⟩, rfl, fun _ => List.Sublist.refl _, fun _ _ => rfl⟩
  intro k _ hk
  exact absurd hk (Nat.not_lt_zero k)

end Runs

/-- A pipe is a bounded queue, for any number of processes that write, read, sleep, are killed, and
    close its ends, however long they go on. Only a pipe both of whose ends are closed cannot be used. -/
theorem pipe_bounded_fifo (page : Nat → UInt8) (n : Nat) (turns : List (Turn n)) :
    (∀ outs s, run Turn.exec turns (pipealloc page n) = .ok outs s → BoundedFifo outs s) ∧
      ∀ e s, run Turn.exec turns (pipealloc page n) = .error e s → Gone e s := by
  have hrun := wp_run_fifo (pipealloc_inv page n) turns
  constructor
  · intro outs s hx
    have hinv : Inv ([] ++ outs) s := (wp_of_ok hx).mp hrun
    exact hinv.boundedFifo
  · intro e s hx
    exact (wp_of_error hx).mp hrun

-- Two bytes short of the wrap of its counters, a pipe passes on four.
example : yields (run Turn.exec [.write 0 UInt8.ofNat 4, .read 1 5])
    { pipealloc (fun _ => 0) 2 with pipe := ⟨fun _ => 0, -2, -2, true, true⟩ }
    (fun outs => gotOf outs == [0, 1, 2, 3]) = true := by
  decide +kernel

end Pipe

end Xv6Paging
