import Xv6Paging.Fs.Bio

/-! # Coherence of the buffer cache

    In every run the list of buffers is a ring of all buffers, a block is in one buffer at
    most, reference counts count callers, and only buffers are recycled that nobody uses
    and that are not dirty. `bread` returns what was written last: a valid buffer has it,
    and so has the disk, unless the buffer is dirty.
-/

namespace Xv6Paging.Bio

open List Wp Run Holders Function

variable {D : Type} {n : Nat}
  {buf buf' : Fin nbuf → Buf D n} {l queue : List (Fin nbuf)} {disk : Nat → D}
  {lh : List Nat} {data : D}

/-! ## The contents of blocks -/

/-- What a step has written. -/
def Event.apply (m : Nat → D) : Option (Event D) → Nat → D
  | some (.written k d) => update m k d
  | _ => m

/-- What `bread` has returned is what was written last. -/
def Event.Fresh (m : Nat → D) : Option (Event D) → Prop
  | some (.read k d) => d = m k
  | _ => True

/-- The events of a run: every read returns the contents written before it, or those that the disk had
    in the beginning. -/
def Coherent : (Nat → D) → List (Option (Event D)) → Prop
  | _, [] => True
  | m, e :: es => Event.Fresh m e ∧ Coherent (Event.apply m e) es

/-- A block of the device is in one buffer at most. -/
def Unique (c : Config) (buf : Fin nbuf → Buf D n) : Prop :=
  ∀ a b, (buf a).dev = c.dev → (buf b).dev = c.dev → (buf a).blockno = (buf b).blockno → a = b

/-- Valid buffers have the contents `m`, and the disk has them where no buffer is dirty. -/
structure Contents (c : Config) (m : Nat → D) (buf : Fin nbuf → Buf D n) (disk : Nat → D) : Prop where
  data : ∀ b, (buf b).dev = c.dev → (buf b).valid = true → (buf b).data = m (buf b).blockno
  disk : ∀ k, (∀ b, (buf b).dev = c.dev → (buf b).blockno = k → (buf b).dirty = false) → disk k = m k

section Contents

variable {c : Config} {m m' : Nat → D} {disk' : Nat → D} {b : Fin nbuf} {x : Buf D n}

theorem Contents.clean (h : Contents c m buf disk) (hu : Unique c buf) (hdev : (buf b).dev = c.dev)
    (hclean : (buf b).dirty = false) : disk (buf b).blockno = m (buf b).blockno := by
  refine h.disk _ fun a ha hab => ?_
  rw [hu a b ha hdev hab]
  exact hclean

/-- Only buffer `b` and the contents of its block change. -/
theorem Contents.set (h : Contents c m buf disk) (hu : Unique c buf) (hdev : (buf b).dev = c.dev)
    (hxdev : x.dev = c.dev) (hxblock : x.blockno = (buf b).blockno)
    (hm : ∀ k, k ≠ (buf b).blockno → m' k = m k) (hd : ∀ k, k ≠ (buf b).blockno → disk' k = disk k)
    (hvalid : x.valid = true → x.data = m' (buf b).blockno)
    (hclean : x.dirty = false → disk' (buf b).blockno = m' (buf b).blockno) :
    Contents c m' (update buf b x) disk' := by
  constructor
  · intro a ha hav
    by_cases hab : a = b
    · subst hab
      rw [update_self] at hav ⊢
      rw [hxblock]
      exact hvalid hav
    · rw [update_of_ne hab] at ha hav ⊢
      rw [hm _ fun heq => hab (hu a b ha hdev heq)]
      exact h.data a ha hav
  · intro k hk
    by_cases hkb : k = (buf b).blockno
    · subst hkb
      have hb := hk b
      rw [update_self] at hb
      exact hclean (hb hxdev hxblock)
    · rw [hm k hkb, hd k hkb]
      refine h.disk k fun a ha hak => ?_
      have hab : a ≠ b := by
        rintro rfl
        exact hkb hak.symm
      have haclean := hk a
      rw [update_of_ne hab] at haclean
      exact haclean ha hak

/-- A buffer that is not dirty is taken for another block. -/
theorem Contents.recycle (h : Contents c m buf disk) (hclean : (buf b).dirty = false) (hx : x.valid = false) :
    Contents c m (update buf b x) disk := by
  constructor
  · intro a ha hav
    by_cases hab : a = b
    · subst hab
      rw [update_self, hx] at hav
      exact nomatch hav
    · rw [update_of_ne hab] at ha hav ⊢
      exact h.data a ha hav
  · intro k hk
    refine h.disk k fun a ha hak => ?_
    by_cases hab : a = b
    · rw [hab]
      exact hclean
    · have haclean := hk a
      rw [update_of_ne hab] at haclean
      exact haclean ha hak

theorem Unique.set (h : Unique c buf) (hdev : x.dev = (buf b).dev) (hblock : x.blockno = (buf b).blockno) :
    Unique c (update buf b x) := by
  have hsame : ∀ a, (update buf b x a).dev = (buf a).dev ∧
      (update buf b x a).blockno = (buf a).blockno := by
    intro a
    by_cases hab : a = b
    · subst hab
      rw [update_self]
      exact ⟨hdev, hblock⟩
    · rw [update_of_ne hab]
      exact ⟨rfl, rfl⟩
  intro a a' ha ha' heq
  rw [(hsame _).1] at ha ha'
  rw [(hsame _).2, (hsame _).2] at heq
  exact h a a' ha ha' heq

theorem Unique.recycle (h : Unique c buf) (hnew : ∀ a, (buf a).dev = c.dev → (buf a).blockno ≠ x.blockno) :
    Unique c (update buf b x) := by
  intro a a' ha ha' heq
  by_cases hab : a = b
  · by_cases hab' : a' = b
    · rw [hab, hab']
    · rw [hab, update_self, update_of_ne hab'] at heq
      rw [update_of_ne hab'] at ha'
      exact absurd heq.symm (hnew a' ha')
  · by_cases hab' : a' = b
    · rw [hab', update_self, update_of_ne hab] at heq
      rw [update_of_ne hab] at ha
      exact absurd heq (hnew a ha)
    · rw [update_of_ne hab, update_of_ne hab'] at heq
      rw [update_of_ne hab] at ha
      rw [update_of_ne hab'] at ha'
      exact h a a' ha ha' heq

end Contents

/-! ## References and locks -/

/-- What a caller relies on that has the lock of its buffer. -/
def Stage.Ok (p : Fin n) (x : Buf D n) : Stage → Prop
  | .waiting | .releasing => True
  | .reading => x.lock = some p ∧ x.dirty = false
  | .holding | .writing => x.lock = some p ∧ x.valid = true

/-- The buffer of a caller is for the block that it has asked for. -/
def PosOk (c : Config) (buf : Fin nbuf → Buf D n) (p : Fin n) : Pos → Prop
  | .idle => True
  | .access st b k => ((buf b).dev = c.dev ∧ (buf b).blockno = k) ∧ st.Ok p (buf b)

/-- What a request is for: to read a buffer that is not valid, or to write one that is dirty. -/
def Asks (b : Fin nbuf) (x : Buf D n) (a : Pos) : Prop :=
  ∃ k, (a = .access .reading b k ∧ x.valid = false) ∨ (a = .access .writing b k ∧ x.dirty = true)

/-- A request in the queue of the driver. -/
def Requested (s : Sys D n) (b : Fin nbuf) (p : Fin n) : Prop := Asks b (s.buf b) (s.pos p)

structure Held (c : Config) (s : Sys D n) : Prop where
  refs : ∀ b, (s.buf b).refcnt = holders Finset.univ (fun p => (s.pos p).buf) b
  pos : ∀ p, PosOk c s.buf p (s.pos p)
  lock : ∀ b p, (s.buf b).lock = some p → (s.pos p).locks = some b
  queue : ∀ b ∈ s.idequeue, ∃ p, Requested s b p
  queued : s.idequeue.Nodup
  pinned : ∀ b, (s.buf b).dirty = true → (s.buf b).valid = true

section Held

variable {c : Config} {s : Sys D n} {b : Fin nbuf} {p q : Fin n} {a : Pos} {x : Buf D n}

theorem Pos.buf_of_locks (h : a.locks = some b) : a.buf = some b := by
  cases a with
  | idle => cases h
  | access st b' k => cases st <;> first | exact h | cases h

theorem PosOk.dev (h : PosOk c buf p a) (ha : a.buf = some b) : (buf b).dev = c.dev := by
  cases a with
  | idle => cases ha
  | access st b' k =>
    cases ha
    exact h.1.1

theorem PosOk.lock (h : PosOk c buf p a) (ha : a.locks = some b) : (buf b).lock = some p := by
  cases a with
  | idle => cases ha
  | access st b' k => cases st <;> cases ha <;> exact h.2.1

/-- A position relies on the name of its buffer, and with the lock on its owner and its flags. -/
theorem PosOk.congr (h : PosOk c buf p a)
    (hname : ∀ b, a.buf = some b → (buf' b).dev = (buf b).dev ∧ (buf' b).blockno = (buf b).blockno)
    (hsame : ∀ b, a.locks = some b → (buf' b).lock = (buf b).lock ∧ (buf' b).dirty = (buf b).dirty ∧
      (buf' b).valid = (buf b).valid) : PosOk c buf' p a := by
  cases a with
  | idle => trivial
  | access st b k =>
    obtain ⟨hb, hst⟩ := h
    have hb' : (buf' b).dev = c.dev ∧ (buf' b).blockno = k := by
      rwa [(hname b rfl).1, (hname b rfl).2]
    cases st with
    | waiting => exact ⟨hb', trivial⟩
    | releasing => exact ⟨hb', trivial⟩
    | reading => exact ⟨hb', (hsame b rfl).1.trans hst.1, (hsame b rfl).2.1.trans hst.2⟩
    | holding => exact ⟨hb', (hsame b rfl).1.trans hst.1, (hsame b rfl).2.2.trans hst.2⟩
    | writing => exact ⟨hb', (hsame b rfl).1.trans hst.1, (hsame b rfl).2.2.trans hst.2⟩

/-- Two callers do not have the same lock. -/
theorem Held.locks_inj (h : Held c s) (hp : (s.pos p).locks = some b) (hq : (s.pos q).locks = some b) : q = p := by
  have hlp := (h.pos p).lock hp
  rw [(h.pos q).lock hq] at hlp
  exact Option.some.inj hlp

theorem Requested.locks (h : Requested s b p) : (s.pos p).locks = some b := by
  obtain ⟨k, ⟨hp, _⟩ | ⟨hp, _⟩⟩ := h <;> rw [hp] <;> rfl

/-- Nobody has requested a buffer that is not locked. -/
theorem Held.not_queued (h : Held c s) (hfree : (s.buf b).lock = none) : b ∉ s.idequeue := by
  intro hb
  obtain ⟨q, hq⟩ := h.queue b hb
  exact nomatch hfree.symm.trans ((h.pos q).lock hq.locks)

/-- The owner of the lock of `b` has made the request for it. -/
theorem Held.requested (h : Held c s) (hp : (s.pos p).locks = some b) (hb : b ∈ s.idequeue) : Requested s b p := by
  obtain ⟨q, hq⟩ := h.queue b hb
  rwa [h.locks_inj hp hq.locks] at hq

section Held

variable (h : Held c s) (hok : PosOk c (update s.buf b x) p a) (hpin : x.dirty = true → x.valid = true)

include h hok hpin

/-- Caller `p` moves to position `a`, and buffer `b` becomes `x`. What other callers rely on, and the
    locks they have, must not change. -/
theorem Held.step (hrefs : ∀ d, (update s.buf b x d).refcnt =
      holders Finset.univ (fun q => (update s.pos p a q).buf) d)
    (hname : ∀ q, (s.pos q).buf = some b → x.dev = (s.buf b).dev ∧ x.blockno = (s.buf b).blockno)
    (hlone : ∀ q, q ≠ p → (s.pos q).locks = some b →
      x.lock = (s.buf b).lock ∧ x.dirty = (s.buf b).dirty ∧ x.valid = (s.buf b).valid)
    (hlock : ∀ q, x.lock = some q → (update s.pos p a q).locks = some b)
    (hown : ∀ d, d ≠ b → (s.pos p).locks ≠ some d)
    (hnodup : queue.Nodup) (hother : ∀ d ∈ queue, d ≠ b → d ∈ s.idequeue)
    (hreq : b ∈ queue → ∃ q, Asks b x (update s.pos p a q)) : Held c ({ s with idequeue := queue, disk := disk, lh := lh }.setBuf b x |>.move p a) := by
  have hpos : ∀ q, q ≠ p → update s.pos p a q = s.pos q := fun q hq => update_of_ne hq ..
  have hbuf : ∀ d, d ≠ b → update s.buf b x d = s.buf d := fun d hd => update_of_ne hd ..
  refine ⟨hrefs, fun q => ?_, fun d q hd => ?_, fun d hd => ?_, hnodup, fun d hd => ?_⟩
  · show PosOk c (update s.buf b x) q (update s.pos p a q)
    by_cases hq : q = p
    · rw [hq, update_self]
      exact hok
    rw [hpos q hq]
    refine (h.pos q).congr (fun d hd => ?_) fun d hd => ?_
    all_goals by_cases hdb : d = b
    · rw [hdb, update_self]
      exact hname q (hdb ▸ hd)
    · rw [hbuf d hdb]
      exact ⟨rfl, rfl⟩
    · rw [hdb, update_self]
      exact hlone q hq (hdb ▸ hd)
    · rw [hbuf d hdb]
      exact ⟨rfl, rfl, rfl⟩
  · show (update s.pos p a q).locks = some d
    have hd' : (update s.buf b x d).lock = some q := hd
    by_cases hdb : d = b
    · rw [hdb, update_self] at hd'
      rw [hdb]
      exact hlock q hd'
    · rw [hbuf d hdb] at hd'
      have hl := h.lock d q hd'
      rwa [hpos q fun hqp => hown d hdb (hqp ▸ hl)]
  · by_cases hdb : d = b
    · rw [hdb] at hd ⊢
      obtain ⟨q, hq⟩ := hreq hd
      refine ⟨q, ?_⟩
      show Asks b (update s.buf b x b) _
      rw [update_self]
      exact hq
    · obtain ⟨q, hq⟩ := h.queue d (hother d hd hdb)
      refine ⟨q, ?_⟩
      show Asks d (update s.buf b x d) (update s.pos p a q)
      rw [hpos q fun hqp => hown d hdb (hqp ▸ hq.locks), hbuf d hdb]
      exact hq
  · have hd' : (update s.buf b x d).dirty = true := hd
    show (update s.buf b x d).valid = true
    by_cases hdb : d = b
    · rw [hdb, update_self] at hd' ⊢
      exact hpin hd'
    · rw [hbuf d hdb] at hd' ⊢
      exact h.pinned d hd'

/-- Caller `p`, which has a reference to `b` and which is the only one with its lock, changes it and
    moves on. -/
theorem Held.own (hp : (s.pos p).buf = some b)
    (hlone : ∀ q, q ≠ p → (s.pos q).locks ≠ some b) (ha : a.buf = some b)
    (hlock : ∀ q, x.lock = some q → q = p ∧ a.locks = some b) (hrefs : x.refcnt = (s.buf b).refcnt)
    (hname : x.dev = (s.buf b).dev ∧ x.blockno = (s.buf b).blockno) (hnodup : queue.Nodup)
    (hother : ∀ d ∈ queue, d ≠ b → d ∈ s.idequeue) (hreq : b ∈ queue → Asks b x a) :
    Held c ({ s with idequeue := queue, disk := disk, lh := lh }.setBuf b x |>.move p a) := by
  refine h.step hok hpin (fun d => ?_) (fun _ _ => hname) (fun q hq hl => absurd hl (hlone q hq)) (fun q hq => ?_)
    (fun d hd hl => ?_) hnodup hother fun hb => ⟨p, by rw [update_self]; exact hreq hb⟩
  · have hcount : holders Finset.univ (fun q => (update s.pos p a q).buf) d =
        holders Finset.univ (fun q => (s.pos q).buf) d := by
      refine holders_congr (fun q _ => ?_) d
      by_cases hq : q = p
      · rw [hq, update_self, ha, hp]
      · rw [update_of_ne hq]
    rw [hcount, ← h.refs d]
    by_cases hd : d = b
    · rw [hd, update_self, hrefs]
    · rw [update_of_ne hd]
  · obtain ⟨rfl, hl⟩ := hlock q hq
    rwa [update_self]
  · exact hd (Option.some.inj ((Pos.buf_of_locks hl).symm.trans hp))

/-- Caller `p` gets or gives up a reference to `b`, outside of the lock. -/
theorem Held.refer (hp : (s.pos p).locks = none)
    (hpb : ∀ d, d ≠ b → (s.pos p).buf ≠ some d) (hab : ∀ d, d ≠ b → a.buf ≠ some d)
    (hname : ∀ q, (s.pos q).buf = some b → x.dev = (s.buf b).dev ∧ x.blockno = (s.buf b).blockno)
    (hlock : x.lock = (s.buf b).lock)
    (hflags : ∀ q, (s.pos q).locks = some b → x.dirty = (s.buf b).dirty ∧ x.valid = (s.buf b).valid)
    (hk : x.refcnt + (if (s.pos p).buf = some b then 1 else 0) = (s.buf b).refcnt + (if a.buf = some b then 1 else 0)) :
    Held c ((s.setBuf b x).move p a) := by
  have hne : ∀ q d, (s.pos q).locks = some d → q ≠ p := by
    rintro q d hq rfl
    exact nomatch hp.symm.trans hq
  refine h.step hok hpin (fun d => ?_) hname (fun q _ hl => ⟨hlock, hflags q hl⟩) (fun q hq => ?_)
    (fun d _ hl => hne p d hl rfl) h.queued (fun _ hd _ => hd) fun hb => ?_
  · have hcount : holders Finset.univ (fun q => (update s.pos p a q).buf) d +
        (if (s.pos p).buf = some d then 1 else 0) =
          holders Finset.univ (fun q => (s.pos q).buf) d +
            (if (update s.pos p a p).buf = some d then 1 else 0) :=
      holders_change (Finset.mem_univ p) (fun q _ hq => congrArg Pos.buf (update_of_ne hq ..)) d
    rw [update_self, ← h.refs d] at hcount
    by_cases hd : d = b
    · subst hd
      rw [update_self]
      omega
    · rw [update_of_ne hd]
      rw [if_neg (hpb d hd), if_neg (hab d hd)] at hcount
      omega
  · have hl := h.lock b q (hlock ▸ hq)
    rwa [update_of_ne (hne q b hl)]
  · obtain ⟨q, hq⟩ := h.queue b hb
    refine ⟨q, ?_⟩
    unfold Asks
    rw [update_of_ne (hne q b hq.locks), (hflags q hq.locks).1, (hflags q hq.locks).2]
    exact hq

end Held

/-- Nobody has a reference to a buffer whose counter is `0`. -/
theorem Held.unused (h : Held c s) (hzero : (s.buf b).refcnt = 0) (q : Fin n) : (s.pos q).buf ≠ some b := by
  intro hq
  have hpos : 0 < holders Finset.univ (fun p => (s.pos p).buf) b := holders_pos (Finset.mem_univ q) hq
  rw [← h.refs b, hzero] at hpos
  exact lt_irrefl 0 hpos

end Held

/-! ## Steps -/

/-- The invariant, for contents `m` of the blocks. -/
structure Inv (c : Config) (m : Nat → D) (s : Sys D n) : Prop where
  /-- The list of buffers is a ring, and has them all. -/
  ring : ∃ l : List (Fin nbuf), Ring.IsRing s.next s.prev .head (l.map .buf) ∧ ∀ b, b ∈ l
  unique : Unique c s.buf
  held : Held c s
  contents : Contents c m s.buf s.disk

/-- Buffers in use and dirty buffers stay what they are. -/
def KeepsInUse (s s' : Sys D n) : Prop :=
  ∀ b, (s'.buf b).dev ≠ (s.buf b).dev ∨ (s'.buf b).blockno ≠ (s.buf b).blockno →
    (s.buf b).refcnt = 0 ∧ (s.buf b).dirty = false

/-- The driver refuses a request. -/
def DiskStop (e : Stop) : Prop := e = .panic "iderw: ide disk 1 not present" ∨ e = .panic "incorrect blockno"

/-- The cache is exhausted, the log is full or not open, or the driver refuses a request. -/
def Refused (e : Stop) (s : Sys D n) : Prop :=
  (e = .panic "bget: no buffers" ∧ ∀ b, 0 < (s.buf b).refcnt ∨ (s.buf b).dirty = true) ∨
    e = .panic "too big a transaction" ∨ e = .panic "log_write outside of trans" ∨ DiskStop e

section Steps

variable {c : Config} {m : Nat → D} {s : Sys D n} {b : Fin nbuf} {p q : Fin n} {a : Pos} {x : Buf D n}
  {E : Stop → Sys D n → Prop} {st : Stage} {k : Nat}

theorem KeepsInUse.refl (s : Sys D n) : KeepsInUse s s := fun _ h => h.elim (absurd rfl) (absurd rfl)

/-- A buffer that keeps its block. -/
theorem KeepsInUse.of_update {s' : Sys D n} (hs : s'.buf = update s.buf b x) (hdev : x.dev = (s.buf b).dev)
    (hblock : x.blockno = (s.buf b).blockno) : KeepsInUse s s' := by
  intro d hd
  rw [hs] at hd
  by_cases hdb : d = b
  · subst hdb
    rw [update_self] at hd
    exact hd.elim (absurd hdev) (absurd hblock)
  · rw [update_of_ne hdb] at hd
    exact hd.elim (absurd rfl) (absurd rfl)

/-- The two halves of what a caller with the lock of its buffer does. -/
theorem Inv.own (m' : Nat → D) (queue : List (Fin nbuf)) (disk : Nat → D) (lh : List Nat) (h : Inv c m s)
    (hp : (s.pos p).buf = some b) (hlone : ∀ q, q ≠ p → (s.pos q).locks ≠ some b)
    (ha : a.buf = some b) (hok : PosOk c (update s.buf b x) p a)
    (hlock : ∀ q, x.lock = some q → q = p ∧ a.locks = some b)
    (hrefs : x.refcnt = (s.buf b).refcnt) (hdev : x.dev = (s.buf b).dev) (hblock : x.blockno = (s.buf b).blockno)
    (hpin : x.dirty = true → x.valid = true)
    (hnodup : queue.Nodup) (hother : ∀ d ∈ queue, d ≠ b → d ∈ s.idequeue)
    (hreq : b ∈ queue → Asks b x a)
    (hm : ∀ k, k ≠ (s.buf b).blockno → m' k = m k) (hd : ∀ k, k ≠ (s.buf b).blockno → disk k = s.disk k)
    (hvalid : x.valid = true → x.data = m' (s.buf b).blockno)
    (hclean : x.dirty = false → disk (s.buf b).blockno = m' (s.buf b).blockno) :
    Inv c m' ({ s with idequeue := queue, disk := disk, lh := lh }.setBuf b x |>.move p a) where
  ring := h.ring
  unique := h.unique.set hdev hblock
  held := h.held.own hok hpin hp hlone ha hlock hrefs ⟨hdev, hblock⟩ hnodup hother hreq
  contents := by
    have hbdev := (h.held.pos p).dev hp
    exact h.contents.set h.unique hbdev (hdev.trans hbdev) hblock hm hd hvalid hclean

/-- The search for a buffer, over a ring of all buffers. -/
theorem wp_findBuf {step back : Node → Node} (hr : Ring.IsRing step back .head (l.map .buf))
    (hall : ∀ b, b ∈ l) (hsome : ∀ b, f b = true → Q (some b) s) (hnone : (∀ b, f b = false) → Q none s) :
    wp (findBuf step f) Q E s := by
  have hnodup : l.Nodup := (nodup_cons.mp hr.nodup).2.of_map _
  have hlen : (l.map Node.buf).length ≤ nbuf := by
    rw [length_map]
    have hcard := hnodup.length_le_card
    rwa [Fintype.card_fin] at hcard
  have hfind : (l.map Node.buf).find? (onBuf f) = (l.find? f).map .buf := find?_map ..
  unfold findBuf
  rw [hr.scan_eq hlen, hfind]
  cases hl : l.find? f with
  | none =>
    refine hnone fun b => ?_
    simpa using find?_eq_none.mp hl b (hall b)
  | some b => exact hsome b (find?_some hl)

/-- The block is in the cache, or a buffer can be taken for it. -/
def Available (c : Config) (s : Sys D n) (k : Nat) : Prop :=
  ∃ b, (s.buf b).dev = c.dev ∧ (s.buf b).blockno = k ∨ (s.buf b).refcnt = 0 ∧ (s.buf b).dirty = false

/-- What `bget` has found: the buffer of the block, or one that nobody used. -/
structure Found (c : Config) (s : Sys D n) (k : Nat) (b : Fin nbuf) (s' : Sys D n) : Prop where
  keeps : KeepsInUse s s'
  queue : s'.idequeue = s.idequeue
  lock : (s'.buf b).lock = (s.buf b).lock
  before : (s.buf b).dev = c.dev ∧ (s.buf b).blockno = k ∨ (s.buf b).refcnt = 0

theorem Inv.wp_bget (h : Inv c m s) (hp : s.pos p = .idle) :
    wp (bget c k) (fun b s' => Inv c m (s'.move p (.access .waiting b k)) ∧ Found c s k b s')
      (fun e s' => e = .panic "bget: no buffers" ∧ s' = s ∧ ¬ Available c s k) s := by
  obtain ⟨l, hr, hall⟩ := h.ring
  have hlocks : (s.pos p).locks = none := by
    rw [hp]
    rfl
  have hnobuf : (s.pos p).buf = none := by
    rw [hp]
    rfl
  simp only [bget, wp_bind, wp_get]
  refine wp_findBuf hr hall (fun b hb => ?_) fun hmiss => ?_
  · -- The block is in the cache.
    simp only [Bool.and_eq_true, beq_iff_eq] at hb
    simp only [wp_bind, wp_set, wp_pure]
    refine ⟨⟨⟨l, hr, hall⟩, h.unique.set rfl rfl, ?_, ?_⟩, .of_update rfl rfl rfl, rfl, by simp, .inl hb⟩
    · refine h.held.refer (by simpa [PosOk, Stage.Ok] using hb) (h.held.pinned b) hlocks
        (fun d _ => by rw [hnobuf]; rintro ⟨⟩) (fun d hd hbd => hd (Option.some.inj hbd).symm)
        (fun _ _ => ⟨rfl, rfl⟩) rfl (fun _ _ => ⟨rfl, rfl⟩) ?_
      simp [hp, Pos.buf]
    · exact h.contents.set h.unique hb.1 hb.1 rfl (fun _ _ => rfl) (fun _ _ => rfl)
        (fun hv => h.contents.data b hb.1 hv) (fun hd => h.contents.clean h.unique hb.1 hd)
  · -- A buffer is recycled.
    have hback : Ring.IsRing s.prev s.next .head (l.reverse.map .buf) := by
      rw [map_reverse]
      exact hr.reverse
    have hnew : ∀ d, (s.buf d).dev = c.dev → (s.buf d).blockno ≠ k := by
      intro d hd
      have := hmiss d
      simp only [Bool.and_eq_false_iff, beq_eq_false_iff_ne] at this
      exact this.resolve_left fun hne => hne hd
    simp only [wp_bind]
    refine wp_findBuf hback (fun b => mem_reverse.mpr (hall b)) (fun b hb => ?_) fun hfull => ⟨rfl, rfl, ?_⟩
    · simp only [Bool.and_eq_true, beq_iff_eq, Bool.not_eq_true'] at hb
      simp only [wp_bind, wp_set, wp_pure]
      refine ⟨⟨⟨l, hr, hall⟩, h.unique.recycle hnew, ?_, h.contents.recycle hb.2 rfl⟩, fun d hd => ?_, rfl,
        by simp, .inr hb.1⟩
      · have hunused := h.held.unused hb.1
        refine h.held.refer (by simp [PosOk, Stage.Ok]) (by rintro ⟨⟩) hlocks
          (fun d _ => by rw [hnobuf]; rintro ⟨⟩) (fun d hd hbd => hd (Option.some.inj hbd).symm)
          (fun q hq => absurd hq (hunused q)) rfl (fun q hq => absurd (Pos.buf_of_locks hq) (hunused q)) ?_
        simp [hp, Pos.buf, hb.1]
      · by_cases hdb : d = b
        · rw [hdb]
          exact hb
        · rw [Sys.setBuf_buf, update_of_ne hdb] at hd
          exact hd.elim (absurd rfl) (absurd rfl)
    · rintro ⟨b, ⟨hdev, hk⟩ | ⟨href, hd⟩⟩
      · exact hnew b hdev hk
      · simpa [href, hd] using hfull b

theorem wp_iderw {Q : Unit → Sys D n → Prop} (hl : (s.buf b).lock = some p)
    (hneed : ¬ ((s.buf b).valid = true ∧ (s.buf b).dirty = false))
    (hQ : Q () { s with idequeue := s.idequeue ++ [b] }) (hE : ∀ e t, DiskStop e → E e t) :
    wp (iderw c p b) Q E s := by
  simp only [iderw, enqueue, idestart, wp_bind, wp_get, wp_ite, wp_set, wp_throw, wp_pure]
  refine ⟨fun hne => absurd hl hne, fun _ => ⟨fun hidle => absurd hidle hneed, fun _ => ⟨fun _ => ?_, fun _ => ?_⟩⟩⟩
  · exact hE _ _ (.inl rfl)
  · exact ⟨fun _ => ⟨fun _ => hE _ _ (.inr rfl), fun _ => hQ⟩, fun _ => hQ⟩

/-- One step keeps the invariant and returns what was written last. -/
def Good (c : Config) (m : Nat → D) (s : Sys D n) (out : Option (Event D)) (s' : Sys D n) : Prop :=
  Event.Fresh m out ∧ Inv c (Event.apply m out) s' ∧ KeepsInUse s s'

theorem Good.refl (h : Inv c m s) : Good c m s none s := ⟨trivial, h, .refl s⟩

/-- A buffer whose lock is free. -/
theorem Held.lone_of_free (h : Held c s) (hfree : (s.buf b).lock = none) (q : Fin n) : (s.pos q).locks ≠ some b :=
  fun hq => nomatch hfree.symm.trans ((h.pos q).lock hq)

/-- A buffer whose lock `p` has. -/
theorem Held.lone (h : Held c s) (hp : (s.pos p).locks = some b) (q : Fin n) (hq : q ≠ p) :
    (s.pos q).locks ≠ some b := fun hl => hq (h.locks_inj hp hl)

theorem Held.nodup_enqueue (h : Held c s) (hnot : b ∉ s.idequeue) : (s.idequeue ++ [b]).Nodup :=
  (perm_append_singleton b _).nodup_iff.mpr (nodup_cons.mpr ⟨hnot, h.queued⟩)

section Steps

variable (h : Inv c m s)

include h

theorem Inv.clean_of_invalid (hinvalid : (s.buf b).valid = false) : (s.buf b).dirty = false := by
  cases hd : (s.buf b).dirty with
  | false => rfl
  | true => exact absurd (h.held.pinned b hd) (by simp [hinvalid])

/-- The buffer of a caller is for its block. -/
theorem Inv.block (hp : s.pos p = .access st b k) :
    (s.pos p).buf = some b ∧ ((s.buf b).dev = c.dev ∧ (s.buf b).blockno = k) ∧ st.Ok p (s.buf b) := by
  have hok := h.held.pos p
  rw [hp] at hok
  exact ⟨by rw [hp]; rfl, hok⟩

/-- Only the lock of a buffer changes, for which there is no request. -/
theorem Inv.relock {x : Option (Fin n)} (hp : (s.pos p).buf = some b)
    (hlone : ∀ q, q ≠ p → (s.pos q).locks ≠ some b) (hnot : b ∉ s.idequeue) (ha : a.buf = some b)
    (hok : PosOk c (update s.buf b { s.buf b with lock := x }) p a)
    (hlock : ∀ q, x = some q → q = p ∧ a.locks = some b) :
    Inv c m ((s.setBuf b { s.buf b with lock := x }).move p a) := by
  have hdev := (h.held.pos p).dev hp
  exact h.own m s.idequeue s.disk s.lh hp hlone ha hok hlock rfl rfl rfl (h.held.pinned b) h.held.queued
    (fun d hd _ => hd) (fun hq => absurd hq hnot) (fun _ _ => rfl) (fun _ _ => rfl)
    (fun hv => h.contents.data b hdev hv) (fun hc => h.contents.clean h.unique hdev hc)

theorem Inv.wp_acquire (hp : s.pos p = .access .waiting b k) :
    wp (acquire c p (.access .waiting b k)) (Good c m s) Refused s := by
  obtain ⟨hb, ⟨hdev, rfl⟩, -⟩ := h.block hp
  simp only [acquire, breadLocked, wp_bind, wp_get, wp_ite, wp_set, wp_pure]
  refine ⟨fun hfree => ?_, fun _ => .refl h⟩
  have hlone : ∀ q, q ≠ p → (s.pos q).locks ≠ some b := fun q _ => h.held.lone_of_free hfree q
  have hnot := h.held.not_queued hfree
  simp only [Sys.setBuf_buf, update_self]
  refine ⟨fun hvalid => ?_, fun hinvalid => ?_⟩
  · refine ⟨h.contents.data b hdev hvalid, ?_, .of_update rfl rfl rfl⟩
    exact h.relock hb hlone hnot rfl (by simp [PosOk, Stage.Ok, hdev, hvalid])
      fun q hq => ⟨(Option.some.inj hq).symm, rfl⟩
  · have hinvalid' : (s.buf b).valid = false := by simpa using hinvalid
    have hclean := h.clean_of_invalid hinvalid'
    refine wp_iderw (by simp) (by simp [hinvalid']) ?_ fun e t he => .inr (.inr (.inr he))
    rw [wp_modify]
    refine ⟨trivial, ?_, .of_update rfl rfl rfl⟩
    exact h.own m (s.idequeue ++ [b]) s.disk s.lh hb hlone rfl (by simp [PosOk, Stage.Ok, hdev, hclean])
      (fun q hq => ⟨(Option.some.inj hq).symm, rfl⟩) rfl rfl rfl (h.held.pinned b)
      (h.held.nodup_enqueue hnot) (fun d hd hdb => by simpa [hdb] using hd)
      (fun _ => ⟨_, .inl ⟨rfl, hinvalid'⟩⟩) (fun _ _ => rfl) (fun _ _ => rfl)
      (fun hv => h.contents.data b hdev hv) (fun hc => h.contents.clean h.unique hdev hc)

theorem Inv.awake (hp : s.pos p = .access st b k) (hl : (s.pos p).locks = some b)
    (hready : (s.buf b).ready = true) : Inv c m (s.move p (.access .holding b k)) := by
  obtain ⟨hb, hname, -⟩ := h.block hp
  have hlock := (h.held.pos p).lock hl
  simp only [Buf.ready, Bool.and_eq_true, Bool.not_eq_true'] at hready
  have hnot : b ∉ s.idequeue := by
    intro hq
    obtain ⟨_, ⟨_, hv⟩ | ⟨_, hd⟩⟩ := h.held.requested hl hq
    · simp [hready.1] at hv
    · simp [hready.2] at hd
  have hown := h.relock (a := .access .holding b k) (x := (s.buf b).lock) hb (h.held.lone hl) hnot rfl
    (by simp [PosOk, Stage.Ok, hname, hlock, hready.1]) fun q hq => ⟨Option.some.inj (hq.symm.trans hlock), rfl⟩
  simpa [Sys.setBuf] using hown

theorem Inv.wp_wake_reading (hp : s.pos p = .access .reading b k) :
    wp (wake p (.access .reading b k)) (Good c m s) Refused s := by
  obtain ⟨-, ⟨hdev, hk⟩, -⟩ := h.block hp
  simp only [wake, wp_bind, wp_get, wp_ite, wp_set, wp_pure]
  refine ⟨fun hready => ⟨?_, h.awake hp (by rw [hp]; rfl) hready, .refl s⟩, fun _ => .refl h⟩
  have hvalid : (s.buf b).valid = true := by
    simp only [Buf.ready, Bool.and_eq_true] at hready
    exact hready.1
  rw [← hk]
  exact h.contents.data b hdev hvalid

theorem Inv.wp_wake_writing (hp : s.pos p = .access .writing b k) :
    wp (wake p (.access .writing b k)) (Good c m s) Refused s := by
  simp only [wake, wp_bind, wp_get, wp_ite, wp_set, wp_pure]
  exact ⟨fun hready => ⟨trivial, h.awake hp (by rw [hp]; rfl) hready, .refl s⟩, fun _ => .refl h⟩

/-- What a process has that may use its buffer: the lock, the data, and no request for it. -/
theorem Inv.holding (hp : s.pos p = .access .holding b k) :
    (s.pos p).locks = some b ∧ (s.pos p).buf = some b ∧ ((s.buf b).dev = c.dev ∧ (s.buf b).blockno = k) ∧
      ((s.buf b).lock = some p ∧ (s.buf b).valid = true) ∧ b ∉ s.idequeue := by
  have hlocks : (s.pos p).locks = some b := by
    rw [hp]
    rfl
  obtain ⟨hb, hname, hst⟩ := h.block hp
  refine ⟨hlocks, hb, hname, hst, fun hq => ?_⟩
  obtain ⟨_, ⟨hr, _⟩ | ⟨hw, _⟩⟩ := h.held.requested hlocks hq
  · exact nomatch hp.symm.trans hr
  · exact nomatch hp.symm.trans hw

theorem Inv.wp_logWrite (hp : s.pos p = .access .holding b k) :
    wp (logWrite c data (.access .holding b k)) (Good c m s) Refused s := by
  obtain ⟨hlocks, hb, ⟨hdev, rfl⟩, ⟨hlock, hvalid⟩, hnot⟩ := h.holding hp
  simp only [logWrite, wp_bind, wp_get, wp_ite, wp_set, wp_pure, wp_throw]
  refine ⟨fun _ => .inr (.inl rfl), fun _ => ⟨fun _ => .inr (.inr (.inl rfl)), fun _ => ?_⟩⟩
  refine ⟨trivial, ?_, .of_update rfl rfl rfl⟩
  have hown := h.own (x := { s.buf b with data := data, dirty := true }) (a := s.pos p)
    (update m (s.buf b).blockno data) s.idequeue s.disk (logBlock s.lh (s.buf b).blockno) hb
    (h.held.lone hlocks) hb (by simp [hp, PosOk, Stage.Ok, hdev, hlock, hvalid])
    (fun q hq => ⟨Option.some.inj (hq.symm.trans hlock), hlocks⟩) rfl rfl rfl (fun _ => hvalid) h.held.queued
    (fun d hd _ => hd) (fun hq => absurd hq hnot)
    (fun k hk => update_of_ne hk ..) (fun _ _ => rfl) (fun _ => by simp) (by rintro ⟨⟩)
  simpa [Event.apply, Sys.move, Sys.setBuf] using hown

theorem Inv.wp_bwrite (hp : s.pos p = .access .holding b k) :
    wp (bwrite c p data (.access .holding b k)) (Good c m s) Refused s := by
  obtain ⟨hlocks, hb, ⟨hdev, rfl⟩, ⟨hlock, hvalid⟩, hnot⟩ := h.holding hp
  simp only [bwrite, wp_bind, wp_get, wp_ite, wp_set, wp_pure, wp_throw]
  refine ⟨fun hne => absurd hlock hne, fun _ => ?_⟩
  refine wp_iderw (by simpa using hlock) (by simp) ?_ fun e t he => .inr (.inr (.inr he))
  rw [wp_modify]
  refine ⟨trivial, ?_, .of_update rfl rfl rfl⟩
  exact h.own (x := { s.buf b with data := data, dirty := true })
    (update m (s.buf b).blockno data) (s.idequeue ++ [b]) s.disk s.lh hb
    (h.held.lone hlocks) rfl (by simp [PosOk, Stage.Ok, hdev, hlock, hvalid])
    (fun q hq => ⟨Option.some.inj (hq.symm.trans hlock), rfl⟩) rfl rfl rfl (fun _ => hvalid)
    (h.held.nodup_enqueue hnot)
    (fun d hd hdb => by simpa [hdb] using hd) (fun _ => ⟨_, .inr ⟨rfl, rfl⟩⟩)
    (fun k hk => update_of_ne hk ..) (fun _ _ => rfl) (fun _ => by simp) (by rintro ⟨⟩)

theorem Inv.wp_unlock (hp : s.pos p = .access .holding b k) :
    wp (unlock p (.access .holding b k)) (Good c m s) Refused s := by
  obtain ⟨hlocks, hb, hname, ⟨hlock, -⟩, hnot⟩ := h.holding hp
  simp only [unlock, wp_bind, wp_get, wp_ite, wp_set, wp_pure, wp_throw]
  refine ⟨fun hne => absurd hlock hne, fun _ => ⟨trivial, ?_, .of_update rfl rfl rfl⟩⟩
  exact h.relock hb (h.held.lone hlocks) hnot rfl (by simp [PosOk, Stage.Ok, hname]) (by rintro _ ⟨⟩)

end Steps

/-- The ring after a buffer has been moved to the front. -/
theorem ring_front {next prev : Node → Node} (hr : Ring.IsRing next prev .head (l.map .buf))
    (hall : ∀ b, b ∈ l) (b : Fin nbuf) :
    ∃ l' : List (Fin nbuf), Ring.IsRing
      (Ring.pushFront (Ring.unlink next prev (.buf b)).1 (Ring.unlink next prev (.buf b)).2 .head (.buf b)).1
      (Ring.pushFront (Ring.unlink next prev (.buf b)).1 (Ring.unlink next prev (.buf b)).2 .head (.buf b)).2
      .head (l'.map .buf) ∧ ∀ b, b ∈ l' := by
  obtain ⟨xs, ys, rfl⟩ := append_of_mem (hall b)
  have hnodup : (xs ++ b :: ys).Nodup := (nodup_cons.mp hr.nodup).2.of_map _
  rw [map_append, map_cons] at hr
  have hout := hr.unlink
  rw [← map_append] at hout
  refine ⟨b :: (xs ++ ys), hout.pushFront ?_, fun d => ?_⟩
  · have hb : b ∉ xs ++ ys := (nodup_middle.mp hnodup).notMem
    simpa using hb
  · have hd := hall d
    simp only [mem_append, mem_cons] at hd ⊢
    tauto

theorem Inv.wp_put (h : Inv c m s) (hp : s.pos p = .access .releasing b k) :
    wp (put p (.access .releasing b k)) (Good c m s) Refused s := by
  obtain ⟨hb, ⟨hdev, -⟩, -⟩ := h.block hp
  have hcount : 0 < (s.buf b).refcnt := by
    by_contra hzero
    exact h.held.unused (by omega) p hb
  have hheld : Held c ((s.setBuf b { s.buf b with refcnt := (s.buf b).refcnt - 1 }).move p .idle) := by
    refine h.held.refer trivial (h.held.pinned b) (by rw [hp]; rfl) (fun d hd hbd => ?_)
      (fun d _ => by simp [Pos.buf]) (fun _ _ => ⟨rfl, rfl⟩) rfl (fun _ _ => ⟨rfl, rfl⟩) ?_
    · rw [hb] at hbd
      exact hd (Option.some.inj hbd).symm
    · rw [if_pos hb, if_neg (by simp [Pos.buf])]
      exact Nat.sub_add_cancel hcount
  have hcont : Contents c m (update s.buf b { s.buf b with refcnt := (s.buf b).refcnt - 1 }) s.disk :=
    h.contents.set h.unique hdev hdev rfl (fun _ _ => rfl) (fun _ _ => rfl)
      (fun hv => h.contents.data b hdev hv) (fun hd => h.contents.clean h.unique hdev hd)
  obtain ⟨l, hr, hall⟩ := h.ring
  simp only [put, moveToFront, wp_bind, wp_get, wp_ite, wp_set, wp_pure]
  refine ⟨fun _ => ⟨trivial, ?_, .of_update rfl rfl rfl⟩, fun _ => ⟨trivial, ?_, .of_update rfl rfl rfl⟩⟩
  · exact ⟨ring_front hr hall b, h.unique.set rfl rfl, ⟨hheld.refs, hheld.pos, hheld.lock, hheld.queue,
      hheld.queued, hheld.pinned⟩, hcont⟩
  · exact ⟨⟨l, hr, hall⟩, h.unique.set rfl rfl, hheld, hcont⟩

theorem Inv.transfer (h : Inv c m s) (hq : s.idequeue = b :: queue) :
    wp (transfer b) (fun _ s' => Inv c m { s' with idequeue := queue } ∧ KeepsInUse s s') E s := by
  obtain ⟨p, hreq⟩ := h.held.queue b (by rw [hq]; exact mem_cons_self)
  have hl := hreq.locks
  have hb := Pos.buf_of_locks hl
  have hdev : (s.buf b).dev = c.dev := (h.held.pos p).dev hb
  have hlock := (h.held.pos p).lock hl
  have hnodup := h.held.queued
  rw [hq] at hnodup
  obtain ⟨hnot, hrest⟩ := nodup_cons.mp hnodup
  have hothers : ∀ d ∈ queue, d ≠ b → d ∈ s.idequeue := by
    intro d hd _
    rw [hq]
    exact mem_cons_of_mem b hd
  obtain ⟨k, hreq⟩ := hreq
  simp only [Bio.transfer, wp_bind, wp_get, wp_ite, wp_set]
  refine ⟨fun hdirty => ⟨?_, .of_update rfl rfl rfl⟩, fun hclean => ⟨?_, .of_update rfl rfl rfl⟩⟩
  · -- The request is one for writing: those for reading are for buffers that are not dirty.
    have hw : s.pos p = .access .writing b k := by
      rcases hreq with ⟨hr, _⟩ | ⟨hw, _⟩
      · cases hdirty.symm.trans (h.block hr).2.2.2
      · exact hw
    have hvalid := h.held.pinned b hdirty
    have hown := h.own (x := { s.buf b with valid := true, dirty := false }) (a := s.pos p) m queue
      (update s.disk (s.buf b).blockno (s.buf b).data) s.lh hb (h.held.lone hl) hb
      (by simp [hw, PosOk, Stage.Ok, (h.block hw).2.1, hlock])
      (fun q hq => ⟨Option.some.inj (hq.symm.trans hlock), hl⟩) rfl rfl rfl
      (fun _ => rfl) hrest hothers (fun hin => absurd hin hnot) (fun _ _ => rfl)
      (fun k hk => update_of_ne hk ..) (fun _ => h.contents.data b hdev hvalid)
      (fun _ => by simpa using h.contents.data b hdev hvalid)
    simpa [Sys.move, Sys.setBuf] using hown
  · have hclean' : (s.buf b).dirty = false := by simpa using hclean
    have hr : s.pos p = .access .reading b k := by
      rcases hreq with ⟨hr, _⟩ | ⟨_, hd⟩
      · exact hr
      · exact absurd hd hclean
    have hdisk := h.contents.clean h.unique hdev hclean'
    have hown := h.own (x := { s.buf b with data := s.disk (s.buf b).blockno, valid := true }) (a := s.pos p)
      m queue s.disk s.lh hb (h.held.lone hl) hb
      (by simp [hr, PosOk, Stage.Ok, (h.block hr).2.1, hlock, hclean'])
      (fun q hq => ⟨Option.some.inj (hq.symm.trans hlock), hl⟩) rfl rfl rfl
      (fun _ => rfl) hrest hothers (fun hin => absurd hin hnot) (fun _ _ => rfl) (fun _ _ => rfl)
      (fun _ => hdisk) (fun _ => hdisk)
    simpa [Sys.move, Sys.setBuf] using hown

theorem Inv.wp_ideintr (h : Inv c m s) :
    wp ideintr (fun _ s' => Inv c m s' ∧ KeepsInUse s s') Refused s := by
  cases hq : s.idequeue with
  | nil =>
    simp only [ideintr, wp_bind, wp_get, hq, wp_pure]
    exact ⟨h, .refl s⟩
  | cons b queue =>
    simp only [ideintr, wp_bind, wp_get, hq]
    refine wp_post (h.transfer hq) ?_
    rintro _ s' ⟨h', hkeeps⟩
    rw [wp_modify]
    cases queue with
    | nil => exact ⟨h', hkeeps⟩
    | cons b' queue =>
      simp only [idestart, wp_bind, wp_get, wp_ite, wp_throw, wp_pure]
      exact ⟨fun _ => .inr (.inr (.inr (.inr rfl))), fun _ => ⟨h', hkeeps⟩⟩

theorem not_available (h : ¬ Available c s k) (b : Fin nbuf) : 0 < (s.buf b).refcnt ∨ (s.buf b).dirty = true := by
  by_contra hno
  simp only [not_or, not_lt, Nat.le_zero, Bool.not_eq_true] at hno
  exact h ⟨b, .inr hno⟩

theorem wp_turn {t : Turn D n} (h : Inv c m s) : wp (t.exec c) (Good c m s) Refused s := by
  cases t with
  | bread p k =>
    simp only [Turn.exec, wp_bind, wp_get, wp_ite, wp_modify, wp_pure]
    refine ⟨fun hp => wp_mono (h.wp_bget hp) ?_ ?_, fun _ => .refl h⟩
    · rintro b s' ⟨h', hfound⟩
      exact ⟨trivial, h', hfound.keeps⟩
    · rintro e s' ⟨rfl, rfl, hno⟩
      exact .inl ⟨rfl, not_available hno⟩
  | ideintr =>
    simp only [Turn.exec, wp_bind, wp_pure]
    refine wp_post h.wp_ideintr ?_
    rintro _ s' ⟨h', hkeeps⟩
    exact ⟨trivial, h', hkeeps⟩
  | log lh outstanding =>
    simp only [Turn.exec, wp_bind, wp_modify, wp_pure]
    have hheld : Held c { s with lh := lh, outstanding := outstanding } :=
      ⟨h.held.refs, h.held.pos, h.held.lock, h.held.queue, h.held.queued, h.held.pinned⟩
    exact ⟨trivial, ⟨h.ring, h.unique, hheld, h.contents⟩, .refl s⟩
  -- The other steps are those of a caller at a certain stage.
  | acquire p =>
    simp only [Turn.exec, wp_bind, wp_get]
    unfold acquire
    split
    · next hp => exact h.wp_acquire hp
    · exact .refl h
  | wake p =>
    simp only [Turn.exec, wp_bind, wp_get]
    unfold wake
    split
    · next hp => exact h.wp_wake_reading hp
    · next hp => exact h.wp_wake_writing hp
    · exact .refl h
  | put p =>
    simp only [Turn.exec, wp_bind, wp_get]
    unfold put
    split
    · next hp => exact h.wp_put hp
    · exact .refl h
  | logWrite p data =>
    simp only [Turn.exec, wp_bind, wp_get]
    unfold logWrite
    split
    · next hp => exact h.wp_logWrite hp
    · exact .refl h
  | bwrite p data =>
    simp only [Turn.exec, wp_bind, wp_get]
    unfold bwrite
    split
    · next hp => exact h.wp_bwrite hp
    · exact .refl h
  | brelse p =>
    simp only [Turn.exec, wp_bind, wp_get]
    unfold unlock
    split
    · next hp => exact h.wp_unlock hp
    · exact .refl h

/-- With the disk idle and the lock free, a caller that waits for the lock gets the contents. -/
theorem Inv.waiting_returns (h : Inv c m s) (hp : s.pos p = .access .waiting b k) (hlock : (s.buf b).lock = none)
    (hq : s.idequeue = []) (hk : k < fssize) (hdisk : c.havedisk1 = true) :
    wp (run (Turn.exec c) [.acquire p, .ideintr, .wake p]) (fun outs _ => some (.read k (m k)) ∈ outs) noStop s := by
  obtain ⟨-, ⟨hdev, rfl⟩, -⟩ := h.block hp
  cases hvalid : (s.buf b).valid with
  | true =>
    have hdata := h.contents.data b hdev hvalid
    simp [run, Turn.exec, acquire, breadLocked, ideintr, wake, hp, hlock, hvalid, hq, hdata]
  | false =>
    -- The block is read from the disk, which has it since the buffer is not dirty.
    have hclean := h.clean_of_invalid hvalid
    have hdata := h.contents.clean h.unique hdev hclean
    simp [run, Turn.exec, acquire, breadLocked, iderw, enqueue, idestart, ideintr, Bio.transfer, wake, Buf.ready,
      hp, hlock, hvalid, hq, hclean, hdata, hdisk, hk]

/-- `bread` can be called and will not have to wait for others. -/
structure Obtainable (c : Config) (s : Sys D n) (p : Fin n) (k : Nat) : Prop where
  idle : s.pos p = .idle
  available : Available c s k
  unlocked : ∀ b, (s.buf b).dev = c.dev → (s.buf b).blockno = k → (s.buf b).lock = none
  queue : s.idequeue = []
  onDisk : k < fssize
  present : c.havedisk1 = true

/-- `bread` returns the contents of the block it is asked for. -/
theorem Inv.bread_returns (h : Inv c m s) (ho : Obtainable c s p k) :
    wp (run (Turn.exec c) [.bread p k, .acquire p, .ideintr, .wake p])
      (fun outs _ => some (.read k (m k)) ∈ outs) noStop s := by
  rw [run]
  simp only [Turn.exec, wp_bind, wp_get, if_pos ho.idle, wp_modify, wp_pure]
  refine wp_mono (h.wp_bget ho.idle) ?_ fun _ _ hno => hno.2.2 ho.available
  rintro b s' ⟨h', hfound⟩
  have hlock : (s'.buf b).lock = none := by
    rw [hfound.lock]
    rcases hfound.before with ⟨hdev, hk⟩ | hzero
    · exact ho.unlocked b hdev hk
    · cases hl : (s.buf b).lock with
      | none => rfl
      | some q => exact absurd (Pos.buf_of_locks (h.held.lock b q hl)) (h.held.unused hzero q)
  refine wp_post (h'.waiting_returns (by simp) hlock (hfound.queue.trans ho.queue) ho.onDisk ho.present) ?_
  intro outs _ hread
  exact mem_cons_of_mem _ hread

end Steps

/-! ## Runs -/

/-- A step does not take a buffer away from anybody, and does not drop what has not been written. -/
def NeverRecycles (c : Config) (t : Turn D n) (s : Sys D n) : Prop :=
  ∀ out s', t.exec c s = .ok out s' → KeepsInUse s s'

/-- The cache is consistent. -/
structure Consistent (c : Config) (s : Sys D n) : Prop where
  /-- The list of buffers is a circular doubly linked permutation of all buffers. -/
  ring : ∃ l : List (Fin nbuf), Ring.IsRing s.next s.prev .head (l.map .buf) ∧ l.Perm (List.finRange nbuf)
  unique : Unique c s.buf
  /-- `refcnt` is the number of callers between `bget` and the end of `brelse`. -/
  refs : ∀ b, (s.buf b).refcnt = holders Finset.univ (fun p => (s.pos p).buf) b

section Runs

variable {c : Config} {m : Nat → D} {s : Sys D n} {turns : List (Turn D n)}

theorem Inv.consistent (h : Inv c m s) : Consistent c s := by
  obtain ⟨l, hr, hall⟩ := h.ring
  refine ⟨⟨l, hr, ?_⟩, h.unique, h.held.refs⟩
  have hnodup : l.Nodup := (nodup_cons.mp hr.nodup).2.of_map _
  exact (perm_ext_iff_of_nodup hnodup (nodup_finRange nbuf)).mpr fun b => by simp [hall b]

/-- What is read in a run is what was written last. -/
theorem run_coherent (h : Inv c m s) (turns : List (Turn D n)) : wp (run (Turn.exec c) turns)
    (fun outs s' => Coherent m outs ∧ Inv c (outs.foldl Event.apply m) s') Refused s := by
  induction turns generalizing m s with
  | nil => exact ⟨trivial, h⟩
  | cons t turns ih =>
    simp only [run, wp_bind, wp_pure]
    refine wp_post (wp_turn h) ?_
    rintro out s1 ⟨hfresh, h1, _⟩
    refine wp_post (ih h1) ?_
    rintro outs s' ⟨hcoherent, h'⟩
    exact ⟨⟨hfresh, hcoherent⟩, h'⟩

theorem along_neverRecycles (h : Inv c m s) : Along (Turn.exec c) (NeverRecycles c) turns s := by
  induction turns generalizing m s with
  | nil => trivial
  | cons t turns ih =>
    have hstep := wp_turn (t := t) h
    refine ⟨fun out s' hx => ((wp_of_ok hx).mp hstep).2.2, ?_⟩
    cases hx : t.exec c s with
    | ok out s' => exact ih ((wp_of_ok hx).mp hstep).2.1
    | error e s' => trivial

theorem binitLinks_ring (hl : l.Nodup) :
    Ring.IsRing (binitLinks l).1 (binitLinks l).2 .head (l.reverse.map .buf) := by
  induction l using List.reverseRecOn with
  | nil => exact Ring.isRing_nil rfl rfl
  | append_singleton l b ih =>
    obtain ⟨hl', _, hb⟩ := nodup_append.mp hl
    have hnot : b ∉ l := fun hmem => hb b hmem b (by simp) rfl
    have hlinks : binitLinks (l ++ [b]) =
        Ring.pushFront (binitLinks l).1 (binitLinks l).2 .head (.buf b) := by
      simp [binitLinks, foldl_append]
    rw [hlinks, reverse_append, reverse_singleton, singleton_append, map_cons]
    exact (ih hl').pushFront (by simpa using hnot)

theorem binit_inv (hdev : c.dev ≠ 0) (zero : D) (disk : Nat → D) (n : Nat) : Inv c disk (binit zero disk n) := by
  have hother : ∀ b, ((binit zero disk n).buf b).dev ≠ c.dev := fun _ h => hdev h.symm
  refine ⟨⟨(List.finRange nbuf).reverse, binitLinks_ring (nodup_finRange nbuf), by simp⟩,
    fun a _ ha => absurd ha (hother a), ⟨fun b => ?_, fun _ => trivial, nofun, nofun, nodup_nil, nofun⟩,
    ⟨fun b hb => absurd hb (hother b), fun _ _ => rfl⟩⟩
  have hnone : holders Finset.univ (fun p => ((binit zero disk n).pos p).buf) b = 0 := by
    unfold holders
    rw [Finset.card_eq_zero]
    exact Finset.filter_eq_empty_iff.mpr fun p _ => nofun
  exact hnone.symm

end Runs

/-- The buffer cache is coherent: in every run of any number of callers, from an empty cache on a
    device other than the first, the list stays a ring of all buffers, a block is in one buffer at
    most, reference counts are exact, no buffer in use or dirty is recycled, and every `bread` returns
    the contents written last to the block that it was asked for; after every run, a `bread` that need
    not wait for other callers does return them. A run stops only for lack of buffers or of log space,
    or at a block that is not on the disk. -/
theorem cache_coherent (c : Config) (hdev : c.dev ≠ 0) (zero : D) (disk : Nat → D) (turns : List (Turn D n)) :
    (∀ outs s, run (Turn.exec c) turns (binit zero disk n) = .ok outs s →
      Consistent c s ∧ Coherent disk outs ∧ ∀ p k, Obtainable c s p k →
        ∃ outs' s', run (Turn.exec c) [.bread p k, .acquire p, .ideintr, .wake p] s = .ok outs' s' ∧
          some (.read k (outs.foldl Event.apply disk k)) ∈ outs') ∧
    Along (Turn.exec c) (NeverRecycles c) turns (binit zero disk n) ∧
    ∀ e s, run (Turn.exec c) turns (binit zero disk n) = .error e s → Refused e s := by
  have hinv := binit_inv hdev zero disk n
  have hrun := run_coherent hinv turns
  refine ⟨fun outs s hx => ?_, along_neverRecycles hinv, fun e s hx => (wp_of_error hx).mp hrun⟩
  obtain ⟨hcoherent, h⟩ := (wp_of_ok hx).mp hrun
  exact ⟨h.consistent, hcoherent, fun p k ho => wp_noStop_iff.mp (h.bread_returns ho)⟩

/-- A block is read, changed, released and read by another caller. -/
def sampleTurns : List (Turn Nat 2) :=
  [.bread 0 5, .acquire 0, .ideintr, .wake 0, .log [] 1, .logWrite 0 7, .brelse 0, .put 0, .bread 1 5, .acquire 1,
    .bwrite 1 8, .ideintr, .wake 1, .brelse 1, .put 1]

theorem cache_coherent_sampleTurns : ∃ outs s,
    run (Turn.exec ⟨1, true, 30⟩) sampleTurns (binit 0 (fun k => k) 2) = .ok outs s ∧
      outs.reduceOption = [.read 5 5, .written 5 7, .read 5 7, .written 5 8] ∧
      Consistent ⟨1, true, 30⟩ s ∧ Coherent (fun k => k) outs := by
  obtain ⟨outs, s, hx, houts⟩ := exists_of_yields (x := run (Turn.exec ⟨1, true, 30⟩) sampleTurns)
    (s := binit 0 (fun k => k) 2)
    (P := fun outs => decide (outs.reduceOption = [.read 5 5, .written 5 7, .read 5 7, .written 5 8]))
    (by decide +kernel)
  have hall := (cache_coherent ⟨1, true, 30⟩ (by decide) 0 (fun k => k) sampleTurns).1 _ _ hx
  exact ⟨outs, s, hx, of_decide_eq_true houts, hall.1, hall.2.1⟩

end Xv6Paging.Bio
