import Xv6Paging.Fs.Inodes

/-! # `iput` of an unlinked inode, interleaved

    `iput` reads the reference count of an inode in one critical section, to decide
    whether it is to free the inode, and lowers it in a later one. Here the holders of
    the references to one inode call `iput` and their steps interleave in any way.

    The inode is never freed under another holder, and never twice. It is freed if and
    only if the holder that is the last one to read the count finds that all others have
    lowered it: two holders that have both read `2` both leave the inode alone, and it
    stays on the disk, without links and without references.
-/

namespace Xv6Paging.Blocks

open Wp Run Function

/-! ## `iput` in steps -/

/-- How far a holder of a reference is in `iput`. -/
inductive Putting where
  /-- Has not called `iput` yet, or waits for the lock of the inode. -/
  | holding
  | locked
  /-- Has read `ref` of an inode that is valid and has no links. -/
  | counted (r : Nat)
  /-- `releasesleep` comes next. -/
  | finishing
  /-- The reference is still to be given up. -/
  | owing
  | done
  deriving DecidableEq, Repr

/-- Inside of the sleep lock. -/
def Putting.inside : Putting → Bool
  | .locked | .counted _ | .finishing => true
  | _ => false

/-- Before the count is read. -/
def Putting.early : Putting → Bool
  | .holding | .locked => true
  | _ => false

/-- The file system, the owner of the sleep lock of the inode, and its `n` holders. -/
structure PutSys (n : Nat) where
  fs : State
  lock : Option (Fin n)
  pos : Fin n → Putting

variable {n : Nat}

/-- Holder `p` comes to `a`. -/
@[simps -fullyApplied]
def PutSys.move (s : PutSys n) (p : Fin n) (a : Putting) : PutSys n :=
  { s with pos := update s.pos p a }

/-- What holder `p` of inode `i` does next; returns whether the inode was freed. -/
def putFrom (i : Nat) (p : Fin n) : Putting → EStateM Stop (PutSys n) Bool
  | .holding => do
    let s ← get
    if s.lock = none then do
      set { s.move p .locked with lock := some p }
      pure false
    else
      pure false
  | .locked => do
    let s ← get
    if (s.fs.core i).valid = true ∧ (s.fs.core i).din.nlink = 0 then do
      set (s.move p (.counted (s.fs.core i).ref))
      pure false
    else do
      set (s.move p .finishing)
      pure false
  | .counted r =>
    if r = 1 then do
      onPart PutSys.fs (fun s fs => { s with fs := fs }) (ifree i)
      modify fun s => s.move p .finishing
      pure true
    else do
      modify fun s => s.move p .finishing
      pure false
  | .finishing => do
    modify fun s => { s.move p .owing with lock := none }
    pure false
  | .owing => do
    modify fun s =>
      { s.move p .done with fs := s.fs.setCore i { s.fs.core i with ref := (s.fs.core i).ref - 1 } }
    pure false
  | .done => pure false

/-- The next step of holder `p`. -/
def putStep (i : Nat) (p : Fin n) : EStateM Stop (PutSys n) Bool := do
  let s ← get
  putFrom i p (s.pos p)

/-- The inode has been freed: `iput` clears `valid`. -/
def PutSys.Freed (i : Nat) (s : PutSys n) : Prop := (s.fs.core i).valid = false

/-- Some holder is still to read the count. -/
def PutSys.Early (s : PutSys n) : Prop := ∃ p, (s.pos p).early = true

/-- All other holders have given up their references. -/
def PutSys.Alone (s : PutSys n) (p : Fin n) : Prop := ∀ q, q ≠ p → s.pos q = .done

/-- The inode is freed, or the holder that will free it has decided so. -/
def PutSys.Due (i : Nat) (s : PutSys n) : Prop := s.Freed i ∨ ∃ p, s.pos p = .counted 1

/-- When holder `p` is about to read the count, another holder is still to do so, or all others have
    given up their references. -/
def Careful (p : Fin n) (s : PutSys n) : Prop :=
  s.pos p = .locked → (∃ q, q ≠ p ∧ s.pos q = .holding) ∨ s.Alone p

/-- A step that frees the inode is taken by the only holder of a reference. -/
def FreesAlone (i : Nat) (p : Fin n) (s : PutSys n) : Prop :=
  ∀ s', putStep i p s = .ok true s' → (s.fs.core i).ref = 1 ∧ s.Alone p

/-- The inode has no contents and is free on the disk. -/
def Reclaimed (i : Nat) (s : PutSys n) : Prop :=
  (s.fs.dinode i).type = .free ∧ (∀ k ≤ ndirect, (s.fs.dinode i).addrs k = 0) ∧ (s.fs.dinode i).size = 0

instance (p : Fin n) (s : PutSys n) : Decidable (s.Alone p) := by
  unfold PutSys.Alone
  infer_instance

instance (p : Fin n) (s : PutSys n) : Decidable (Careful p s) := by
  unfold Careful
  infer_instance

section Sequential

variable {i : Nat} {p : Fin n} {s : PutSys n}

theorem move_self : (s.move p a).pos p = a := update_self ..

theorem putStep_eq (hp : s.pos p = a) : putStep i p s = putFrom i p a s := by
  subst hp
  rfl

/-- From `releasesleep` on. -/
theorem run_finishing (hp : s.pos p = .finishing) :
    run (putStep i) [p, p] s = .ok [false, false]
      ⟨s.fs.setCore i { s.fs.core i with ref := (s.fs.core i).ref - 1 }, none, update s.pos p .done⟩ := by
  refine run_cons (putStep_eq hp) (run_cons (putStep_eq (a := .owing) move_self) ?_)
  simp [PutSys.move, run, pure, EStateM.pure]

/-- From the check on. -/
theorem run_locked {fs : State} (hp : s.pos p = .locked) (hput : iput i s.fs = .ok () fs) :
    ∃ outs, run (putStep i) [p, p, p, p] s = .ok outs ⟨fs, none, update s.pos p .done⟩ := by
  have hiput : iput i s.fs = (if (s.fs.core i).valid = true ∧ (s.fs.core i).din.nlink = 0 ∧ (s.fs.core i).ref = 1
      then do
        ifree i
        modify fun s => s.setCore i { s.core i with ref := (s.core i).ref - 1 }
      else modify fun s => s.setCore i { s.core i with ref := (s.core i).ref - 1 } : B Unit) s.fs := rfl
  by_cases hc : (s.fs.core i).valid = true ∧ (s.fs.core i).din.nlink = 0
  · have hcount : putStep i p s = .ok false (s.move p (.counted (s.fs.core i).ref)) :=
      (putStep_eq hp).trans (congrFun (if_pos hc) s)
    have hstep := putStep_eq (i := i) (s := s.move p (.counted (s.fs.core i).ref)) move_self
    by_cases hr : (s.fs.core i).ref = 1
    · rw [hiput, if_pos ⟨hc.1, hc.2, hr⟩] at hput
      obtain ⟨_, fs1, hfree, hdec⟩ := bind_eq_ok.mp hput
      cases hdec
      have hpart : onPart PutSys.fs (fun s fs => { s with fs := fs }) (ifree i)
          (s.move p (.counted (s.fs.core i).ref)) =
            .ok () ⟨fs1, s.lock, update s.pos p (.counted (s.fs.core i).ref)⟩ := by
        simp [onPart, PutSys.move, hfree]
      rw [putFrom, if_pos hr, bind_ok hpart] at hstep
      refine ⟨[false, true, false, false], run_cons hcount (run_cons hstep ((run_finishing move_self).trans ?_))⟩
      simp [PutSys.move]
    · rw [hiput, if_neg fun h => hr h.2.2] at hput
      cases hput
      rw [putFrom, if_neg hr] at hstep
      refine ⟨[false, false, false, false], run_cons hcount (run_cons hstep ((run_finishing move_self).trans ?_))⟩
      simp [PutSys.move]
  · -- Nothing is counted, and the last of the steps finds the holder done.
    rw [hiput, if_neg fun h => hc ⟨h.1, h.2.1⟩] at hput
    cases hput
    have hskip : putStep i p s = .ok false (s.move p .finishing) :=
      (putStep_eq hp).trans (congrFun (if_neg hc) s)
    refine ⟨[false, false, false, false], run_cons hskip (run_snoc (run_finishing move_self) ?_)⟩
    rw [putStep_eq (a := .done) (by simp)]
    simp [putFrom, PutSys.move, pure, EStateM.pure]

/-- The steps of one holder without interruption are `iput`. -/
theorem putSteps_eq {fs : State} (hp : s.pos p = .holding) (hl : s.lock = none)
    (hput : iput i s.fs = .ok () fs) :
    ∃ outs, run (putStep i) [p, p, p, p, p] s = .ok outs ⟨fs, none, update s.pos p .done⟩ := by
  have hlock : putStep i p s = .ok false { s.move p .locked with lock := some p } := by
    rw [putStep_eq hp]
    exact congrFun (if_pos hl) s
  obtain ⟨outs, hrun⟩ := run_locked (s := { s.move p .locked with lock := some p }) move_self hput
  refine ⟨false :: outs, run_cons hlock (hrun.trans ?_)⟩
  simp [PutSys.move]

end Sequential

/-! ## The invariant -/

structure PutInv (sb : Super) (i : Nat) (s : PutSys n) : Prop where
  fs : Inv sb s.fs
  /-- Every holder has one reference until it is done. -/
  refs : (s.fs.core i).ref = (Finset.univ.filter fun p => s.pos p ≠ .done).card
  lock : ∀ p, (s.pos p).inside = true ↔ s.lock = some p
  unlinked : ¬ s.Freed i → (s.fs.core i).din.nlink = 0
  last : ∀ p, s.pos p = .counted 1 → s.Alone p
  freed : s.Freed i → (s.fs.dinode i).type = .free ∧
    ∃ p, s.Alone p ∧ (s.pos p = .finishing ∨ s.pos p = .owing ∨ s.pos p = .done)

section Step

variable {sb : Super} {i : Nat} {s : PutSys n} {p q : Fin n} {a : Putting}

theorem move_of_ne (h : q ≠ p) : (s.move p a).pos q = s.pos q := update_of_ne h ..

/-- References do not change while a holder stays one. -/
theorem refs_move (hp : s.pos p ≠ .done) (ha : a ≠ .done) :
    (Finset.univ.filter fun q => (s.move p a).pos q ≠ .done) =
      Finset.univ.filter fun q => s.pos q ≠ .done := by
  refine Finset.filter_congr fun q _ => ?_
  by_cases hq : q = p
  · subst hq
    simp [hp, ha]
  · rw [move_of_ne hq]

theorem refs_done (hp : s.pos p ≠ .done) :
    (Finset.univ.filter fun q => (s.move p .done).pos q ≠ .done).card + 1 =
      (Finset.univ.filter fun q => s.pos q ≠ .done).card := by
  have herase : (Finset.univ.filter fun q => (s.move p .done).pos q ≠ .done) =
      (Finset.univ.filter fun q => s.pos q ≠ .done).erase p := by
    ext q
    by_cases hq : q = p
    · subst hq
      simp
    · simp [hq]
  rw [herase]
  exact Finset.card_erase_add_one (by simp [hp])

theorem alone_move (h : s.Alone p) : (s.move p a).Alone p := by
  intro q hq
  rw [move_of_ne hq]
  exact h q hq

/-- With one reference left, its holder is alone. -/
theorem PutInv.alone_iff (h : PutInv sb i s) (hp : s.pos p ≠ .done) :
    s.Alone p ↔ (s.fs.core i).ref = 1 := by
  rw [h.refs, Finset.card_eq_one]
  constructor
  · intro halone
    refine ⟨p, ?_⟩
    ext q
    by_cases hq : q = p
    · subst hq
      simp [hp]
    · simp [hq, halone q hq]
  · rintro ⟨r, hr⟩ q hq
    have hmem : ∀ x, s.pos x ≠ .done → x = r := by
      intro x hx
      have : x ∈ Finset.univ.filter fun q => s.pos q ≠ .done := by simp [hx]
      rw [hr] at this
      exact Finset.mem_singleton.mp this
    by_contra hne
    exact hq ((hmem q hne).trans (hmem p hp).symm)

/-- While a holder is early, the inode has not been freed. -/
theorem PutInv.not_freed (h : PutInv sb i s) (hp : (s.pos p).early = true) : ¬ s.Freed i := by
  intro hf
  obtain ⟨_, q, halone, hq⟩ := h.freed hf
  by_cases hpq : p = q
  · subst hpq
    rcases hq with hq | hq | hq <;> simp [hq, Putting.early] at hp
  · simp [halone p hpq, Putting.early] at hp

/-- Holders other than the owner of the lock are outside. -/
theorem PutInv.outside (h : PutInv sb i s) (hp : (s.pos p).inside = true) (hq : q ≠ p) :
    (s.pos q).inside = false := by
  by_contra hin
  have hlock := (h.lock p).mp hp
  rw [(h.lock q).mp (by simpa using hin)] at hlock
  exact hq (Option.some.inj hlock)

/-- The owner of the lock stays inside. -/
theorem PutInv.lock_inside (h : PutInv sb i s) (hp : (s.pos p).inside = true) (ha : a.inside = true) (r : Fin n) :
    ((s.move p a).pos r).inside = true ↔ s.lock = some r := by
  by_cases hr : r = p
  · subst hr
    rw [move_self, ha, ← h.lock r, hp]
  · rw [move_of_ne hr]
    exact h.lock r

/-- A holder outside stays outside. -/
theorem PutInv.lock_outside (h : PutInv sb i s) (hp : (s.pos p).inside = false) (ha : a.inside = false) (r : Fin n) :
    ((s.move p a).pos r).inside = true ↔ s.lock = some r := by
  by_cases hr : r = p
  · subst hr
    rw [move_self, ha, ← h.lock r, hp]
  · rw [move_of_ne hr]
    exact h.lock r

theorem wp_ifree {s : State} (h : Inv sb s) (hv : (s.core i).valid = true) (hi : i < sb.ninodes) :
    wp (ifree i) (fun _ s' => Inv sb s' ∧ (s'.core i).ref = (s.core i).ref ∧ (s'.core i).valid = false ∧
      (s'.dinode i).type = .free) noStop s := by
  simp only [ifree, iupdate, wp_bind, wp_modify]
  refine wp_post (wp_itrunc h.own hv hi) ?_
  rintro _ s' ⟨hown, ht⟩
  obtain ⟨addrs, _, hcopy⟩ := ht.copy
  have hinv := ht.inv .free ⟨(s'.core i).ref, false, { (s'.core i).din with type := .free }⟩ h hown hv
    fun hv => nomatch hv
  refine ⟨by simpa [State.setDin, State.setCore, State.setDinode] using hinv, ?_, ?_, ?_⟩
  · simp [State.setDin, hcopy]
  · simp [State.setDin]
  · simp [State.setDin]

/-- Everything that a proof about runs needs to know about one step. -/
structure Stepped (i : Nat) (p : Fin n) (s : PutSys n) (out : Bool) (s' : PutSys n) : Prop where
  /-- The inode is freed in a step in which no other reference is left, and not a second time. -/
  frees : out = true → s.Alone p ∧ (s.fs.core i).ref = 1 ∧ ¬ s.Freed i ∧ s'.Freed i
  keeps : out = false → (s'.Freed i ↔ s.Freed i)
  /-- Another holder is still to read the count. -/
  early : s.Early → s'.Early → Careful p s
  /-- The last holder reads the count. -/
  last : s.Early → ¬ s'.Early → (Careful p s ↔ s'.Due i)
  late : ¬ s.Early → ¬ s'.Early ∧ (s'.Due i ↔ s.Due i)

theorem Careful.of_ne (h : s.pos p ≠ .locked) : Careful p s := fun hp => absurd hp h

/-- Whether a holder is early does not change when none passes the check. -/
theorem early_move (h : a.early = (s.pos p).early) : (s.move p a).Early ↔ s.Early := by
  refine exists_congr fun q => ?_
  by_cases hq : q = p
  · subst hq
    rw [move_self, h]
  · rw [move_of_ne hq]

theorem counted_move (hp : s.pos p ≠ .counted 1) (ha : a ≠ .counted 1) :
    (∃ q, (s.move p a).pos q = .counted 1) ↔ ∃ q, s.pos q = .counted 1 := by
  refine exists_congr fun q => ?_
  by_cases hq : q = p
  · subst hq
    simp [hp, ha]
  · rw [move_of_ne hq]

/-- A step other than the check, without effect on whether the inode is freed. -/
theorem Stepped.of_same {s' : PutSys n} (hp : s.pos p ≠ .locked) (hearly : s'.Early ↔ s.Early)
    (hfreed : s'.Freed i ↔ s.Freed i)
    (hcount : (∃ q, s'.pos q = .counted 1) ↔ ∃ q, s.pos q = .counted 1) : Stepped i p s false s' where
  frees := nofun
  keeps := fun _ => hfreed
  early := fun _ _ => .of_ne hp
  last := fun h h' => absurd (hearly.mpr h) h'
  late := fun h => ⟨fun h' => h (hearly.mp h'), or_congr hfreed hcount⟩

/-- A holder moves on, and stays a holder. -/
theorem PutInv.of_move {lock : Option (Fin n)} (h : PutInv sb i s) (hp : s.pos p ≠ .done) (ha : a ≠ .done)
    (hlock : ∀ r, ((s.move p a).pos r).inside = true ↔ lock = some r) (hlast : a = .counted 1 → s.Alone p)
    (hfreed : s.Freed i → a = .finishing ∨ a = .owing) : PutInv sb i { s.move p a with lock := lock } where
  fs := h.fs
  refs := h.refs.trans (congrArg Finset.card (refs_move hp ha).symm)
  lock := hlock
  unlinked := h.unlinked
  last := by
    intro r hr
    by_cases hrp : r = p
    · subst hrp
      exact alone_move (hlast (move_self.symm.trans hr))
    · exact absurd (h.last r ((move_of_ne hrp).symm.trans hr) p (Ne.symm hrp)) hp
  freed := by
    intro hf
    obtain ⟨htype, r, halone, _⟩ := h.freed hf
    obtain rfl : p = r := by
      by_contra hne
      exact hp (halone p hne)
    refine ⟨htype, p, alone_move halone, ?_⟩
    show (s.move p a).pos p = _ ∨ (s.move p a).pos p = _ ∨ _
    rw [move_self]
    exact (hfreed hf).imp_right .inl

/-- The check. -/
theorem Stepped.check (h : PutInv sb i s) (hp : s.pos p = .locked) :
    Stepped i p s false (s.move p (.counted (s.fs.core i).ref)) := by
  have hne : s.pos p ≠ .done := by
    rw [hp]
    exact nofun
  have hearly : s.Early := ⟨p, by rw [hp]; rfl⟩
  have hothers : (s.move p (.counted (s.fs.core i).ref)).Early ↔ ∃ q, q ≠ p ∧ s.pos q = .holding := by
    refine exists_congr fun q => ?_
    by_cases hq : q = p
    · subst hq
      simp [Putting.early]
    · rw [move_of_ne hq]
      have hout := h.outside (by rw [hp]; rfl) hq
      cases hpos : s.pos q <;> simp_all [Putting.early, Putting.inside]
  have hcareful : Careful p s ↔
      (∃ q, q ≠ p ∧ s.pos q = .holding) ∨ s.Alone p := ⟨fun hc => hc hp, fun hc _ => hc⟩
  refine ⟨nofun, fun _ => Iff.rfl, fun _ h' => ?_, fun _ h' => ?_, fun hnot => absurd hearly hnot⟩
  · exact hcareful.mpr (.inl (hothers.mp h'))
  · -- Nobody else is to read the count; `p` will free the inode if it is alone.
    rw [hcareful, or_iff_right (hothers.not.mp h'), h.alone_iff hne]
    constructor
    · intro href
      exact .inr ⟨p, by rw [move_self, href]⟩
    · rintro (hf | ⟨q, hq⟩)
      · exact absurd hf (h.not_freed (by rw [hp]; rfl))
      · by_cases hqp : q = p
        · subst hqp
          rw [move_self] at hq
          exact Putting.counted.inj hq
        · exact absurd (h.last q ((move_of_ne hqp).symm.trans hq) p (Ne.symm hqp)) hne

theorem stepped_free {fs : State} (h : PutInv sb i s) (hp : s.pos p = .counted 1) (hvalid : ¬ s.Freed i)
    (hfs : Inv sb fs) (href : (fs.core i).ref = (s.fs.core i).ref) (hfalse : (fs.core i).valid = false)
    (htype : (fs.dinode i).type = .free) :
    PutInv sb i ({ s with fs := fs }.move p .finishing) ∧
      Stepped i p s true ({ s with fs := fs }.move p .finishing) := by
  have hne : s.pos p ≠ .done := by
    rw [hp]
    exact nofun
  have halone := h.last p hp
  have hlate : ∀ t : PutSys n, t.Alone p → (t.pos p).early = false → ¬ t.Early := by
    rintro t ht hpt ⟨q, hq⟩
    by_cases hqp : q = p
    · subst hqp
      exact absurd (hq.symm.trans hpt) (by decide)
    · rw [ht q hqp] at hq
      exact nomatch hq
  have hafter : ({ s with fs := fs }.move p .finishing).Alone p := alone_move (s := { s with fs := fs }) halone
  refine ⟨⟨hfs, ?_, ?_, fun hf => absurd hfalse hf, ?_, fun _ => ⟨htype, p, hafter, .inl ?_⟩⟩, ?_⟩
  · exact (href.trans h.refs).trans (congrArg Finset.card (refs_move (s := s) (a := .finishing) hne nofun).symm)
  · exact h.lock_inside (by rw [hp]; rfl) rfl
  · intro r hr
    by_cases hrp : r = p
    · subst hrp
      exact nomatch move_self.symm.trans hr
    · exact nomatch (hafter r hrp).symm.trans hr
  · exact move_self
  · have hearly : ¬ s.Early := hlate s halone (by rw [hp]; rfl)
    refine ⟨fun _ => ⟨halone, (h.alone_iff hne).mp halone, hvalid, hfalse⟩, nofun, fun he => absurd he hearly,
      fun he => absurd he hearly, fun _ => ⟨hlate _ hafter (by rw [move_self]; rfl), ?_⟩⟩
    exact iff_of_true (.inl hfalse) (.inr ⟨p, hp⟩)

/-- A holder gives up its reference. -/
theorem PutInv.decrement (h : PutInv sb i s) (hp : s.pos p = .owing) : PutInv sb i
    { s.move p .done with fs := s.fs.setCore i { s.fs.core i with ref := (s.fs.core i).ref - 1 } } := by
  have hne : s.pos p ≠ .done := by
    rw [hp]
    exact nofun
  refine ⟨h.fs.setCore (h.fs.synced i), ?_, h.lock_outside (by rw [hp]; rfl) rfl, fun hf => ?_, fun r hr => ?_,
    fun hf => ?_⟩
  · have hcard := refs_done hne
    have hrefs := h.refs
    rw [State.setCore_core, update_self]
    show (s.fs.core i).ref - 1 = (Finset.univ.filter fun q => (s.move p .done).pos q ≠ .done).card
    omega
  · have hlinks := h.unlinked (by simpa [PutSys.Freed] using hf)
    simpa using hlinks
  · have hrp : r ≠ p := by
      rintro rfl
      exact nomatch move_self.symm.trans hr
    exact absurd (h.last r ((move_of_ne hrp).symm.trans hr) p (Ne.symm hrp)) hne
  · obtain ⟨htype, r, halone, _⟩ := h.freed (by simpa [PutSys.Freed] using hf)
    obtain rfl : p = r := by
      by_contra hpr
      exact hne (halone p hpr)
    exact ⟨htype, p, alone_move halone, .inr (.inr move_self)⟩

theorem wp_putStep (h : PutInv sb i s) (hi : i < sb.ninodes) :
    wp (putStep i p) (fun out s' => PutInv sb i s' ∧ Stepped i p s out s') noStop s := by
  rw [putStep, wp_bind, wp_get]
  cases hp : s.pos p with
  | holding =>
    have hne : s.pos p ≠ .done := by simp [hp]
    have hnot : s.pos p ≠ .locked := by simp [hp]
    simp only [putFrom, wp_get, wp_ite, wp_bind, wp_set, wp_pure]
    refine ⟨fun hfree => ⟨?_, ?_⟩, fun _ => ⟨h, .of_same hnot Iff.rfl Iff.rfl Iff.rfl⟩⟩
    · refine h.of_move hne (by rintro ⟨⟩) (fun r => ?_) (by rintro ⟨⟩) fun hf => absurd hf (h.not_freed (by rw [hp]; rfl))
      by_cases hr : r = p
      · subst hr
        simp [Putting.inside]
      · have hout : ¬ (s.pos r).inside = true := by
          rw [h.lock r, hfree]
          rintro ⟨⟩
        rw [move_of_ne hr]
        simp [hout, Ne.symm hr]
    · exact .of_same hnot (early_move (by rw [hp]; rfl)) Iff.rfl (counted_move (by simp [hp]) (by rintro ⟨⟩))
  | locked =>
    have hne : s.pos p ≠ .done := by simp [hp]
    have hvalid : ¬ s.Freed i := h.not_freed (by rw [hp]; rfl)
    simp only [putFrom, wp_get, wp_ite, wp_bind, wp_set, wp_pure]
    refine ⟨fun _ => ⟨?_, .check h hp⟩, fun hno => absurd ⟨?_, h.unlinked hvalid⟩ hno⟩
    · exact h.of_move hne (by rintro ⟨⟩) (h.lock_inside (by rw [hp]; rfl) rfl)
        (fun heq => (h.alone_iff hne).mpr (Putting.counted.inj heq)) fun hf => absurd hf hvalid
    · simpa [PutSys.Freed] using hvalid
  | counted r =>
    have hne : s.pos p ≠ .done := by simp [hp]
    have hnot : s.pos p ≠ .locked := by simp [hp]
    have hin : (s.pos p).inside = true := by rw [hp]; rfl
    have hvalid : ¬ s.Freed i := by
      intro hf
      obtain ⟨_, q, halone, hq⟩ := h.freed hf
      obtain rfl : p = q := by
        by_contra hpq
        exact hne (halone p hpq)
      rw [hp] at hq
      rcases hq with hq | hq | hq <;> cases hq
    simp only [putFrom, wp_ite, wp_bind, wp_pure, wp_modify, wp_onPart]
    refine ⟨fun hr => ?_, fun hr => ⟨?_, ?_⟩⟩
    · subst hr
      have halone := h.last p hp
      refine wp_post (wp_ifree h.fs (by simpa [PutSys.Freed] using hvalid) hi) ?_
      rintro _ fs ⟨hfs, href, hfalse, htype⟩
      exact stepped_free h hp hvalid hfs href hfalse htype
    · exact h.of_move hne (by rintro ⟨⟩) (h.lock_inside hin rfl) (by rintro ⟨⟩) fun _ => .inl rfl
    · exact .of_same hnot (early_move (by rw [hp]; rfl)) Iff.rfl
        (counted_move (by rw [hp]; exact fun heq => hr (Putting.counted.inj heq)) (by rintro ⟨⟩))
  | finishing =>
    have hne : s.pos p ≠ .done := by simp [hp]
    have hnot : s.pos p ≠ .locked := by simp [hp]
    simp only [putFrom, wp_bind, wp_modify, wp_pure]
    refine ⟨?_, ?_⟩
    · refine h.of_move hne (by rintro ⟨⟩) (fun r => ?_) (by rintro ⟨⟩) fun _ => .inr rfl
      by_cases hr : r = p
      · subst hr
        simp [Putting.inside]
      · rw [move_of_ne hr, h.outside (by rw [hp]; rfl) hr]
        simp
    · exact .of_same hnot (early_move (by rw [hp]; rfl)) Iff.rfl (counted_move (by simp [hp]) (by rintro ⟨⟩))
  | owing =>
    simp only [putFrom, wp_bind, wp_modify, wp_pure]
    refine ⟨h.decrement hp, .of_same (by simp [hp]) (early_move (by rw [hp]; rfl)) ?_
      (counted_move (by simp [hp]) (by rintro ⟨⟩))⟩
    simp [PutSys.Freed]
  | done => exact ⟨h, .of_same (by simp [hp]) Iff.rfl Iff.rfl Iff.rfl⟩

end Step

/-! ## Runs -/

section Runs

variable {sb : Super} {i : Nat} {s : PutSys n} {turns : List (Fin n)}

/-- Everybody has a reference to an inode without links, and is about to give it up. -/
structure Started (sb : Super) (i : Nat) (s : PutSys n) : Prop where
  fs : Inv sb s.fs
  number : i < sb.ninodes
  pos : ∀ p, s.pos p = .holding
  lock : s.lock = none
  refs : (s.fs.core i).ref = n
  held : 0 < n
  valid : (s.fs.core i).valid = true
  unlinked : (s.fs.core i).din.nlink = 0

theorem Started.inv (h : Started sb i s) : PutInv sb i s where
  fs := h.fs
  refs := by simp [h.pos, h.refs]
  lock := fun p => by simp [h.pos, h.lock, Putting.inside]
  unlinked := fun _ => h.unlinked
  last := fun p hp => nomatch (h.pos p).symm.trans hp
  freed := fun hf => nomatch h.valid.symm.trans hf

theorem Started.early (h : Started sb i s) : s.Early := ⟨⟨0, h.held⟩, by rw [h.pos]; rfl⟩

/-- When nobody is early, nobody reads the count any more. -/
theorem along_late (h : PutInv sb i s) (hi : i < sb.ninodes) (hl : ¬ s.Early) :
    Along (putStep i) Careful turns s := by
  induction turns generalizing s with
  | nil => trivial
  | cons p turns ih =>
    obtain ⟨out, s1, hx, h1, hstep⟩ := wp_noStop_iff.mp (wp_putStep (p := p) h hi)
    refine ⟨.of_ne fun hp => hl ⟨p, by rw [hp]; rfl⟩, ?_⟩
    rw [hx]
    exact ih h1 (hstep.late hl).1

/-- How often the inode is freed, and when. -/
theorem run_puts (h : PutInv sb i s) (hi : i < sb.ninodes) (turns : List (Fin n)) : ∃ outs s',
    run (putStep i) turns s = .ok outs s' ∧ PutInv sb i s' ∧
    outs.count true + (if (s.fs.core i).valid = true then 0 else 1) = (if (s'.fs.core i).valid = true then 0 else 1) ∧
    ((∀ p, s'.pos p = .done) → (s.Early → (s'.Freed i ↔ Along (putStep i) Careful turns s)) ∧
      (¬ s.Early → (s'.Freed i ↔ s.Due i))) := by
  -- While somebody is early, the rest of the run decides; afterwards, it is known.
  induction turns generalizing s with
  | nil =>
    refine ⟨[], s, rfl, h, by simp, fun hdone => ⟨fun he => ?_, fun _ => ?_⟩⟩
    · obtain ⟨p, hp⟩ := he
      rw [hdone p] at hp
      exact nomatch hp
    · refine ⟨.inl, fun hdue => hdue.elim id ?_⟩
      rintro ⟨p, hp⟩
      exact nomatch (hdone p).symm.trans hp
  | cons p turns ih =>
    obtain ⟨out, s1, hx, h1, hstep⟩ := wp_noStop_iff.mp (wp_putStep (p := p) h hi)
    obtain ⟨outs, s', hrun, h', hcount, hfinal⟩ := ih h1
    refine ⟨out :: outs, s', run_cons hx hrun, h', ?_, fun hdone => ?_⟩
    · rw [List.count_cons, ← hcount]
      cases out with
      | true =>
        obtain ⟨_, _, hbefore, hafter⟩ := hstep.frees rfl
        have hvalid : (s.fs.core i).valid = true := by simpa [PutSys.Freed] using hbefore
        have hinvalid : (s1.fs.core i).valid = false := hafter
        simp [hvalid, hinvalid]
      | false =>
        have hsame : (s1.fs.core i).valid = false ↔ (s.fs.core i).valid = false := hstep.keeps rfl
        have hvalid : (s1.fs.core i).valid = (s.fs.core i).valid := by
          cases hv : (s.fs.core i).valid <;> simp_all
        simp [hvalid]
    · obtain ⟨hearly, hlate⟩ := hfinal hdone
      refine ⟨fun he => ?_, fun hl => ?_⟩
      · rw [along_cons_ok hx]
        by_cases he1 : s1.Early
        · rw [hearly he1]
          exact ⟨fun hrest => ⟨hstep.early he he1, hrest⟩, fun hboth => hboth.2⟩
        · have hrest : Along (putStep i) Careful turns s1 := along_late h1 hi he1
          rw [hlate he1, hstep.last he he1]
          exact ⟨fun hdue => ⟨hdue, hrest⟩, fun hboth => hboth.1⟩
      · obtain ⟨hl1, hdue⟩ := hstep.late hl
        rw [hlate hl1, hdue]

/-- Nobody else has a reference when the inode is freed. -/
theorem along_freesAlone (h : PutInv sb i s) (hi : i < sb.ninodes) : Along (putStep i) (FreesAlone i) turns s := by
  induction turns generalizing s with
  | nil => trivial
  | cons p turns ih =>
    obtain ⟨out, s1, hx, h1, hstep⟩ := wp_noStop_iff.mp (wp_putStep (p := p) h hi)
    refine (along_cons_ok hx).mpr ⟨fun s' hx' => ?_, ih h1⟩
    rw [hx] at hx'
    cases hx'
    obtain ⟨halone, href, _, _⟩ := hstep.frees rfl
    exact ⟨href, halone⟩

/-- The reference count is `0` when all holders are done. -/
theorem PutInv.done (h : PutInv sb i s) (href : (s.fs.core i).ref = 0) (p : Fin n) : s.pos p = .done := by
  by_contra hne
  rw [h.refs, Finset.card_eq_zero] at href
  exact (Finset.filter_eq_empty_iff.mp href (Finset.mem_univ p)) hne

end Runs

/-- Whatever the order of their steps, `n` holders that put an inode without links never free it while
    another reference is left. When no reference is left, the inode has been freed exactly once if and
    only if the holder that was last to read the count found that all others had given up theirs. -/
theorem last_iput_frees_iff (sb : Super) (i : Nat) (s : PutSys n) (h : Started sb i s) (turns : List (Fin n)) :
    ∃ outs s', run (putStep i) turns s = .ok outs s' ∧ Along (putStep i) (FreesAlone i) turns s ∧
      ((s'.fs.core i).ref = 0 →
        ((outs.count true = 1 ∧ Reclaimed i s') ↔ Along (putStep i) Careful turns s)) := by
  obtain ⟨outs, s', hrun, h', hcount, hfinal⟩ := run_puts h.inv h.number turns
  refine ⟨outs, s', hrun, along_freesAlone h.inv h.number, fun href => ?_⟩
  rw [← (hfinal (h'.done href)).1 h.early]
  rw [if_pos h.valid] at hcount
  constructor
  · intro honce
    by_contra hvalid
    rw [if_pos (by simpa [PutSys.Freed] using hvalid)] at hcount
    omega
  · intro hfreed
    rw [if_neg (by rw [hfreed]; decide)] at hcount
    have htype := (h'.freed hfreed).1
    exact ⟨hcount, htype, h'.fs.freed i h.number htype⟩

/-! ### Two holders -/

/-- Create a file with two references and no links. -/
def unlinkedFile : List BlockOp := [.ialloc .file, .iget 2, .writei 2 (fun _ => 7) 0 6500, .setNlink 2 0]

@[irreducible]
def unlinkedState : State := final (run (BlockOp.exec smallSuper) unlinkedFile) smallImage

def twoHolders : PutSys 2 where
  fs := unlinkedState
  lock := none
  pos := fun _ => .holding

/-- The calls before keep the invariant. -/
theorem inv_final {sb : Super} {ops : List BlockOp} {fs : State} (h : Inv sb fs)
    (hops : Along (BlockOp.exec sb) (BlockOp.Promised sb) ops fs)
    (hr : returns (run (BlockOp.exec sb) ops) fs = true) : Inv sb (final (run (BlockOp.exec sb) ops) fs) := by
  have hrun := wp_invariant (fun _ _ hs hop => exec_inv hs hop) h hops
  exact final_of_wp hrun hr

theorem unlinkedState_inv : Inv smallSuper unlinkedState := by
  unfold unlinkedState
  exact inv_final smallImage_wellFormed.inv (by decide +kernel) (by decide +kernel)

theorem unlinkedState_core : (unlinkedState.core 2).ref = 2 ∧ (unlinkedState.core 2).valid = true ∧
    (unlinkedState.core 2).din.nlink = 0 := by
  decide +kernel

theorem twoHolders_started : Started smallSuper 2 twoHolders where
  fs := unlinkedState_inv
  number := by decide
  pos := fun _ => rfl
  lock := rfl
  refs := unlinkedState_core.1
  held := by decide
  valid := unlinkedState_core.2.1
  unlinked := unlinkedState_core.2.2

/-- One after the other, they free the file. -/
theorem last_iput_frees_iff_twoHolders : ∃ outs s',
    run (putStep 2) [0, 0, 0, 0, 0, 1, 1, 1, 1, 1] twoHolders = .ok outs s' ∧ (s'.fs.core 2).ref = 0 ∧
      outs.count true = 1 ∧ Reclaimed 2 s' := by
  obtain ⟨outs, s', hrun, _, hiff⟩ :=
    last_iput_frees_iff smallSuper 2 twoHolders twoHolders_started [0, 0, 0, 0, 0, 1, 1, 1, 1, 1]
  obtain ⟨outs', t, ht, href⟩ := exists_of_endsIn
    (x := run (putStep 2) [0, 0, 0, 0, 0, 1, 1, 1, 1, 1]) (s := twoHolders)
    (P := fun s => decide ((s.fs.core 2).ref = 0)) (by decide +kernel)
  rw [hrun] at ht
  cases ht
  have hzero := of_decide_eq_true href
  exact ⟨outs, s', hrun, hzero, (hiff hzero).mpr (by decide +kernel)⟩

/-- If both read the count before either gives up its reference, the file is never freed. -/
theorem unlinked_inode_lost : ∃ outs s',
    run (putStep 2) [0, 0, 0, 0, 1, 1, 1, 1, 0, 1] twoHolders = .ok outs s' ∧ (s'.fs.core 2).ref = 0 ∧
      (s'.fs.dinode 2).nlink = 0 ∧ (s'.fs.dinode 2).type = .file ∧ ¬ Reclaimed 2 s' := by
  obtain ⟨outs, s', hrun, hfacts⟩ := exists_of_endsIn
    (x := run (putStep 2) [0, 0, 0, 0, 1, 1, 1, 1, 0, 1]) (s := twoHolders)
    (P := fun s => decide ((s.fs.core 2).ref = 0 ∧ (s.fs.dinode 2).nlink = 0 ∧ (s.fs.dinode 2).type = .file))
    (by decide +kernel)
  obtain ⟨href, hnlink, htype⟩ := of_decide_eq_true hfacts
  refine ⟨outs, s', hrun, href, hnlink, htype, fun h => ?_⟩
  exact nomatch htype.symm.trans h.1

end Xv6Paging.Blocks
