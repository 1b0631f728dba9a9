import Xv6Paging.Fs.LogSpace

/-! # Power failures in a running system (`log.c`)

    Power may fail at any step of any process. Recovery restores what the last commit has
    left, or what readers found at the commit in progress. No operation is open at a commit,
    so that none is restored in part.
-/

namespace Xv6Paging.Log

open Wp Positions Function

variable {lay : Layout} {s s' : State} {bs : List Nat}

/-! ## What a commit leaves in memory -/

/-- But for the blocks `bs`, the disk holds what readers find. -/
def Flushed (lay : Layout) (bs : List Nat) (s : State) : Prop :=
  Coherent s ∧ ∀ b, ¬ lay.area b → b ∉ bs → s.view b = s.disk b

theorem Flushed.writes {data : Block} (h : Flushed lay (b :: bs) s) (hw : Writes b data s s') :
    Flushed lay bs s' := by
  refine ⟨hw.coherent, fun b' hb hnot => ?_⟩
  rw [hw.view, hw.disk]
  by_cases he : b' = b
  · rw [he, update_self, update_self]
  · rw [update_of_ne he, update_of_ne he]
    exact h.2 b' hb (List.not_mem_cons_of_ne_of_not_mem he hnot)

theorem Flushed.installFrom {tail : Nat} (h : Flushed lay bs s) :
    wp (installFrom lay tail bs) (fun _ s' => Flushed lay [] s') anyStop s := by
  induction bs generalizing s tail with
  | nil => exact h
  | cons b bs ih =>
    unfold Log.installFrom
    rw [wp_bind]
    refine wp_bread h.1 _ fun s1 h1 _ => ?_
    rw [wp_bind]
    refine wp_bread h1.coherent _ fun s2 h2 _ => ?_
    rw [wp_bind]
    -- The block that is written leaves the list of those that differ.
    refine wp_bwrite h2.coherent _ (fun s3 h3 => ih (Flushed.writes ⟨h2.coherent, ?_⟩ h3)) trivial
    rw [h2.view, h1.view, h2.disk, h1.disk]
    exact h.2

theorem Flushed.writeHead (h : Flushed lay bs s) :
    wp (writeHead lay) (fun _ s' => Flushed lay bs s' ∧ s'.lh = s.lh) anyStop s :=
  wp_writeHead h.1 _ (fun _ hw => ⟨Flushed.writes ⟨h.1, fun b hb hnot =>
    h.2 b hb fun hin => hnot (List.mem_cons_of_mem _ hin)⟩ hw, hw.lh⟩) fun _ _ => trivial

theorem Ready.commit {old : Disk} (h : Ready lay old s) :
    wp (commit lay) (fun _ s' => Flushed lay [] s') anyStop s := by
  have hrest : ∀ b, ¬ lay.area b → b ∉ s.lh → s.view b = s.disk b := fun b hb hnot =>
    (h.rest b hb hnot).trans (h.disk.home b hb).symm
  simp only [Log.commit, writeLog, installTrans, wp_bind, wp_get, wp_ite, wp_modify, wp_pure]
  refine ⟨fun _ => ?_, fun hnil => ⟨h.coherent, ?_⟩⟩
  · refine wp_mono (wp_writeLogFrom 0 h.coherent (by simpa using h.fits.length) h.fits.home) ?_ fun _ _ _ => trivial
    rintro _ s1 ⟨hc1, hlh1, hsame1, -⟩
    have h1 : Flushed lay s.lh s1 := by
      refine ⟨hc1, fun b hb hnot => ?_⟩
      have hlog : ∀ i < s.lh.length, b ≠ lay.start + (0 + i) + 1 := by
        rintro i hi rfl
        exact hb (h.fits.logBlock (by omega))
      rw [(hsame1 b hlog).1, (hsame1 b hlog).2, hrest b hb hnot]
    refine wp_post h1.writeHead ?_
    rintro _ s2 ⟨h2, hlh2⟩
    rw [hlh2, hlh1]
    refine wp_post h2.installFrom fun _ s3 h3 => ?_
    exact wp_post (Flushed.writeHead (s := s3.setLh []) h3) fun _ _ h4 => h4.1
  · rw [← List.length_eq_zero_iff.mp (Nat.eq_zero_of_not_pos hnil)]
    exact hrest

/-! ## Steps of a running system -/

/-- However often power fails again, in the end the log is empty and the home blocks hold `home`. -/
def Restores (home d : Disk) : Prop := ∀ d', Recovers mkfsLayout d d' → Empty mkfsLayout home d'

/-- What is in force after a step: a commit puts in force what readers find. -/
def LogStep.settles (st : LogStep) (r : Option Stage) (s : State) : Disk :=
  match st, r with
  | .commit, some .toCommit => s.view
  | _, _ => s.disk

/-- What readers find after a step. -/
def LogStep.writes (st : LogStep) (r : Option Stage) (s : State) : Disk :=
  match st, r with
  | .logAppend, some (.logging _ b data) => update s.view b data
  | _, _ => s.view

/-- The block that is logged is not in the log area. -/
def LogStep.atHome (st : LogStep) (r : Option Stage) : Bool :=
  match st, r with
  | .logAppend, some (.logging _ b _) => !decide (mkfsLayout.area b)
  | _, _ => true

/-- A step, and what a crash at any of its writes leaves. -/
def LogStep.Atomic (st : LogStep) (r : Option Stage) (s : State) : Prop :=
  wp (st.step mkfsLayout r)
    (fun _ s' => Ready mkfsLayout s'.disk s' ∧ Empty mkfsLayout (st.settles r s) s'.disk ∧
      ∀ b, ¬ mkfsLayout.area b → s'.view b = st.writes r s b)
    (fun e s' => e = .crash ∧ (Restores s.disk s'.disk ∨ Restores (st.settles r s) s'.disk)) s

theorem LogStep.step_atomic {rest : List (Nat × Stage)} (st : LogStep)
    (hroom : Room s (entry p r ++ rest)) (h : Ready mkfsLayout s.disk s) (hhome : st.atHome r = true) :
    st.Atomic r s := by
  have hsame : ∀ n c, Ready mkfsLayout s.disk { s with outstanding := n, committing := c } ∧
      Empty mkfsLayout s.disk s.disk ∧ ∀ b, ¬ mkfsLayout.area b → s.view b = s.view b :=
    fun n c => ⟨⟨h.coherent, h.fits, h.disk, h.rest⟩, h.disk, fun _ _ => rfl⟩
  have hidle := hsame s.outstanding s.committing
  have hfull : ¬ (logsize ≤ s.lh.length ∨ mkfsLayout.size - 1 ≤ s.lh.length) := by
    have hspace : s.lh.length + _ ≤ 28 := hroom.space
    simp only [logsize, mkfsLayout]
    omega
  unfold LogStep.Atomic
  cases r with
  | none =>
    cases st with
    | beginOp =>
      simp only [LogStep.step, Log.beginOp, wp_bind, wp_get, wp_ite, wp_pure, wp_set]
      exact ⟨fun _ => hidle, fun _ => ⟨fun _ => hidle, fun _ => hsame _ _⟩⟩
    | _ => exact hidle
  | some stage =>
    cases stage with
    | running logged =>
      cases st with
      | logCheck b data =>
        have hin := not_lt.mpr (Room.check hroom).2
        simp only [LogStep.step, Log.logCheck, wp_bind, wp_get, wp_ite, wp_throw, wp_pure]
        exact ⟨fun hf => absurd hf hfull, fun _ => ⟨fun ho => absurd ho hin, fun _ => hidle⟩⟩
      | endOp =>
        have hc := hroom.committing_eq rfl
        simp only [LogStep.step, Log.endOp, wp_bind, wp_get, wp_ite, wp_throw, wp_pure, wp_set, wp_modify, hc]
        exact ⟨fun hc' => (Bool.false_ne_true hc').elim, fun _ => ⟨fun _ => hsame _ _, fun _ => hsame _ _⟩⟩
      | _ => exact hidle
    | logging logged b data =>
      cases st with
      | logAppend =>
        have hout : s.outstanding = 1 + _ := hroom.outstanding
        have hlog := h.logWrite (u := (b, data)) (by simpa [LogStep.atHome] using hhome)
        simp only [Update.exec, logWrite, Log.logCheck, wp_bind, wp_get, wp_ite, wp_throw, wp_pure] at hlog
        obtain ⟨hready, hview⟩ := (hlog.2 hfull).2 (by omega)
        exact ⟨hready, h.disk, fun b _ => congrFun hview b⟩
      | _ => exact hidle
    | toCommit =>
      cases st with
      | commit =>
        -- The only step that writes, and so the only one in which power can fail.
        simp only [LogStep.step, wp_bind, wp_pure]
        refine wp_mono (wp_and (wp_and (wp_commit h) h.commit) (commit_empties s)) ?_ ?_
        · rintro _ s' ⟨⟨hnew, hflush⟩, hlh, -⟩
          have hview := fun b hb => hflush.2 b hb List.not_mem_nil
          refine ⟨⟨hflush.1, ?_, ⟨hnew.header, fun _ _ => rfl⟩, fun b hb _ => hview b hb⟩, hnew,
            fun b hb => (hview b hb).trans (hnew.home b hb)⟩
          rw [hlh]
          exact ⟨by decide, by simp⟩
        · rintro e s' ⟨he, hold | hnew⟩
          · exact ⟨he, .inl fun d' hd => hd.empty (by decide) hold⟩
          · exact ⟨he, .inr fun d' hd => hd.committed h.fits hnew⟩
      | _ => exact hidle
    | committed =>
      cases st with
      | endCommit => exact hsame _ _
      | _ => exact hidle

/-- Whatever processes do, and whenever power fails: recovery restores what the last commit has put
    in force or what the commit in progress does, at which no operation is open. -/
theorem group_commit_atomic (s : LogSys) (turns : List LogTurn) (hstart : s.Start)
    (hclean : Clean mkfsLayout s.log) (hok : Run.Along (LogTurn.exec mkfsLayout)
      (fun t s => t.Within (maxopblocks - 1) s ∧ t.2.atHome (s.procs.lookup t.1) = true) turns s) :
    Run.Along (LogTurn.exec mkfsLayout) (fun t s => s.CommitsAlone ∧ Restores s.log.disk s.log.disk ∧
      t.2.Atomic (s.procs.lookup t.1) s.log) turns s := by
  have hatomic : ∀ (t : LogTurn) (s : LogSys), s.Inv ∧ Ready mkfsLayout s.log.disk s.log →
      t.2.atHome (s.procs.lookup t.1) = true → t.2.Atomic (s.procs.lookup t.1) s.log := fun t s h =>
    t.2.step_atomic (h.1.room.perm (perm_place h.1.distinct t.1)) h.2
  refine Run.Along.of_invariant (fun t s h ht => ?_) (fun t s h ht => ⟨h.1.commitsAlone,
    fun d' hd => hd.empty (by decide) h.2.disk, hatomic t s h ht.2⟩) ⟨hstart.inv, hclean.ready⟩ hok
  have hready : wp (t.exec mkfsLayout) (fun _ s' => Ready mkfsLayout s'.log.disk s'.log) anyStop s := by
    unfold LogTurn.exec
    rw [wp_bind, wp_get, wp_bind, wp_onPart]
    exact wp_mono (hatomic t s h ht.2) (fun _ _ h' => h'.1) fun _ _ _ => trivial
  exact wp_mono (wp_and (t.exec_inv s h.1 ht.1) hready) (fun _ _ h' => h') fun _ _ _ => trivial

theorem group_commit_atomic_threeWriters :
    Run.Along (LogTurn.exec mkfsLayout) (fun t s => s.CommitsAlone ∧ Restores s.log.disk s.log.disk ∧
      t.2.Atomic (s.procs.lookup t.1) s.log) (threeWriters 9 ++ threeEnds) idleSys :=
  group_commit_atomic idleSys _ ⟨rfl, rfl, rfl, rfl⟩
    ⟨by decide, (reboot_coherent _ _ _).1, rfl, rfl, rfl⟩ (by decide +kernel)

end Xv6Paging.Log
