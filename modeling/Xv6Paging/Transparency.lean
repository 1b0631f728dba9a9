import Xv6Paging.Process

/-! # Paging is transparent

    Runs of a process that has just been `exec`ed, as long as it does not shrink,
    return what they would return on a flat memory: the image followed by zeros.
    The simulation relation says that the process sees the flat memory
    (`Machine.view`), wherever its pages are.
-/

namespace Xv6Paging

open Wp Run

variable {c : Config} {p : Nat} {s : Space}

/-- The process sees the flat memory `mem`. -/
def Sees (c : Config) (p : Nat) (mem : Nat → UInt8) (m : Machine) : Prop :=
  ∃ s : Space, s.machine = m ∧ Running c p s ∧ s.Private p ∧
    ∀ a, vpn a < nuserPages → m.view p a = mem a

/-- An operation allowed in a run without shrinks. -/
def Op.Growing (c : Config) (p : Nat) (op : Op) (m : Machine) : Prop := op.Allowed c p m ∧ op.Grows

instance (c : Config) (p : Nat) (op : Op) (m : Machine) : Decidable (op.Growing c p m) :=
  inferInstanceAs (Decidable (_ ∧ _))

/-- What an operation does to a flat memory depends on the user half only. -/
theorem flatStep_congr {mem mem' : Nat → UInt8} {op : Op} (hs : Running c p s)
    (hok : op.Allowed c p s.machine) (hmem : ∀ a, vpn a < nuserPages → mem a = mem' a) :
    (flatStep mem op).1 = (flatStep mem' op).1 ∧
      ∀ a, vpn a < nuserPages → (flatStep mem op).2 a = (flatStep mem' op).2 a := by
  cases op with
  | load va =>
    obtain ⟨i, hi, hkey⟩ := hs.tracked hok.1
    have hv := lt_nuserPages (hs.paged.records.page_lt hi hkey)
    exact ⟨congrArg some (hmem va hv), hmem⟩
  | store va b =>
    refine ⟨rfl, fun a ha => ?_⟩
    simp only [flatStep, Function.update_apply, hmem a ha]
  | grow n => exact ⟨rfl, hmem⟩
  | setA v => exact ⟨rfl, hmem⟩

/-- One operation of a process that shares no page. -/
theorem Op.exec_sees {op : Op} {mem : Nat → UInt8} (hpages : c.pages p)
    (hfuel : 2 * maxTotalPages ≤ c.fuel) (h : Sees c p mem m) (hok : op.Growing c p m) :
    wp (op.exec c p) (fun out m' => out = (flatStep mem op).1 ∧ Sees c p (flatStep mem op).2 m') noStop m := by
  obtain ⟨s, rfl, hs, hpriv, hview⟩ := h
  obtain ⟨hout, hmem⟩ := flatStep_congr hs hok.1 hview
  refine wp_mono (Op.exec_step hs hpages hfuel hok.1) ?_ ?_
  · rintro out m' ⟨s', rfl, hst⟩
    refine ⟨hst.out_eq.trans hout, s', rfl, hst.running, hst.keepsPrivate hpriv, fun a ha => ?_⟩
    rw [hst.view_eq hok.2 a ha, hmem a ha]
  · rintro e m' ⟨-, hno⟩
    exact hno hpriv

/-- A run of loads, stores and growths of a freshly `exec`ed process reaches no
    panic, and its loads return what they return on a flat memory. -/
theorem paging_transparent {ops : List Op} (hpages : c.pages p) (hfuel : 2 * maxTotalPages ≤ c.fuel)
    (hfresh : Fresh c p s) (hops : Along (Op.exec c p) (Op.Growing c p) ops s.machine) :
    ∃ m', run (Op.exec c p) ops s.machine =
      .ok (specRun flatStep (s.machine.image p) ops) m' := by
  have hsees : Sees c p (s.machine.image p) s.machine :=
    ⟨s, rfl, hfresh.running, hfresh.isPrivate, fun a ha => hfresh.view_eq ha⟩
  have hwp : wp (run (Op.exec c p) ops)
      (fun outs _ => outs = specRun flatStep (s.machine.image p) ops) noStop s.machine :=
    wp_simulates (fun op mem m hm hok => Op.exec_sees hpages hfuel hm hok) hsees hops
  obtain ⟨outs, m', hrun, rfl⟩ := wp_noStop_iff.mp hwp
  exact ⟨m', hrun⟩

/-- The process writes to its code page and to a new page, grows until both have
    gone out, and reads them, and a byte that was never written. -/
def sampleLoads : List Op :=
  [.store 5 7, .grow (13 * 4096), .store (3 * 4096) 9, .setA 0, .grow (16 * 4096), .load 5,
    .load (3 * 4096), .load 17000]

theorem sampleLoads_growing : Along (Op.exec (sampleConfig .SCFIFO) 3)
    (Op.Growing (sampleConfig .SCFIFO) 3) sampleLoads (sample (sampleConfig .SCFIFO) 20) := by
  decide +kernel

theorem paging_transparent_sample : ∃ m', run (Op.exec (sampleConfig .SCFIFO) 3) sampleLoads
    (sample (sampleConfig .SCFIFO) 20) =
      .ok [none, none, none, none, none, some 7, some 9, some 0] m' := by
  have h := paging_transparent (s := sampleSpace (sampleConfig .SCFIFO) 20) (by decide) (by decide)
    (sample_fresh .SCFIFO (by decide)) sampleLoads_growing
  have hspec : specRun flatStep ((sampleSpace (sampleConfig .SCFIFO) 20).machine.image 3)
      sampleLoads = [none, none, none, none, none, some 7, some 9, some 0] := by decide +kernel
  rwa [hspec] at h

end Xv6Paging
