import Accumulator.Proofs.PostMortem

/-!
# Runs that are run again

A run that is not cut off stops in front of what stopped it, with a core that calls for its outcome
(`fate_resume`). A new run from there finds the same and is over with its first step
(`run_of_ends`): it retires nothing, and so it leaves the core for the next run as it found it.
-/

namespace Accumulator.Machine

variable {size : Nat} {p : Program} {m : Machine size}

/-- From a core that calls for the end of a run, a run only tells how it ends. -/
theorem run_of_ends {o : Outcome} (h : m.toCore.fate p = .ends o) :
    m.run p =
      { outcome := o
        machine := { m with retired := 0, status := .ended o, lastTrace := none }
        log := o.notice ++ closing 0 o } := by
  have hstep : m.restart.step p = ⟨.ended o, m.restart.endedWith o, o.notice⟩ := step_of_ends rfl h
  unfold run
  rw [resume_of_ended (congrArg Reply.outcome hstep), hstep]
  rfl

/-- A run that has ended, but not for the limit, can be run again to be told how it ended. Outcome,
registers, program counter, memory, status and settings are the same after the second run; its count
is zero, and there is no trace line. A third run is the second one over again. -/
theorem rerun_repeats_outcome (p : Program) (m : Machine size)
    (h : ∀ limit, (m.run p).outcome ≠ .faulted (.limitExceeded limit)) :
    let r := m.run p
    let again := r.machine.run p
    again =
      { outcome := r.outcome
        machine := { r.machine with retired := 0, lastTrace := none }
        log := r.outcome.notice ++ closing 0 r.outcome } ∧
    again.machine.run p = again := by
  intro r again
  have hcut : r.outcome.isCut = false := by
    cases ho : r.outcome with
    | halted => rfl
    | faulted f =>
      cases f with
      | limitExceeded limit => exact absurd ho (h limit)
      | _ => rfl
  have hfate : r.machine.toCore.fate p = .ends r.outcome := fate_resume rfl hcut
  have hstatus : r.machine.status = .ended r.outcome := status_resume p m.restart
  have hagain : again =
      { outcome := r.outcome
        machine := { r.machine with retired := 0, lastTrace := none }
        log := r.outcome.notice ++ closing 0 r.outcome } := by
    show r.machine.run p = _
    rw [run_of_ends hfate, ← hstatus]
  refine ⟨hagain, ?_⟩
  -- The second run left the core, so the third one starts as it did.
  have hthird : again.machine.toCore.fate p = .ends r.outcome := by
    rw [hagain]
    exact hfate
  rw [run_of_ends hthird, hagain]
  show Reply.mk _ { r.machine with retired := 0, status := .ended r.outcome, lastTrace := none } _ = _
  rw [← hstatus]

/-- One instruction retires with a trace line, and then `LOAD` finds a negative address. -/
theorem rerun_repeats_negative_address :
    let p := Program.ofWords [0b10110111, 0b01100000, 0b11110000]
    let m := fresh ⟨true, 8⟩ (Memory.zeroed 4)
    let r := m.run p
    let again := r.machine.run p
    (∀ limit, r.outcome ≠ .faulted (.limitExceeded limit)) ∧
      again.outcome = .faulted (.invalidOperand ⟨.load, 0⟩) ∧
      r.machine.retired = 1 ∧ again.machine.retired = 0 ∧ again.machine.lastTrace = none ∧
      again.machine.toCore = r.machine.toCore ∧ again.machine.run p = again := by
  intro p m r again
  have houtcome : r.outcome = .faulted (.invalidOperand ⟨.load, 0⟩) := by decide +kernel
  have hlimit : ∀ limit, r.outcome ≠ .faulted (.limitExceeded limit) := by
    rw [houtcome]
    exact nofun
  obtain ⟨hagain, hthird⟩ := rerun_repeats_outcome p m hlimit
  have hmachine : again.machine = { r.machine with retired := 0, lastTrace := none } :=
    congrArg Reply.machine hagain
  refine ⟨hlimit, (congrArg Reply.outcome hagain).trans houtcome, by decide +kernel, ?_, ?_, ?_,
    hthird⟩
  · rw [hmachine]
  · rw [hmachine]
  · rw [hmachine]

end Accumulator.Machine
