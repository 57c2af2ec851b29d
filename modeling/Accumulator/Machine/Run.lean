import Accumulator.Machine.Basic

/-!
# Runs

A run repeats `step` until the run has ended. It comes to an end because every step that does not
end it retires an instruction within the limit (`retired_step_of_running`). The equations of a
run are `resume_of_running` and `resume_of_ended`.
-/

namespace Accumulator.Machine

variable {size : Nat}

/-! ## Steps that go on -/

theorem cycle_of_running {p : Program} {m : Machine size} (h : (m.cycle p).outcome = .running) :
    (m.cycle p).machine.retired = m.retired + 1 ∧ m.retired + 1 ≤ m.config.limit ∧
      (m.cycle p).machine.config = m.config := by
  revert h
  rw [cycle_eq]
  split
  · intro h
    cases h
  · intro h
    cases h
  · split
    · intro h
      cases h
    · split
      · intro h
        cases h
      · intro h
        refine ⟨rfl, ?_, rfl⟩
        simp only [retire] at h
        split at h
        · cases h
        · omega

theorem step_of_running {p : Program} {m : Machine size} (h : (m.step p).outcome = .running) :
    m.status = .running ∧ (m.cycle p).outcome = .running := by
  revert h
  unfold step
  split
  · rename_i hm
    exact fun h => ⟨hm, h⟩
  · exact fun h => nomatch h

/-- A step that goes on retires one instruction, within the limit. -/
theorem retired_step_of_running {p : Program} {m : Machine size}
    (h : (m.step p).outcome = .running) :
    (m.step p).machine.retired = m.retired + 1 ∧ m.retired + 1 ≤ m.config.limit ∧
      (m.step p).machine.config = m.config := by
  obtain ⟨hm, hc⟩ := step_of_running h
  have hs : m.step p = record (m.cycle p) := by simp only [step, hm]
  rw [hs]
  exact cycle_of_running hc

/-- How many steps a run can still take before it ends. -/
def remaining (m : Machine size) : Nat := m.config.limit + 1 - m.retired

theorem remaining_step_lt {p : Program} {m : Machine size}
    (h : (m.step p).outcome = .running) : (m.step p).machine.remaining < m.remaining := by
  obtain ⟨hr, hl, hc⟩ := retired_step_of_running h
  unfold remaining
  rw [hr, hc]
  omega

/-! ## Running -/

/-- What is reported once a run has ended, beyond the report of its last step. -/
def closing (retired : Nat) : Outcome → Log
  | .halted h => [.terminated h retired]
  | .faulted _ => []

/-- Steps until the run has ended. The events before are given with the latest first. -/
def resumeFrom (p : Program) (m : Machine size) (before : Log) : Reply size Outcome :=
  let r := m.step p
  match h : r.outcome with
  | .running =>
    have : r.machine.remaining < m.remaining := remaining_step_lt h
    resumeFrom p r.machine (r.log.reverse ++ before)
  | .ended o => ⟨o, r.machine, before.reverse ++ (r.log ++ closing r.machine.retired o)⟩
termination_by m.remaining

def resume (p : Program) (m : Machine size) : Reply size Outcome := resumeFrom p m []

/-- The machine at the start of a new run. Registers, program counter and memory stay. -/
def restart (m : Machine size) : Machine size :=
  { m with retired := 0, status := .running }

/-- Runs a program to its end, counting from zero. -/
def run (p : Program) (m : Machine size) : Reply size Outcome := m.restart.resume p

/-- Takes `n` steps, also beyond the end of the run; the outcome is that of the last step. -/
def steps (p : Program) : Nat → Machine size → Reply size (Option Status)
  | 0, m => ⟨none, m, []⟩
  | n + 1, m =>
    let r := m.step p
    let s := steps p n r.machine
    ⟨s.outcome.or (some r.outcome), s.machine, r.log ++ s.log⟩

theorem resumeFrom_of_running {p : Program} {m : Machine size} {before : Log}
    (h : (m.step p).outcome = .running) :
    m.resumeFrom p before = (m.step p).machine.resumeFrom p ((m.step p).log.reverse ++ before) := by
  rw [resumeFrom]
  split
  · rfl
  · rename_i ho
    rw [h] at ho
    cases ho

theorem resumeFrom_of_ended {p : Program} {m : Machine size} {before : Log} {o : Outcome}
    (h : (m.step p).outcome = .ended o) :
    m.resumeFrom p before = ⟨o, (m.step p).machine,
      before.reverse ++ ((m.step p).log ++ closing (m.step p).machine.retired o)⟩ := by
  rw [resumeFrom]
  split
  · rename_i ho
    rw [h] at ho
    cases ho
  · rename_i ho
    rw [h] at ho
    cases ho
    rfl

/-- Earlier events only stand in front. -/
theorem resumeFrom_eq (p : Program) (m : Machine size) (before : Log) :
    m.resumeFrom p before =
      { m.resume p with log := before.reverse ++ (m.resume p).log } := by
  unfold resume
  generalize hn : m.remaining = n
  induction n using Nat.strongRecOn generalizing m before with
  | ind n ih =>
    cases h : (m.step p).outcome with
    | running =>
      have ih := ih _ (hn ▸ remaining_step_lt h) (m.step p).machine
      rw [resumeFrom_of_running h, resumeFrom_of_running h, ih _ rfl,
        ih ((m.step p).log.reverse ++ []) rfl]
      simp
    | ended o => simp [resumeFrom_of_ended h]

theorem resume_of_running {p : Program} {m : Machine size}
    (h : (m.step p).outcome = .running) :
    m.resume p =
      { (m.step p).machine.resume p with
        log := (m.step p).log ++ ((m.step p).machine.resume p).log } := by
  rw [resume, resumeFrom_of_running h, resumeFrom_eq]
  simp

theorem resume_of_ended {p : Program} {m : Machine size} {o : Outcome}
    (h : (m.step p).outcome = .ended o) :
    m.resume p = ⟨o, (m.step p).machine,
      (m.step p).log ++ closing (m.step p).machine.retired o⟩ := by
  rw [resume, resumeFrom_of_ended h]
  simp

@[simp]
theorem steps_zero (p : Program) (m : Machine size) : m.steps p 0 = ⟨none, m, []⟩ := rfl

theorem machine_steps_succ (p : Program) (m : Machine size) (n : Nat) :
    (m.steps p (n + 1)).machine = ((m.step p).machine.steps p n).machine := rfl

end Accumulator.Machine
