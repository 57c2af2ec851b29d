import Accumulator.Proofs.Steps

/-!
# What a run reports

A machine reports its retirements, its trace lines and how its run ends, and nothing of what loaders
report. `reports_step` says so of a step and `reports_run` of a run. Both also say that there are
trace lines only where tracing is on.
-/

namespace Accumulator

/-- The events that a machine can report. Trace lines are among them only if tracing is on. -/
def Event.isOfMachine (tracing : Bool) : Event → Bool
  | retired _ _ | stopReached | faulted _ | terminated _ _ => true
  | traced _ => tracing
  | malformedLine _ | refusedLine _ | zeroedMemory _ | cell _ _ => false

theorem Log.mem_kept {keeps : Level → Bool} {log : Log} {e : Event} :
    e ∈ Log.kept keeps log ↔ e ∈ log ∧ keeps e.level = true :=
  List.mem_filter

namespace Machine

variable {size : Nat} {p : Program} {m : Machine size} {e : Event}

theorem isOfMachine_of_notice {o : Outcome} {tracing : Bool} (h : e ∈ o.notice) :
    e.isOfMachine tracing = true := by
  rcases o with (_ | _) | _
  · cases List.mem_singleton.1 h
    rfl
  · cases h
  · cases List.mem_singleton.1 h
    rfl

theorem isOfMachine_of_retirement {i : Instruction} {after : Core size}
    (h : e ∈ (m.retiredTo i after).retirementNotice i) :
    e.isOfMachine m.config.tracing = true := by
  rcases List.mem_cons.1 h with rfl | h
  · rfl
  · cases htracing : m.config.tracing with
    | false => simp [retiredTo, htracing] at h
    | true =>
      simp only [retiredTo, htracing, if_true, Option.map_some, Option.toList_some,
        List.mem_singleton] at h
      subst h
      rfl

theorem reports_step (h : e ∈ (m.step p).log) : e.isOfMachine m.config.tracing = true := by
  revert h
  refine step_cases (motive := fun r => e ∈ r.log → e.isOfMachine m.config.tracing = true)
    p m ?_ ?_ ?_ ?_
  · intro o _ h
    cases h
  · intro o _ _ h
    exact isOfMachine_of_notice h
  · intro i after _ _ _ h
    exact isOfMachine_of_retirement h
  · intro i after _ _ _ h
    rcases List.mem_append.1 h with h | h
    · exact isOfMachine_of_retirement h
    · cases List.mem_singleton.1 h
      rfl

theorem reports_resume (h : e ∈ (m.resume p).log) : e.isOfMachine m.config.tracing = true := by
  induction m using run_induction p with
  | last m o ho =>
    rw [resume_of_ended ho] at h
    rcases List.mem_append.1 h with h | h
    · exact reports_step h
    · cases o with
      | halted =>
        cases List.mem_singleton.1 h
        rfl
      | faulted => cases h
  | later m hr ih =>
    rw [resume_of_running hr] at h
    rcases List.mem_append.1 h with h | h
    · exact reports_step h
    · rw [← config_step p m]
      exact ih h

theorem reports_run (h : e ∈ (m.run p).log) : e.isOfMachine m.config.tracing = true :=
  reports_resume (m := m.restart) h

end Machine

end Accumulator
