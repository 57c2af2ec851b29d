import Accumulator.Proofs.PostMortem

/-!
# Fetching

A running machine fetches at its program counter, and what stands there decides whether its run goes
on. `resume_eq_iff` turns the end of a run that the limit does not cut off into a fetch: it ends with
an outcome exactly if, while it still runs, it comes to a core that calls for that outcome.
-/

namespace Accumulator.Machine

variable {size : Nat} {p : Program} {m : Machine size}

/-- After some steps the machine still runs, with this core. -/
def Reaches (p : Program) (m : Machine size) (c : Core size) : Prop :=
  ∃ n, (m.steps p n).machine.status = .running ∧ (m.steps p n).machine.toCore = c

/-- After some steps the machine still runs, and fetches at this address. -/
def Fetches (p : Program) (m : Machine size) (address : Int) : Prop :=
  ∃ c, Reaches p m c ∧ c.pc = address

theorem reaches_of_ended {o : Outcome} {c : Core size} (hs : m.status = .running)
    (ho : (m.step p).outcome = .ended o) : Reaches p m c ↔ m.toCore = c := by
  constructor
  · rintro ⟨n, hn, hc⟩
    cases n with
    | zero => exact hc
    | succ n =>
      have hend : (m.step p).machine.status = .ended o := (status_step p m).trans ho
      rw [machine_steps_succ, steps_of_ended hend] at hn
      rw [hend] at hn
      cases hn
  · intro hc
    exact ⟨0, hs, hc⟩

theorem reaches_of_running {c : Core size} (hs : m.status = .running) :
    Reaches p m c ↔ m.toCore = c ∨ Reaches p (m.step p).machine c := by
  constructor
  · rintro ⟨n, hn, hc⟩
    cases n with
    | zero => exact .inl hc
    | succ n => exact .inr ⟨n, hn, hc⟩
  · rintro (hc | ⟨n, hn, hc⟩)
    · exact ⟨0, hs, hc⟩
    · exact ⟨n + 1, hn, hc⟩

/-- A run that is not cut off ends with the first core that does not let it go on. -/
theorem resume_eq_iff {c : Core size} {o : Outcome} (hs : m.status = .running)
    (hcut : o.isCut = false) :
    (m.resume p).outcome = o ∧ (m.resume p).machine.toCore = c ↔
      Reaches p m c ∧ c.fate p = .ends o := by
  induction m using run_induction p with
  | last m o' ho =>
    rw [resume_of_ended ho, reaches_of_ended hs ho]
    constructor
    · rintro ⟨rfl, rfl⟩
      obtain ⟨hf, hm⟩ := step_of_not_isCut hs ho hcut
      rw [hm]
      exact ⟨rfl, hf⟩
    · rintro ⟨rfl, hf⟩
      rw [step_of_ends hs hf] at ho ⊢
      cases ho
      exact ⟨rfl, rfl⟩
  | later m hr ih =>
    rw [resume_of_running hr, reaches_of_running hs]
    have ih := ih ((status_step p m).trans hr)
    constructor
    · intro h
      obtain ⟨hreach, hf⟩ := ih.1 h
      exact ⟨.inr hreach, hf⟩
    · rintro ⟨rfl | hreach, hf⟩
      · obtain ⟨i, after, hretires, -⟩ := retires_of_running hr
        rw [hretires] at hf
        cases hf
      · exact ih.2 ⟨hreach, hf⟩

theorem outcome_resume_eq_iff {o : Outcome} (hs : m.status = .running) (hcut : o.isCut = false) :
    (m.resume p).outcome = o ↔ ∃ c, Reaches p m c ∧ c.fate p = .ends o := by
  constructor
  · intro h
    exact ⟨_, (resume_eq_iff hs hcut).1 ⟨h, rfl⟩⟩
  · rintro ⟨c, hc⟩
    exact ((resume_eq_iff hs hcut).2 hc).1

end Accumulator.Machine
