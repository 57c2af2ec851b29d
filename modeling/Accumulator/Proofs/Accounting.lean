import Accumulator.Proofs.Steps

/-!
# The count of a run

`retirements` lists what has retired over a number of steps without a look at the count of the
machine, and `retired_steps` says that the count keeps up with it. `Accounted` is the invariant
that ties the count to the limit and the status: a machine is within the limit as long as it runs,
and beyond it, by exactly one instruction, if and only if it has ended with the fault of the limit.
-/

namespace Accumulator

/-- An instruction that has retired, with the core that it found and the core that it left. -/
structure Retirement (size : Nat) where
  instruction : Instruction
  before : Core size
  after : Core size
  deriving DecidableEq, Repr

namespace Machine

variable {size : Nat} {p : Program} {m : Machine size}

/-- What the next step retires, if it retires an instruction. -/
def retirement? (p : Program) (m : Machine size) : Option (Retirement size) :=
  match m.status, m.toCore.fate p with
  | .running, .retires i after => some ⟨i, m.toCore, after.advance⟩
  | _, _ => none

/-- What the next `n` steps retire, in order. -/
def retirements (p : Program) : Nat → Machine size → List (Retirement size)
  | 0, _ => []
  | n + 1, m => (m.retirement? p).toList ++ retirements p n (m.step p).machine

theorem retirement?_of_running (hs : m.status = .running) :
    m.retirement? p =
      match m.toCore.fate p with
      | .ends _ => none
      | .retires i after => some ⟨i, m.toCore, after.advance⟩ := by
  unfold retirement?
  rw [hs]
  cases m.toCore.fate p <;> rfl

theorem retirement?_of_ended {o : Outcome} (hs : m.status = .ended o) :
    m.retirement? p = none := by
  unfold retirement?
  rw [hs]

theorem retired_step (p : Program) (m : Machine size) :
    (m.step p).machine.retired = m.retired + (m.retirement? p).toList.length := by
  refine step_cases (motive := fun r =>
    r.machine.retired = m.retired + (m.retirement? p).toList.length) p m ?_ ?_ ?_ ?_
  · intro o hs
    rw [retirement?_of_ended hs]
    rfl
  · intro o hs hf
    rw [retirement?_of_running hs, hf]
    rfl
  · intro i after hs hf _
    rw [retirement?_of_running hs, hf]
    rfl
  · intro i after hs hf _
    rw [retirement?_of_running hs, hf]
    rfl

/-- The count grows by the number of instructions that retire. -/
theorem retired_steps (p : Program) (m : Machine size) (n : Nat) :
    (m.steps p n).machine.retired = m.retired + (m.retirements p n).length := by
  induction n generalizing m with
  | zero => rfl
  | succ n ih =>
    show ((m.step p).machine.steps p n).machine.retired = _
    rw [ih, retired_step, retirements, List.length_append]
    omega

/-! ## The count and the limit -/

/-- The count is within the limit, or it is beyond it by one and the run was cut off for that. -/
structure Accounted (m : Machine size) : Prop where
  of_running : m.status = .running → m.retired ≤ m.config.limit
  of_ended : ∀ o, m.status = .ended o →
    (m.retired ≤ m.config.limit ∧ o.isCut = false) ∨
      (m.retired = m.config.limit + 1 ∧ o = .faulted (.limitExceeded m.config.limit))

namespace Accounted

theorem retired_le (h : m.Accounted) : m.retired ≤ m.config.limit + 1 := by
  cases hs : m.status with
  | running =>
    have hle := h.of_running hs
    omega
  | ended o =>
    rcases h.of_ended o hs with ⟨hle, -⟩ | ⟨heq, -⟩
    · omega
    · omega

/-- A machine that has ended is beyond the limit exactly if it was cut off. -/
theorem retired_eq_iff (h : m.Accounted) {o : Outcome} (hs : m.status = .ended o) :
    m.retired = m.config.limit + 1 ↔ o = .faulted (.limitExceeded m.config.limit) := by
  rcases h.of_ended o hs with ⟨hle, hcut⟩ | ⟨heq, ho⟩
  · constructor
    · intro heq
      omega
    · rintro rfl
      cases hcut
  · exact ⟨fun _ => ho, fun _ => heq⟩

/-- The fault of the limit names the limit of the machine. -/
theorem eq_limitExceeded_of_isCut (h : m.Accounted) {o : Outcome} (hs : m.status = .ended o)
    (hcut : o.isCut = true) : o = .faulted (.limitExceeded m.config.limit) := by
  rcases h.of_ended o hs with ⟨-, hnot⟩ | ⟨-, ho⟩
  · rw [hcut] at hnot
    cases hnot
  · exact ho

theorem fresh (config : Config) (memory : Memory size) : (Machine.fresh config memory).Accounted :=
  ⟨fun _ => Nat.zero_le _, fun _ ho => nomatch ho⟩

theorem restart (m : Machine size) : m.restart.Accounted :=
  ⟨fun _ => Nat.zero_le _, fun _ ho => nomatch ho⟩

theorem step (h : m.Accounted) : (m.step p).machine.Accounted := by
  refine step_cases (motive := fun r => r.machine.Accounted) p m ?_ ?_ ?_ ?_
  · intro o _
    exact h
  · intro o hs hf
    refine ⟨(nomatch ·), ?_⟩
    intro o' ho
    cases ho
    exact .inl ⟨h.of_running hs, Core.isCut_of_ends hf⟩
  · intro i after hs _ hl
    refine ⟨fun _ => hl, ?_⟩
    intro o ho
    change m.status = .ended o at ho
    rw [hs] at ho
    cases ho
  · intro i after hs _ hl
    refine ⟨(nomatch ·), ?_⟩
    intro o ho
    cases ho
    -- The machine was running and so within the limit: it is beyond by this one instruction.
    have hle := h.of_running hs
    have hcount : m.retired + 1 = m.config.limit + 1 := by omega
    exact .inr ⟨hcount, rfl⟩

theorem steps (h : m.Accounted) (n : Nat) : (m.steps p n).machine.Accounted :=
  steps_preserves p (fun _ => step) h n

theorem resume (h : m.Accounted) : (m.resume p).machine.Accounted :=
  resume_preserves p (fun _ => step) h

end Accounted

/-- A run comes to its end within one step more than the limit, whatever the program does. Its
count is the number of instructions that it retired; the count exceeds the limit, by one, exactly
if the run ends with the fault of the limit; and the status is how the run ended. -/
theorem run_accounts (p : Program) (m : Machine size) :
    ∃ n, n ≤ m.config.limit + 1 ∧ FirstHalt p m.restart n ∧
      (m.restart.steps p n).outcome = some (.ended (m.run p).outcome) ∧
      (m.run p).machine = (m.restart.steps p n).machine ∧
      (m.run p).machine.retired = (m.restart.retirements p n).length ∧
      (m.run p).machine.retired ≤ m.config.limit + 1 ∧
      ((m.run p).machine.retired = m.config.limit + 1 ↔
        (m.run p).outcome = .faulted (.limitExceeded m.config.limit)) ∧
      (∀ h, (m.run p).machine.status = .ended (.halted h) ↔ (m.run p).outcome = .halted h) ∧
      (∀ f, (m.run p).machine.status = .ended (.faulted f) ↔ (m.run p).outcome = .faulted f) ∧
      (m.run p).machine.status ≠ .running := by
  obtain ⟨n, o, h, hn⟩ := exists_endsIn p m.restart
  have hrun : m.run p = _ := h.resume_eq
  have hacc : (m.restart.steps p n).machine.Accounted := (Accounted.restart m).steps n
  have hle := hacc.retired_le
  have hiff := hacc.retired_eq_iff h.status_steps
  have hcount := retired_steps p m.restart n
  have hconfig : (m.restart.steps p n).machine.config = m.config := config_steps p m.restart n
  rw [hconfig] at hle hiff
  rw [hrun]
  refine ⟨n, ?_, firstHalt_iff.2 ⟨o, h⟩, h.outcome_steps, rfl, ?_, hle, hiff, ?_⟩
  · -- A restart has the whole limit before it, and the step that is cut off.
    have hrem : m.restart.remaining = m.config.limit + 1 := rfl
    omega
  · rw [hcount]
    exact Nat.zero_add _
  · dsimp only
    rw [h.status_steps]
    simp

end Machine

end Accumulator
