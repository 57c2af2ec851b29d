import Accumulator.Machine.Run

/-!
# What a step comes to

Whether a step retires an instruction or ends the run, and how, is up to the program and the core
alone (`Core.fate`). The count, the limit and the settings only decide what is booked.
`step_of_ends`, `step_of_retires` and `step_of_retires_beyond` say all that a step of a running
machine does; every later fact about steps and runs is drawn from these three, and no other proof
opens `Machine.step`.
-/

namespace Accumulator

/-- Tells whether the limit has cut a run off. -/
def Outcome.isCut : Outcome → Bool
  | .faulted (.limitExceeded _) => true
  | _ => false

/-- What a core comes to when the instruction at its program counter is carried out: the run ends
and the core stays as it is, or an instruction takes its effect and leaves the core `after`, not
advanced yet. -/
inductive Fate (size : Nat) where
  | ends (outcome : Outcome)
  | retires (instruction : Instruction) (after : Core size)
  deriving DecidableEq, Repr

namespace Core

variable {size : Nat} {p : Program} {c : Core size}

def fate (p : Program) (c : Core size) : Fate size :=
  match p.instruction? c.pc with
  | none => .ends (.halted .endOfProgram)
  | some (.error f) => .ends (.faulted f)
  | some (.ok i) =>
    if i.opcode = .stop then .ends (.halted .stop)
    else
      match c.execute i with
      | .error f => .ends (.faulted f)
      | .ok after => .retires i after

theorem fate_eq_retires_iff {i : Instruction} {after : Core size} :
    c.fate p = .retires i after ↔
      p.instruction? c.pc = some (.ok i) ∧ i.opcode ≠ .stop ∧ c.execute i = .ok after := by
  constructor
  · intro h
    unfold fate at h
    split at h
    · cases h
    · cases h
    · rename_i j hj
      split at h
      · cases h
      · rename_i hstop
        split at h
        · cases h
        · rename_i d hd
          cases h
          exact ⟨hj, hstop, hd⟩
  · rintro ⟨hi, hstop, he⟩
    simp only [fate, hi, if_neg hstop, he]

/-- The four ways for a run to end in its place: nothing is fetched, a malformed line is, a `STOP`
is, or an instruction that its operand does not let have its effect. -/
theorem fate_eq_ends_iff {o : Outcome} :
    c.fate p = .ends o ↔
      (p.instruction? c.pc = none ∧ o = .halted .endOfProgram) ∨
      (∃ f, p.instruction? c.pc = some (.error f) ∧ o = .faulted f) ∨
      (∃ i, p.instruction? c.pc = some (.ok i) ∧ i.opcode = .stop ∧ o = .halted .stop) ∨
      ∃ i f, p.instruction? c.pc = some (.ok i) ∧ i.opcode ≠ .stop ∧
        c.execute i = .error f ∧ o = .faulted f := by
  constructor
  · intro h
    unfold fate at h
    split at h
    · rename_i hi
      cases h
      exact .inl ⟨hi, rfl⟩
    · rename_i f hi
      cases h
      exact .inr (.inl ⟨f, hi, rfl⟩)
    · rename_i i hi
      split at h
      · rename_i hstop
        cases h
        exact .inr (.inr (.inl ⟨i, hi, hstop, rfl⟩))
      · rename_i hstop
        split at h
        · rename_i f he
          cases h
          exact .inr (.inr (.inr ⟨i, f, hi, hstop, he, rfl⟩))
        · cases h
  · rintro (⟨hi, rfl⟩ | ⟨f, hi, rfl⟩ | ⟨i, hi, hstop, rfl⟩ | ⟨i, f, hi, hstop, he, rfl⟩)
    · simp only [fate, hi]
    · simp only [fate, hi]
    · simp only [fate, hi, if_pos hstop]
    · simp only [fate, hi, if_neg hstop, he]

theorem pc_mem_of_instruction? {r : Except Fault Instruction} (h : p.instruction? c.pc = some r) :
    0 ≤ c.pc ∧ c.pc < p.size := by
  have hsome : ¬p.fetch c.pc = none := by
    intro hnone
    rw [Program.instruction?, hnone] at h
    cases h
  rw [Program.fetch_eq_none_iff] at hsome
  omega

theorem pc_mem_of_retires {i : Instruction} {after : Core size} (h : c.fate p = .retires i after) :
    0 ≤ c.pc ∧ c.pc < p.size :=
  pc_mem_of_instruction? (fate_eq_retires_iff.1 h).1

theorem isCut_of_decode {s : Slot} {f : Fault} (h : s.decode = .error f) :
    (Outcome.faulted f).isCut = false := by
  cases s with
  | encoded word => cases h
  | malformed line =>
    simp only [Slot.decode] at h
    split at h <;> cases h <;> rfl

/-- The limit is no part of what a core comes to. -/
theorem isCut_of_ends {o : Outcome} (h : c.fate p = .ends o) : o.isCut = false := by
  rcases fate_eq_ends_iff.1 h with ⟨-, rfl⟩ | ⟨f, hf, rfl⟩ | ⟨i, -, -, rfl⟩ | ⟨i, f, -, -, he, rfl⟩
  · rfl
  · obtain ⟨s, -, hs⟩ := Option.map_eq_some_iff.1 hf
    exact isCut_of_decode hs
  · rfl
  · rw [eq_invalidOperand_of_execute he]
    rfl

end Core

/-- What the step reports that ends a run in its place. -/
def Outcome.notice : Outcome → Log
  | .halted .stop => [.stopReached]
  | .halted .endOfProgram => []
  | .faulted f => [.faulted f]

namespace Machine

variable {size : Nat} {p : Program} {m : Machine size}

/-- The machine when its run has ended without a retirement. -/
def endedWith (m : Machine size) (o : Outcome) : Machine size :=
  { m with status := .ended o, lastTrace := none }

/-- The machine when an instruction has retired that left the core `after`. -/
def retiredTo (m : Machine size) (i : Instruction) (after : Core size) : Machine size :=
  { m with
    toCore := after.advance
    retired := m.retired + 1
    lastTrace := if m.config.tracing then some ⟨i, after.registers, after.pc + 1⟩ else none }

/-- What is reported of an instruction once the machine has retired it. -/
def retirementNotice (m : Machine size) (i : Instruction) : Log :=
  .retired m.retired i :: (m.lastTrace.map Event.traced).toList

theorem record_cycle_of_ends {o : Outcome} (h : m.toCore.fate p = .ends o) :
    record (m.cycle p) = ⟨.ended o, m.endedWith o, o.notice⟩ := by
  rw [cycle_eq]
  -- Each way to end has a branch of `cycle` to itself.
  rcases Core.fate_eq_ends_iff.1 h with
    ⟨hi, rfl⟩ | ⟨f, hi, rfl⟩ | ⟨i, hi, hstop, rfl⟩ | ⟨i, f, hi, hstop, he, rfl⟩
  · simp only [hi]
    rfl
  · simp only [hi]
    rfl
  · simp only [hi, if_pos hstop]
    rfl
  · simp only [hi, if_neg hstop, he]
    rfl

theorem cycle_of_retires {i : Instruction} {after : Core size}
    (h : m.toCore.fate p = .retires i after) :
    m.cycle p =
      { outcome :=
          if m.config.limit < m.retired + 1 then
            .ended (.faulted (.limitExceeded m.config.limit))
          else .running
        machine := m.retiredTo i after
        log := (m.retiredTo i after).retirementNotice i } := by
  obtain ⟨hi, hstop, he⟩ := Core.fate_eq_retires_iff.1 h
  rw [cycle_eq]
  simp only [hi, if_neg hstop, he]
  rfl

/-! ## The kinds of steps -/

theorem step_of_ended {o : Outcome} (hs : m.status = .ended o) : m.step p = ⟨.ended o, m, []⟩ := by
  unfold step
  rw [hs]

/-- A step that retires nothing ends the run and leaves the core and the count. -/
theorem step_of_ends {o : Outcome} (hs : m.status = .running) (hf : m.toCore.fate p = .ends o) :
    m.step p = ⟨.ended o, m.endedWith o, o.notice⟩ := by
  unfold step
  rw [hs]
  exact record_cycle_of_ends hf

/-- A step that retires an instruction within the limit goes on. -/
theorem step_of_retires {i : Instruction} {after : Core size} (hs : m.status = .running)
    (hf : m.toCore.fate p = .retires i after) (hl : m.retired < m.config.limit) :
    m.step p = ⟨.running, m.retiredTo i after, (m.retiredTo i after).retirementNotice i⟩ := by
  have hnot : ¬m.config.limit < m.retired + 1 := by omega
  have hstatus : { m.retiredTo i after with status := .running } = m.retiredTo i after := by
    show { m.retiredTo i after with status := .running } =
      { m.retiredTo i after with status := m.status }
    rw [hs]
  unfold step
  rw [hs]
  simp only [cycle_of_retires hf, if_neg hnot, record, hstatus, List.append_nil]

/-- A step that retires an instruction beyond the limit ends the run, with the effect kept. -/
theorem step_of_retires_beyond {i : Instruction} {after : Core size} (hs : m.status = .running)
    (hf : m.toCore.fate p = .retires i after) (hl : m.config.limit ≤ m.retired) :
    m.step p =
      { outcome := .ended (.faulted (.limitExceeded m.config.limit))
        machine :=
          { m.retiredTo i after with
            status := .ended (.faulted (.limitExceeded m.config.limit)) }
        log := (m.retiredTo i after).retirementNotice i ++
          [.faulted (.limitExceeded m.config.limit)] } := by
  have hbeyond : m.config.limit < m.retired + 1 := by omega
  unfold step
  rw [hs]
  simp only [cycle_of_retires hf, if_pos hbeyond, record]

/-- Of a program, a step sees nothing but what stands at the program counter. -/
theorem step_congr {q : Program} (h : q.fetch m.pc = p.fetch m.pc) : m.step q = m.step p := by
  unfold step cycle Program.instruction?
  rw [h]

/-- The cases that all facts about steps are proved by, with what the step comes to in each. -/
theorem step_cases {motive : Reply size Status → Prop} (p : Program) (m : Machine size)
    (ended : ∀ o, m.status = .ended o → motive ⟨.ended o, m, []⟩)
    (ends : ∀ o, m.status = .running → m.toCore.fate p = .ends o →
      motive ⟨.ended o, m.endedWith o, o.notice⟩)
    (retires : ∀ i after, m.status = .running → m.toCore.fate p = .retires i after →
      m.retired < m.config.limit →
      motive ⟨.running, m.retiredTo i after, (m.retiredTo i after).retirementNotice i⟩)
    (beyond : ∀ i after, m.status = .running → m.toCore.fate p = .retires i after →
      m.config.limit ≤ m.retired →
      motive
        { outcome := .ended (.faulted (.limitExceeded m.config.limit))
          machine :=
            { m.retiredTo i after with
              status := .ended (.faulted (.limitExceeded m.config.limit)) }
          log := (m.retiredTo i after).retirementNotice i ++
            [.faulted (.limitExceeded m.config.limit)] }) :
    motive (m.step p) := by
  cases hs : m.status with
  | ended o =>
    rw [step_of_ended hs]
    exact ended o hs
  | running =>
    cases hf : m.toCore.fate p with
    | ends o =>
      rw [step_of_ends hs hf]
      exact ends o hs hf
    | retires i after =>
      by_cases hl : m.retired < m.config.limit
      · rw [step_of_retires hs hf hl]
        exact retires i after hs hf hl
      · have hbeyond : m.config.limit ≤ m.retired := by omega
        rw [step_of_retires_beyond hs hf hbeyond]
        exact beyond i after hs hf hbeyond

/-- A step that goes on has retired an instruction within the limit. -/
theorem retires_of_running (h : (m.step p).outcome = .running) :
    ∃ i after, m.toCore.fate p = .retires i after ∧ m.retired < m.config.limit := by
  revert h
  refine step_cases (motive := fun r => r.outcome = .running →
    ∃ i after, m.toCore.fate p = .retires i after ∧ m.retired < m.config.limit) p m ?_ ?_ ?_ ?_
  · intro o _ h
    cases h
  · intro o _ _ h
    cases h
  · intro i after _ hf hl _
    exact ⟨i, after, hf, hl⟩
  · intro i after _ _ _ h
    cases h

theorem config_step (p : Program) (m : Machine size) :
    (m.step p).machine.config = m.config := by
  refine step_cases (motive := fun r => r.machine.config = m.config) p m ?_ ?_ ?_ ?_
  all_goals intros; rfl

/-- A step records its outcome. -/
theorem status_step (p : Program) (m : Machine size) :
    (m.step p).machine.status = (m.step p).outcome := by
  refine step_cases (motive := fun r => r.machine.status = r.outcome) p m ?_ ?_ ?_ ?_
  · intro o hs
    exact hs
  · intros
    rfl
  · intro i after hs _ _
    exact hs
  · intros
    rfl

/-- A step leaves the core, or it retires an instruction and takes the core to the next address. -/
theorem toCore_step (p : Program) (m : Machine size) :
    (m.step p).machine.toCore = m.toCore ∨
      ∃ i after, m.toCore.fate p = .retires i after ∧
        (m.step p).machine.toCore = after.advance := by
  refine step_cases (motive := fun r => r.machine.toCore = m.toCore ∨
    ∃ i after, m.toCore.fate p = .retires i after ∧ r.machine.toCore = after.advance) p m ?_ ?_ ?_ ?_
  · intros
    exact .inl rfl
  · intros
    exact .inl rfl
  · intro i after _ hf _
    exact .inr ⟨i, after, hf, rfl⟩
  · intro i after _ hf _
    exact .inr ⟨i, after, hf, rfl⟩

end Machine

end Accumulator
