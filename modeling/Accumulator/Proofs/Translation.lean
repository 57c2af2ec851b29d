import Accumulator.Proofs.Steps

/-!
# Translated machines

A `Translation` puts other registers, another memory and other instructions in place of those of a
machine. All else that a machine holds or reports is translated along with them. If the translated core
comes to the translated fate, as far as the run goes, then the translated machine has the translated run
(`run_withCore`). What is left to show of a translation is what it does to single instructions
(`fate_core`).
-/

namespace Accumulator

/-- What becomes of registers, memories and instructions. An instruction keeps its opcode. -/
structure Translation (size size' : Nat) where
  registers : Registers → Registers
  memory : Memory size → Memory size'
  instruction : Instruction → Instruction
  opcode_instruction : ∀ i, (instruction i).opcode = i.opcode

variable {size size' : Nat}

/-- The machine with another core. The bookkeeping stays. -/
def Machine.withCore (m : Machine size) (c : Core size') : Machine size' where
  toCore := c
  retired := m.retired
  status := m.status
  config := m.config
  lastTrace := m.lastTrace

namespace Translation

/-! ## What is translated along -/

section

variable (t : Translation size size')

def core (c : Core size) : Core size' := ⟨t.registers c.registers, c.pc, t.memory c.memory⟩

def fault : Fault → Fault
  | .invalidOperand i => .invalidOperand (t.instruction i)
  | f => f

def outcome : Outcome → Outcome
  | .halted h => .halted h
  | .faulted f => .faulted (t.fault f)

def status : Status → Status
  | .running => .running
  | .ended o => .ended (t.outcome o)

def fate : Fate size → Fate size'
  | .ends o => .ends (t.outcome o)
  | .retires i after => .retires (t.instruction i) (t.core after)

/-- What is fetched: an instruction, or the fault of a malformed line. -/
def fetched : Except Fault Instruction → Except Fault Instruction
  | .ok i => .ok (t.instruction i)
  | .error f => .error (t.fault f)

/-- What comes of an instruction: the core after it, or its fault. -/
def result : Except Fault (Core size) → Except Fault (Core size')
  | .ok after => .ok (t.core after)
  | .error f => .error (t.fault f)

def entry (e : TraceEntry) : TraceEntry :=
  ⟨t.instruction e.instruction, t.registers e.registers, e.pc⟩

def event : Event → Event
  | .retired count i => .retired count (t.instruction i)
  | .traced e => .traced (t.entry e)
  | .faulted f => .faulted (t.fault f)
  | e => e

def log (log : Log) : Log := log.map t.event

def machine (m : Machine size) : Machine size' where
  toCore := t.core m.toCore
  retired := m.retired
  status := t.status m.status
  config := m.config
  lastTrace := m.lastTrace.map t.entry

def reply (r : Reply size Outcome) : Reply size' Outcome :=
  ⟨t.outcome r.outcome, t.machine r.machine, t.log r.log⟩

end

variable {t : Translation size size'} {p q : Program} {c : Core size} {m : Machine size}

/-! ## Instructions -/

/-- An instruction is translated if its operand and the effect of each operand are. -/
theorem withOperand_eq_result {α β : Type} {i : Instruction} {operand : Option α}
    {operand' : Option β} {effect : α → Core size} {effect' : β → Core size'} {value : α → β}
    (hoperand : operand' = operand.map value) (heffect : ∀ v, effect' (value v) = t.core (effect v)) :
    Core.withOperand (t.instruction i) operand' effect' =
      t.result (Core.withOperand i operand effect) := by
  subst hoperand
  cases operand with
  | none => rfl
  | some v => exact congrArg Except.ok (heffect v)

/-- What a core comes to is translated if what is fetched and what comes of an instruction are. -/
theorem fate_core (hfetch : q.instruction? c.pc = (p.instruction? c.pc).map t.fetched)
    (hexecute : ∀ i, p.instruction? c.pc = some (.ok i) → i.opcode ≠ .stop →
      (t.core c).execute (t.instruction i) = t.result (c.execute i)) :
    (t.core c).fate q = t.fate (c.fate p) := by
  unfold Core.fate
  rw [show (t.core c).pc = c.pc from rfl, hfetch]
  cases hi : p.instruction? c.pc with
  | none => rfl
  | some r =>
    cases r with
    | error f => rfl
    | ok i =>
      dsimp only [Option.map_some, fetched]
      rw [t.opcode_instruction]
      by_cases hstop : i.opcode = .stop
      · rw [if_pos hstop, if_pos hstop]
        rfl
      · rw [if_neg hstop, if_neg hstop, hexecute i hi hstop]
        cases c.execute i <;> rfl

/-! ## Reports -/

theorem log_append (log₁ log₂ : Log) : t.log (log₁ ++ log₂) = t.log log₁ ++ t.log log₂ :=
  List.map_append

theorem log_notice (o : Outcome) : t.log o.notice = (t.outcome o).notice := by
  rcases o with (_ | _) | _ <;> rfl

theorem log_closing (n : Nat) (o : Outcome) :
    t.log (Machine.closing n o) = Machine.closing n (t.outcome o) := by
  cases o <;> rfl

theorem log_retirementNotice (m : Machine size) (i : Instruction) :
    t.log (m.retirementNotice i) = (t.machine m).retirementNotice (t.instruction i) := by
  unfold Machine.retirementNotice machine
  cases m.lastTrace <;> rfl

theorem machine_retiredTo (m : Machine size) (i : Instruction) (after : Core size) :
    t.machine (m.retiredTo i after) =
      (t.machine m).retiredTo (t.instruction i) (t.core after) := by
  unfold Machine.retiredTo machine
  cases m.config.tracing <;> rfl

/-! ## Steps and runs -/

theorem step_machine (hfate : (t.core m.toCore).fate q = t.fate (m.toCore.fate p)) :
    (t.machine m).step q =
      ⟨t.status (m.step p).outcome, t.machine (m.step p).machine, t.log (m.step p).log⟩ := by
  have hstatus : (t.machine m).status = t.status m.status := rfl
  refine Machine.step_cases (motive := fun r => (t.machine m).step q =
    ⟨t.status r.outcome, t.machine r.machine, t.log r.log⟩) p m ?_ ?_ ?_ ?_
  · intro o hs
    rw [hs] at hstatus
    exact Machine.step_of_ended hstatus
  · intro o hs hf
    rw [hs] at hstatus
    rw [hf] at hfate
    rw [Machine.step_of_ends hstatus hfate, log_notice]
    rfl
  · intro i after hs hf hl
    rw [hs] at hstatus
    rw [hf] at hfate
    rw [Machine.step_of_retires (m := t.machine m) hstatus hfate hl, log_retirementNotice,
      machine_retiredTo]
    rfl
  · intro i after hs hf hl
    rw [hs] at hstatus
    rw [hf] at hfate
    rw [Machine.step_of_retires_beyond (m := t.machine m) hstatus hfate hl, ← machine_retiredTo,
      log_append, log_retirementNotice]
    rfl

/-- If what the cores of a run come to is translated, the run is. Which cores these are is up to `P`,
which holds of the machine as long as it goes on. -/
theorem resume_machine {P : Machine size → Prop}
    (hfate : ∀ m, P m → (t.core m.toCore).fate q = t.fate (m.toCore.fate p))
    (hlater : ∀ m, P m → (m.step p).outcome = .running → P (m.step p).machine) (hm : P m) :
    (t.machine m).resume q = t.reply (m.resume p) := by
  induction m using Machine.run_induction p with
  | last m o ho =>
    have hstep := step_machine (hfate m hm)
    rw [ho] at hstep
    rw [Machine.resume_of_ended ho, Machine.resume_of_ended (congrArg Reply.outcome hstep), hstep]
    show Reply.mk _ _ _ = Reply.mk _ _ (t.log _)
    rw [log_append, log_closing]
    rfl
  | later m hr ih =>
    have hstep := step_machine (hfate m hm)
    rw [hr] at hstep
    rw [Machine.resume_of_running hr, Machine.resume_of_running (congrArg Reply.outcome hstep), hstep]
    show Reply.mk _ _ _ = Reply.mk _ _ (t.log _)
    rw [log_append, ih (hlater m hm hr)]
    rfl

/-- The run from a translated core, with the bookkeeping as it is, is the translated run. -/
theorem run_withCore {P : Machine size → Prop}
    (hfate : ∀ m, P m → (t.core m.toCore).fate q = t.fate (m.toCore.fate p))
    (hlater : ∀ m, P m → (m.step p).outcome = .running → P (m.step p).machine) (hm : P m.restart) :
    (m.withCore (t.core m.toCore)).run q = t.reply (m.run p) := calc
  -- A run sets the status anew, and does not look at the last trace line.
  (m.withCore (t.core m.toCore)).run q = { t.machine m with lastTrace := m.lastTrace }.run q := rfl
  _ = (t.machine m).run q := Machine.run_of_lastTrace ..
  _ = t.reply (m.run p) := resume_machine hfate hlater hm

end Translation

end Accumulator
